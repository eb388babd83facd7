import ComplexFormula.Operator

namespace ComplexFormula

abbrev AccumulatorM := StateM Value

namespace AccumulatorM

def writeRe (x : Binary64) : AccumulatorM Unit :=
  modify fun z => { z with re := x }

def writeIm (x : Binary64) : AccumulatorM Unit :=
  modify fun z => { z with im := x }

def addAssign (w : Value) : AccumulatorM Unit := do
  writeRe ((← get).re + w.re)
  writeIm ((← get).im + w.im)

def subAssign (w : Value) : AccumulatorM Unit :=
  addAssign (-w)

-- Here and in a division both parts are formed from both parts, so a copy is kept of the old ones.
def mulAssign (w : Value) : AccumulatorM Unit := do
  let z ← get
  writeRe (z.re * w.re - z.im * w.im)
  writeIm (z.im * w.re + z.re * w.im)

def divAssign (w : Value) : AccumulatorM Unit := do
  let z ← get
  if CompareAbs.absLt w.im w.re then
    let ratio := w.im / w.re
    let denominator := w.re + w.im * ratio
    writeRe ((z.re + z.im * ratio) / denominator)
    writeIm ((z.im - z.re * ratio) / denominator)
  else
    let ratio := w.re / w.im
    let denominator := w.im + w.re * ratio
    writeRe ((z.re * ratio + z.im) / denominator)
    writeIm ((z.im * ratio - z.re) / denominator)

def assign : BinaryOp → Value → AccumulatorM Unit
  | .add => addAssign
  | .sub => subAssign
  | .mul => mulAssign
  | .div => divAssign

end AccumulatorM

inductive Operand where
  | number (value : Value)
  /-- The running value itself, as it was before the step. -/
  | running
deriving DecidableEq

def Operand.value (running : Value) : Operand → Value
  | number z => z
  | .running => running

inductive Step where
  | combine (op : BinaryOp) (operand : Operand)
  | transform (op : UnaryOp)
  | invert
deriving DecidableEq

namespace Step

def perform : Step → AccumulatorM Unit
  | combine op operand => do
    let w := operand.value (← get)
    AccumulatorM.assign op w
  | transform .neg => modify fun z => -z
  | transform .conj => modify Complex.conj
  | invert => modify Complex.inverse

def apply (running : Value) (step : Step) : Value :=
  (step.perform.run running).2

def applyAll (start : Value) : List Step → List Value
  | [] => []
  | step :: steps => step.apply start :: applyAll (step.apply start) steps

end Step

end ComplexFormula

import ComplexFormula.Formula.Basic
import ComplexFormula.Valuation

namespace ComplexFormula

inductive EvalError where
  | undefinedVariable (name : String)
deriving DecidableEq

namespace EvalError

def message : EvalError → String
  | undefinedVariable name => "Undefined variable '" ++ name ++ "'."

instance : ToString EvalError where
  toString := message

end EvalError

inductive LookupRecord where
  | resolved (name : String) (value : Value)
  /-- The name was not among the bound ones, of which there are `bound`. -/
  | missing (name : String) (bound : Nat)
deriving DecidableEq

namespace LookupRecord

inductive Level where
  | trace
  | debug
deriving DecidableEq

def Level.name : Level → String
  | trace => "TRACE"
  | debug => "DEBUG"

def level : LookupRecord → Level
  | resolved .. => .trace
  | missing .. => .debug

def message : LookupRecord → String
  | resolved name value => "resolved variable '" ++ name ++ "' to " ++ value.text
  | missing name bound =>
    "variable '" ++ name ++ "' is missing from a binding of " ++ bound.repr ++ " names"

end LookupRecord

abbrev EvalM := ExceptT EvalError (StateM (Array LookupRecord))

def EvalM.record (entry : LookupRecord) : EvalM Unit :=
  modify fun log => log.push entry

def Valuation.resolve (ρ : Valuation) (name : String) : EvalM Value :=
  match ρ[name]? with
  | some value => do
    EvalM.record (.resolved name value)
    return value
  | none => do
    EvalM.record (.missing name ρ.size)
    throw (.undefinedVariable name)

namespace Formula

def evalM (ρ : Valuation) : Formula → EvalM Value
  | const z => return z
  | var name => ρ.resolve name
  | binary op left right => do
    let z ← left.evalM ρ
    let w ← right.evalM ρ
    return op.apply z w
  | unary op operand => do
    let z ← operand.evalM ρ
    return op.apply z

structure Evaluation where
  outcome : Except EvalError Value
  log : Array LookupRecord

def eval (ρ : Valuation) (f : Formula) : Evaluation :=
  let (outcome, log) := ((f.evalM ρ).run.run #[])
  { outcome, log }

end Formula

end ComplexFormula

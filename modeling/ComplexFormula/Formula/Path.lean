import ComplexFormula.Formula.Basic

namespace ComplexFormula

inductive Branch where
  | left
  | right
  | operand
deriving DecidableEq

abbrev Path := List Branch

inductive Operator where
  | binary (op : BinaryOp)
  | unary (op : UnaryOp)
deriving DecidableEq

namespace Formula

/-- Changes the subformula at the end of the path, if the path leads to one and it can be changed. -/
def modifyAt? (change : Formula → Option Formula) : Path → Formula → Option Formula
  | [], f => change f
  | .left :: path, binary op left right =>
    (left.modifyAt? change path).map fun left => binary op left right
  | .right :: path, binary op left right =>
    (right.modifyAt? change path).map fun right => binary op left right
  | .operand :: path, unary op operand =>
    (operand.modifyAt? change path).map fun operand => unary op operand
  | _ :: _, _ => none

def replaceAt? (f : Formula) (path : Path) (replacement : Formula) : Option Formula :=
  f.modifyAt? (fun _ => some replacement) path

def withOperator? : Operator → Formula → Option Formula
  | .binary op, binary _ left right => some (binary op left right)
  | .unary op, unary _ operand => some (unary op operand)
  | _, _ => none

def setOperatorAt? (f : Formula) (path : Path) (op : Operator) : Option Formula :=
  f.modifyAt? (withOperator? op) path

def subformula? : Path → Formula → Option Formula
  | [], f => some f
  | .left :: path, binary _ left _ => left.subformula? path
  | .right :: path, binary _ _ right => right.subformula? path
  | .operand :: path, unary _ operand => operand.subformula? path
  | _ :: _, _ => none

end Formula

end ComplexFormula

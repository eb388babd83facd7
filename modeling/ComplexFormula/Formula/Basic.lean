import ComplexFormula.Operator

namespace ComplexFormula

inductive Formula where
  | const (value : Value)
  | var (name : String)
  | binary (op : BinaryOp) (left right : Formula)
  | unary (op : UnaryOp) (operand : Formula)
deriving DecidableEq

namespace Formula

instance : Inhabited Formula where
  default := const 0

instance : Coe Value Formula where
  coe := const

def real (x : Binary64) : Formula :=
  const (Complex.ofReal x)

instance : Add Formula where
  add := binary .add

instance : Sub Formula where
  sub := binary .sub

instance : Mul Formula where
  mul := binary .mul

instance : Div Formula where
  div := binary .div

instance : Neg Formula where
  neg := unary .neg

def conj (f : Formula) : Formula :=
  unary .conj f

def depth : Formula → Nat
  | const _ | var _ => 1
  | binary _ left right => max left.depth right.depth + 1
  | unary _ operand => operand.depth + 1

def occurrences : Formula → List String
  | const _ => []
  | var name => [name]
  | binary _ left right => left.occurrences ++ right.occurrences
  | unary _ operand => operand.occurrences

def bind (assign : String → Formula) : Formula → Formula
  | const z => const z
  | var name => assign name
  | binary op left right => binary op (left.bind assign) (right.bind assign)
  | unary op operand => unary op (operand.bind assign)

def substitute (f : Formula) (name : String) (replacement : Formula) : Formula :=
  f.bind fun other => if other = name then replacement else var other

inductive Side where
  | left
  | right
deriving DecidableEq

def wrap (f : Formula) (op : UnaryOp) (times : Nat) : Formula :=
  times.repeat (unary op) f

def chain (f : Formula) (op : BinaryOp) (side : Side) (other : Formula) (times : Nat) : Formula :=
  match side with
  | .left => times.repeat (fun g => binary op g other) f
  | .right => times.repeat (fun g => binary op other g) f

def double (f : Formula) (op : BinaryOp) (times : Nat) : Formula :=
  times.repeat (fun g => binary op g g) f

end Formula

end ComplexFormula

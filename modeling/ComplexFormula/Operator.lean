import ComplexFormula.Complex.Value

namespace ComplexFormula

inductive BinaryOp where
  | add
  | sub
  | mul
  | div
deriving DecidableEq

namespace BinaryOp

def symbol : BinaryOp → String
  | add => "+"
  | sub => "-"
  | mul => "*"
  | div => "/"

instance : ToString BinaryOp where
  toString := symbol

def apply : BinaryOp → Value → Value → Value
  | add, z, w => z + w
  | sub, z, w => z - w
  | mul, z, w => z * w
  | div, z, w => z / w

def applyReal : BinaryOp → Value → Binary64 → Value
  | add, z, x => z + x
  | sub, z, x => z - x
  | mul, z, x => z * x
  | div, z, x => z / x

end BinaryOp

inductive UnaryOp where
  | neg
  | conj
deriving DecidableEq

namespace UnaryOp

def symbol : UnaryOp → String
  | neg => "-"
  | conj => "~"

instance : ToString UnaryOp where
  toString := symbol

def apply : UnaryOp → Value → Value
  | neg, z => -z
  | conj, z => z.conj

end UnaryOp

end ComplexFormula

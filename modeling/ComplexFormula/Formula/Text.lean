import ComplexFormula.Formula.Basic

namespace ComplexFormula.Formula

def text : Formula → String
  | const z => z.text
  | var name => name
  | binary op left right => "(" ++ left.text ++ " " ++ op.symbol ++ " " ++ right.text ++ ")"
  | unary op operand => "(" ++ op.symbol ++ operand.text ++ ")"

instance : ToString Formula where
  toString := text

end ComplexFormula.Formula

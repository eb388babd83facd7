import ComplexFormula.Formula.Basic

namespace ComplexFormula.Formula

/-- The formulas differ at most in constants, and there by less than the tolerance. -/
def Close : Formula → Formula → Prop
  | const z, const w => z.Close w
  | var x, var y => x = y
  | binary op left right, binary op' left' right' => op = op' ∧ left.Close left' ∧ right.Close right'
  | unary op operand, unary op' operand' => op = op' ∧ operand.Close operand'
  | _, _ => False

instance decidableClose : (f g : Formula) → Decidable (f.Close g)
  | const z, const w => inferInstanceAs (Decidable (z.Close w))
  | var x, var y => inferInstanceAs (Decidable (x = y))
  | binary op left right, binary op' left' right' =>
    have := decidableClose left left'
    have := decidableClose right right'
    inferInstanceAs (Decidable (op = op' ∧ left.Close left' ∧ right.Close right'))
  | unary op operand, unary op' operand' =>
    have := decidableClose operand operand'
    inferInstanceAs (Decidable (op = op' ∧ operand.Close operand'))
  | const _, var _ | const _, binary .. | const _, unary .. => isFalse id
  | var _, const _ | var _, binary .. | var _, unary .. => isFalse id
  | binary .., const _ | binary .., var _ | binary .., unary .. => isFalse id
  | unary .., const _ | unary .., var _ | unary .., binary .. => isFalse id

end ComplexFormula.Formula

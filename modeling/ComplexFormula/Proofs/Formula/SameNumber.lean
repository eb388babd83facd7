import ComplexFormula.Proofs.Complex.SameNumber
import ComplexFormula.Proofs.Formula.Related

namespace ComplexFormula

theorem KeptByOperators.sameNumber : KeptByOperators Complex.SameNumber where
  binary op {_ _ _ _} left right := by
    cases op with
    | add => exact left.add right
    | sub => exact left.sub right
    | mul => exact left.mul right
    | div => exact left.div right
  unary op {_ _} operand := by
    cases op with
    | neg => exact operand.neg
    | conj => exact operand.conj

theorem BinaryOp.conj_apply (op : BinaryOp) (z w : Value) :
    (op.apply z w).conj.SameNumber (op.apply z.conj w.conj) := by
  cases op with
  | add => exact Complex.conj_add z w
  | sub => exact Complex.conj_sub z w
  | mul => exact Complex.conj_mul z w
  | div => exact Complex.conj_div z w

theorem UnaryOp.conj_apply (op : UnaryOp) (z : Value) :
    (op.apply z).conj = op.apply z.conj := by
  cases op <;> rfl

theorem KeptByOperators.conj : KeptByOperators fun z w => z.conj.SameNumber w where
  binary op {z _ w _} left right := (op.conj_apply z w).trans (sameNumber.binary op left right)
  unary op {z _} operand := by
    rw [op.conj_apply z]
    exact sameNumber.unary op operand

theorem OutcomeRel.map {r : Value → Value → Prop} {value : Value → Value}
    {x y : Except EvalError Value} (outcomes : OutcomeRel (fun z w => r (value z) w) x y) :
    OutcomeRel r (x.map value) y := by
  cases outcomes with
  | ok related => exact .ok related
  | error error => exact .error error

namespace Formula

/-- A quotient is formed with one denominator. It is never a zero, and where a zero was divided by
before, for the ratio, nothing but "not a number" comes out. -/
theorem eval_zeroSigns_only (ρ ρ' : Valuation) (f f' : Formula)
    (bindings : Valuation.Related Complex.SameNumber ρ ρ')
    (formulas : Related Complex.SameNumber f f') :
    OutcomeRel Complex.SameNumber (f.eval ρ).outcome (f'.eval ρ').outcome ∧
      ∀ z w : Value, z / w = (z.numerator w).map (· / w.denominator) ∧
        ¬ w.denominator.isZero ∧ (w.pivot.isZero → z / w = ⟨.nan, .nan⟩) := by
  refine ⟨formulas.outcome .sameNumber bindings, ?_⟩
  intro z w
  exact ⟨Complex.div_eq_map_numerator z w, Complex.denominator_ne_zero w, Complex.div_eq_nan z⟩

theorem eval_zeroSigns_only_of_divisor :
    let ρ := Valuation.ofBindings [("x", ⟨1, 0⟩), ("y", ⟨0, -1⟩)]
    let ρ' := Valuation.ofBindings [("x", ⟨1, -0⟩), ("y", ⟨-0, -1⟩)]
    let f := binary .div (var "x") (binary .mul (var "y") (const ⟨0, 1⟩))
    let f' := binary .div (var "x") (binary .mul (var "y") (const ⟨-0, 1⟩))
    let zero : Value := ⟨0, -0⟩
    Valuation.Related Complex.SameNumber ρ ρ' ∧ Related Complex.SameNumber f f' ∧
      OutcomeRel Complex.SameNumber (f.eval ρ).outcome (f'.eval ρ').outcome ∧
      zero.pivot.isZero ∧ ⟨1, -1⟩ / zero = (⟨.nan, .nan⟩ : Value) := by
  intro ρ ρ' f f' zero
  have bindings : Valuation.Related Complex.SameNumber ρ ρ' := by
    have x : Complex.SameNumber ⟨1, 0⟩ ⟨1, -0⟩ := ⟨.refl 1, .inr ⟨rfl, rfl⟩⟩
    have y : Complex.SameNumber ⟨0, -1⟩ ⟨-0, -1⟩ := ⟨.inr ⟨rfl, rfl⟩, .refl (-1)⟩
    exact (Valuation.Related.empty.insert x "x").insert y "y"
  have formulas : Related Complex.SameNumber f f' := by
    have constant : Complex.SameNumber ⟨0, 1⟩ ⟨-0, 1⟩ := ⟨.inr ⟨rfl, rfl⟩, .refl 1⟩
    exact .binary .div (.var "x") (.binary .mul (.var "y") (.const constant))
  have pivot : zero.pivot.isZero := rfl
  have zeroSigns := eval_zeroSigns_only ρ ρ' f f' bindings formulas
  exact ⟨bindings, formulas, zeroSigns.1, pivot, (zeroSigns.2 _ zero).2.2 pivot⟩

theorem eval_conjugates (ρ : Valuation) (f : Formula) :
    OutcomeRel Complex.SameNumber ((f.eval ρ).outcome.map Complex.conj)
      ((f.mapConstants Complex.conj).eval (ρ.map fun _ z => z.conj)).outcome := by
  have formulas := related_mapConstants (fun z => Complex.SameNumber.refl z.conj) f
  have bindings := Valuation.Related.map (fun z => Complex.SameNumber.refl z.conj) ρ
  exact (formulas.outcome .conj bindings).map

end Formula

end ComplexFormula

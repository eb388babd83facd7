import ComplexFormula.Proofs.Complex.Division

namespace ComplexFormula.Complex

def SameNumber (z w : Value) : Prop :=
  z.re.SameNumber w.re ∧ z.im.SameNumber w.im

instance (z w : Value) : Decidable (z.SameNumber w) :=
  inferInstanceAs (Decidable (_ ∧ _))

variable {z z' w w' : Value}

namespace SameNumber

theorem refl (z : Value) : z.SameNumber z := ⟨.refl z.re, .refl z.im⟩

theorem trans {u : Value} (first : z.SameNumber w) (second : w.SameNumber u) : z.SameNumber u :=
  ⟨first.1.trans second.1, first.2.trans second.2⟩

theorem neg (same : z.SameNumber z') : (-z).SameNumber (-z') :=
  ⟨same.1.neg, same.2.neg⟩

theorem conj (same : z.SameNumber z') : z.conj.SameNumber z'.conj :=
  ⟨same.1, same.2.neg⟩

theorem add (sameZ : z.SameNumber z') (sameW : w.SameNumber w') :
    (z + w).SameNumber (z' + w') :=
  ⟨sameZ.1.add sameW.1, sameZ.2.add sameW.2⟩

theorem sub (sameZ : z.SameNumber z') (sameW : w.SameNumber w') :
    (z - w).SameNumber (z' - w') :=
  sameZ.add sameW.neg

theorem mul (sameZ : z.SameNumber z') (sameW : w.SameNumber w') :
    (z * w).SameNumber (z' * w') :=
  ⟨(sameZ.1.mul sameW.1).sub (sameZ.2.mul sameW.2), (sameZ.2.mul sameW.1).add (sameZ.1.mul sameW.2)⟩

theorem absLt_eq (same : w.SameNumber w') :
    CompareAbs.absLt w.im w.re = CompareAbs.absLt w'.im w'.re := by
  change decide (w.im.abs < w.re.abs) = decide (w'.im.abs < w'.re.abs)
  rw [same.1.abs_eq, same.2.abs_eq]

theorem pivot (same : w.SameNumber w') : w.pivot.SameNumber w'.pivot := by
  unfold Complex.pivot
  rw [same.absLt_eq]
  split
  · exact same.1
  · exact same.2

theorem minor (same : w.SameNumber w') : w.minor.SameNumber w'.minor := by
  unfold Complex.minor
  rw [same.absLt_eq]
  split
  · exact same.2
  · exact same.1

theorem ratio (same : w.SameNumber w') : w.ratio.SameNumber w'.ratio := by
  by_cases zero : w.pivot.isZero
  -- The sign of a zero that is divided by would show, but no number comes out then.
  · have zero' : w'.pivot.isZero := same.pivot.isZero_eq ▸ zero
    rw [ratio_eq_nan zero, ratio_eq_nan zero']
    exact .refl _
  · exact same.minor.div same.pivot zero

theorem denominator_eq (same : w.SameNumber w') : w.denominator = w'.denominator := by
  have sameDenominator : w.denominator.SameNumber w'.denominator :=
    same.pivot.add (same.minor.mul same.ratio)
  exact sameDenominator.eq_of_ne_zero (denominator_ne_zero w)

theorem numerator (sameZ : z.SameNumber z') (sameW : w.SameNumber w') :
    (z.numerator w).SameNumber (z'.numerator w') := by
  unfold Complex.numerator
  rw [sameW.absLt_eq]
  split
  · exact ⟨sameZ.1.add (sameZ.2.mul sameW.ratio), sameZ.2.sub (sameZ.1.mul sameW.ratio)⟩
  · exact ⟨(sameZ.1.mul sameW.ratio).add sameZ.2, (sameZ.2.mul sameW.ratio).sub sameZ.1⟩

theorem map_div (same : z.SameNumber z') (d : Binary64) :
    (z.map (· / d)).SameNumber (z'.map (· / d)) :=
  ⟨same.1.dividend d, same.2.dividend d⟩

theorem div (sameZ : z.SameNumber z') (sameW : w.SameNumber w') :
    (z / w).SameNumber (z' / w') := by
  rw [div_eq_map_numerator, div_eq_map_numerator, sameW.denominator_eq]
  exact (sameZ.numerator sameW).map_div _

end SameNumber

theorem conj_add (z w : Value) : (z + w).conj.SameNumber (z.conj + w.conj) :=
  ⟨.refl _, Binary64.neg_add z.im w.im⟩

theorem conj_sub (z w : Value) : (z - w).conj.SameNumber (z.conj - w.conj) :=
  conj_add z (-w)

theorem conj_mul (z w : Value) : (z * w).conj.SameNumber (z.conj * w.conj) := by
  constructor
  · change (z.re * w.re - z.im * w.im).SameNumber (z.re * w.re - -z.im * -w.im)
    rw [Binary64.neg_mul, Binary64.mul_neg, Binary64.neg_neg]
    exact .refl _
  · change (-(z.im * w.re + z.re * w.im)).SameNumber (-z.im * w.re + z.re * -w.im)
    rw [Binary64.neg_mul, Binary64.mul_neg]
    exact Binary64.neg_add _ _

theorem absLt_conj (w : Value) :
    CompareAbs.absLt w.conj.im w.conj.re = CompareAbs.absLt w.im w.re := by
  change decide ((-w.im).abs < w.re.abs) = decide (w.im.abs < w.re.abs)
  rw [Binary64.abs_neg]

theorem ratio_conj (w : Value) : w.conj.ratio = -w.ratio := by
  unfold ratio minor pivot
  rw [absLt_conj]
  split
  · exact Binary64.neg_div w.im w.re
  · exact Binary64.div_neg w.re w.im

section

variable {w : Value} (nearer : CompareAbs.absLt w.im w.re = true)

include nearer

theorem denominator_conj_of_absLt : w.conj.denominator = w.denominator := by
  rw [denominator_of_absLt nearer, denominator_of_absLt ((absLt_conj w).trans nearer), ratio_conj]
  change w.re + -w.im * -w.ratio = w.re + w.im * w.ratio
  rw [Binary64.neg_mul, Binary64.mul_neg, Binary64.neg_neg]

theorem numerator_conj_of_absLt (z : Value) :
    (z.numerator w).conj.SameNumber (z.conj.numerator w.conj) := by
  rw [numerator_of_absLt z nearer, numerator_of_absLt z.conj ((absLt_conj w).trans nearer),
    ratio_conj]
  constructor
  · change (z.re + z.im * w.ratio).SameNumber (z.re + -z.im * -w.ratio)
    rw [Binary64.neg_mul, Binary64.mul_neg, Binary64.neg_neg]
    exact .refl _
  · change (-(z.im - z.re * w.ratio)).SameNumber (-z.im - z.re * -w.ratio)
    rw [Binary64.mul_neg, Binary64.sub_eq_add_neg, Binary64.sub_eq_add_neg]
    exact Binary64.neg_add _ _

end

section

variable {w : Value} (farther : CompareAbs.absLt w.im w.re = false)

include farther

theorem denominator_conj_of_not_absLt : w.conj.denominator = -w.denominator := by
  have negated : (-w.denominator).SameNumber w.conj.denominator := by
    rw [denominator_of_not_absLt farther,
      denominator_of_not_absLt ((absLt_conj w).trans farther), ratio_conj]
    change (-(w.im + w.re * w.ratio)).SameNumber (-w.im + w.re * -w.ratio)
    rw [Binary64.mul_neg]
    exact Binary64.neg_add _ _
  exact negated.symm.eq_of_ne_zero (denominator_ne_zero w.conj)

theorem numerator_conj_of_not_absLt (z : Value) :
    (-(z.numerator w).conj).SameNumber (z.conj.numerator w.conj) := by
  rw [numerator_of_not_absLt z farther, numerator_of_not_absLt z.conj ((absLt_conj w).trans farther),
    ratio_conj]
  constructor
  · change (-(z.re * w.ratio + z.im)).SameNumber (z.re * -w.ratio + -z.im)
    rw [Binary64.mul_neg]
    exact Binary64.neg_add _ _
  · change (- -(z.im * w.ratio - z.re)).SameNumber (-z.im * -w.ratio - z.re)
    rw [Binary64.neg_mul, Binary64.mul_neg, Binary64.neg_neg, Binary64.neg_neg]
    exact .refl _

end

theorem conj_map_div (z : Value) (d : Binary64) : (z.map (· / d)).conj = z.conj.map (· / d) :=
  congrArg (mk (z.re / d)) (Binary64.neg_div z.im d).symm

theorem neg_map_div_neg (z : Value) (d : Binary64) : (-z).map (· / -d) = z.map (· / d) := by
  change mk (-z.re / -d) (-z.im / -d) = mk (z.re / d) (z.im / d)
  simp only [Binary64.neg_div, Binary64.div_neg, Binary64.neg_neg]

theorem conj_div (z w : Value) : (z / w).conj.SameNumber (z.conj / w.conj) := by
  rw [div_eq_map_numerator, div_eq_map_numerator, conj_map_div]
  cases nearer : CompareAbs.absLt w.im w.re with
  | true =>
    rw [denominator_conj_of_absLt nearer]
    exact (numerator_conj_of_absLt nearer z).map_div _
  | false =>
    rw [denominator_conj_of_not_absLt nearer, ← neg_map_div_neg]
    exact (numerator_conj_of_not_absLt nearer z).map_div _

end ComplexFormula.Complex

import Mathlib.Algebra.Order.Field.Basic
import Mathlib.Algebra.Order.Field.Rat
import Mathlib.Algebra.Order.Ring.Abs
import Mathlib.Tactic.FieldSimp
import Mathlib.Tactic.Ring
import ComplexFormula.Proofs.Complex.Division

namespace ComplexFormula

instance : CompareAbs Rat where
  absLt x y := |x| < |y|

namespace Complex

/-- The quotient as it is defined: the product with the conjugate of the divisor, divided by the
square of the divisor's modulus. -/
def quotient (z w : Complex Rat) : Complex Rat where
  re := (z.re * w.re + z.im * w.im) / (w.re ^ 2 + w.im ^ 2)
  im := (z.im * w.re - z.re * w.im) / (w.re ^ 2 + w.im ^ 2)

namespace Exact

variable {w : Complex Rat}

theorem absLt_iff {x y : Rat} : CompareAbs.absLt x y = true ↔ |x| < |y| :=
  decide_eq_true_iff

theorem abs_minor_le (w : Complex Rat) : |w.minor| ≤ |w.pivot| := by
  unfold minor pivot
  split
  case isTrue nearer => exact (absLt_iff.1 nearer).le
  case isFalse farther => exact not_lt.1 fun nearer => farther (absLt_iff.2 nearer)

theorem abs_ratio_le_one (w : Complex Rat) : |w.ratio| ≤ 1 := by
  rw [ratio, abs_div]
  exact div_le_one_of_le₀ (abs_minor_le w) (abs_nonneg _)

theorem max_abs (w : Complex Rat) : max |w.re| |w.im| = |w.pivot| := by
  unfold pivot
  split
  case isTrue nearer => exact max_eq_left (absLt_iff.1 nearer).le
  case isFalse farther => exact max_eq_right (not_lt.1 fun nearer => farther (absLt_iff.2 nearer))

theorem normSq_eq (w : Complex Rat) : w.normSq = w.pivot ^ 2 + w.minor ^ 2 := by
  unfold normSq minor pivot
  split <;> ring

theorem normSq_mul (x y : Complex Rat) : (x * y).normSq = x.normSq * y.normSq := by
  change (x.re * y.re - x.im * y.im) * (x.re * y.re - x.im * y.im) +
    (x.im * y.re + x.re * y.im) * (x.im * y.re + x.re * y.im) = _
  simp only [normSq]
  ring

theorem normSq_nonneg (x : Complex Rat) : 0 ≤ x.normSq :=
  add_nonneg (mul_self_nonneg _) (mul_self_nonneg _)

theorem normSq_ne_zero (nonzero : w ≠ 0) : w.normSq ≠ 0 := by
  intro zero
  obtain ⟨re, im⟩ := mul_self_add_mul_self_eq_zero.1 zero
  exact nonzero (congrArg₂ mk re im)

theorem pivot_ne_zero (nonzero : w ≠ 0) : w.pivot ≠ 0 := by
  intro zero
  have minorZero : w.minor = 0 := by
    simpa only [zero, abs_zero, abs_nonpos_iff] using abs_minor_le w
  apply normSq_ne_zero nonzero
  rw [normSq_eq, zero, minorZero]
  ring

theorem pivot_mul_denominator (nonzero : w ≠ 0) : w.pivot * w.denominator = w.normSq := by
  have pivotNe := pivot_ne_zero nonzero
  rw [normSq_eq, denominator, ratio]
  field_simp

theorem abs_pivot_le (nonzero : w ≠ 0) : |w.pivot| ≤ |w.denominator| := by
  have product := pivot_mul_denominator nonzero
  rw [normSq_eq] at product
  have pivotPos := abs_pos.2 (pivot_ne_zero nonzero)
  apply le_of_mul_le_mul_left _ pivotPos
  rw [← abs_mul, ← abs_mul, product, abs_of_nonneg (mul_self_nonneg _),
    abs_of_nonneg (add_nonneg (sq_nonneg _) (sq_nonneg _)), ← pow_two]
  exact le_add_of_nonneg_right (sq_nonneg _)

theorem denominator_ne_zero (nonzero : w ≠ 0) : w.denominator ≠ 0 := by
  have product := normSq_ne_zero nonzero
  rw [← pivot_mul_denominator nonzero] at product
  exact right_ne_zero_of_mul product

theorem map_numerator_mul_pivot (z : Complex Rat) (nonzero : w ≠ 0) :
    (z.numerator w).map (· * w.pivot) =
      ⟨z.re * w.re + z.im * w.im, z.im * w.re - z.re * w.im⟩ := by
  have pivotNe := pivot_ne_zero nonzero
  cases nearer : CompareAbs.absLt w.im w.re with
  | true =>
    simp only [pivot, nearer, if_true] at pivotNe
    rw [numerator_of_absLt z nearer, ratio_of_absLt nearer]
    simp only [map, pivot, nearer, if_true]
    congr 1 <;> field_simp
  | false =>
    simp only [pivot, nearer, Bool.false_eq_true, if_false] at pivotNe
    rw [numerator_of_not_absLt z nearer, ratio_of_not_absLt nearer]
    simp only [map, pivot, nearer, Bool.false_eq_true, if_false]
    congr 1 <;> field_simp

theorem numerator_eq_sums (z w : Complex Rat) : z.numerator w =
    if CompareAbs.absLt w.im w.re then ⟨z.re + z.im * w.ratio, z.im + -z.re * w.ratio⟩
    else ⟨z.im + z.re * w.ratio, -z.re + z.im * w.ratio⟩ := by
  unfold numerator
  split
  · rw [sub_eq_add_neg, neg_mul]
  · rw [sub_eq_add_neg, add_comm, add_comm (-z.re)]

theorem abs_add_mul_le {a b r : Rat} (le : |r| ≤ 1) : |a + b * r| ≤ |a| + |b| := by
  refine (abs_add_le _ _).trans (add_le_add_right ?_ _)
  rw [abs_mul]
  exact mul_le_of_le_one_right (abs_nonneg _) le

theorem abs_numerator_le (z w : Complex Rat) :
    |(z.numerator w).re| ≤ |z.re| + |z.im| ∧ |(z.numerator w).im| ≤ |z.re| + |z.im| := by
  have le := abs_ratio_le_one w
  rw [numerator_eq_sums]
  split
  · refine ⟨abs_add_mul_le le, (abs_add_mul_le le).trans_eq ?_⟩
    rw [abs_neg, add_comm]
  · refine ⟨(abs_add_mul_le le).trans_eq (add_comm _ _), (abs_add_mul_le le).trans_eq ?_⟩
    rw [abs_neg]

theorem div_eq_quotient (z : Complex Rat) (nonzero : w ≠ 0) : z / w = z.quotient w := by
  have scaled := map_numerator_mul_pivot z nonzero
  obtain ⟨re, im⟩ := mk.inj scaled
  have pivotNe := pivot_ne_zero nonzero
  have square : w.re ^ 2 + w.im ^ 2 = w.denominator * w.pivot := by
    rw [mul_comm, pivot_mul_denominator nonzero, normSq]
    ring
  rw [div_eq_map_numerator, quotient, square, ← re, ← im, mul_div_mul_right _ _ pivotNe,
    mul_div_mul_right _ _ pivotNe]
  rfl

theorem sq_add_sq_ne_zero (nonzero : w ≠ 0) : w.re ^ 2 + w.im ^ 2 ≠ 0 := by
  simpa only [normSq, pow_two] using normSq_ne_zero nonzero

theorem div_mul_cancel (z : Complex Rat) (nonzero : w ≠ 0) : z / w * w = z := by
  have square := sq_add_sq_ne_zero nonzero
  rw [div_eq_quotient z nonzero]
  change mk _ _ = mk z.re z.im
  simp only [quotient]
  congr 1 <;> field_simp <;> ring

theorem div_eq_mul_inverse (z : Complex Rat) (nonzero : w ≠ 0) : z / w = z * w.inverse := by
  rw [div_eq_quotient z nonzero]
  change mk _ _ = mk _ _
  simp only [inverse, normSq]
  congr 1 <;> field_simp <;> ring

theorem inverse_eq_one_div (nonzero : w ≠ 0) : w.inverse = 1 / w := by
  rw [div_eq_mul_inverse 1 nonzero]
  change w.inverse = mk (1 * w.inverse.re - 0 * w.inverse.im) (0 * w.inverse.re + 1 * w.inverse.im)
  simp only [one_mul, zero_mul, sub_zero, zero_add]

theorem branch_of_div (z : Complex Rat) (nonzero : w ≠ 0) :
    if |w.im| < |w.re| then
      w.re ≠ 0 ∧ w.re + w.im * (w.im / w.re) ≠ 0 ∧ z / w = z.divByReal w
    else w.im ≠ 0 ∧ w.im + w.re * (w.re / w.im) ≠ 0 ∧ z / w = z.divByImaginary w := by
  have pivotNe := pivot_ne_zero nonzero
  have denominatorNe := denominator_ne_zero nonzero
  rw [div_eq]
  split
  case isTrue nearer =>
    have test := absLt_iff.2 nearer
    rw [denominator_of_absLt test, ratio_of_absLt test] at denominatorNe
    simp only [pivot, test, if_true] at pivotNe
    exact ⟨pivotNe, denominatorNe, if_pos test⟩
  case isFalse farther =>
    have test : CompareAbs.absLt w.im w.re = false := decide_eq_false farther
    rw [denominator_of_not_absLt test, ratio_of_not_absLt test] at denominatorNe
    simp only [pivot, test, Bool.false_eq_true, if_false] at pivotNe
    exact ⟨pivotNe, denominatorNe, if_neg (Bool.eq_false_iff.1 test)⟩

end Exact

theorem div_exact (z w : Complex Rat) (nonzero : w ≠ 0) :
    (if |w.im| < |w.re| then
      w.re ≠ 0 ∧ w.re + w.im * (w.im / w.re) ≠ 0 ∧ z / w = z.divByReal w
    else w.im ≠ 0 ∧ w.im + w.re * (w.re / w.im) ≠ 0 ∧ z / w = z.divByImaginary w) ∧
    z / w = z.quotient w ∧ z / w * w = z ∧ w.inverse = 1 / w ∧ z / w = z * w.inverse :=
  ⟨Exact.branch_of_div z nonzero, Exact.div_eq_quotient z nonzero, Exact.div_mul_cancel z nonzero,
    Exact.inverse_eq_one_div nonzero, Exact.div_eq_mul_inverse z nonzero⟩

theorem div_exact_by_imaginary_pivot :
    let z : Complex Rat := ⟨1, 2⟩
    let w : Complex Rat := ⟨1, -4⟩
    w ≠ 0 ∧ (w.im ≠ 0 ∧ w.im + w.re * (w.re / w.im) ≠ 0 ∧ z / w = z.divByImaginary w) ∧
      z / w = ⟨-7 / 17, 6 / 17⟩ ∧ z / w * w = z ∧ w.inverse = 1 / w ∧ z / w = z * w.inverse := by
  intro z w
  have nonzero : w ≠ 0 := by decide +kernel
  obtain ⟨branch, quotient, product, inverse, byInverse⟩ := div_exact z w nonzero
  have farther : ¬ |w.im| < |w.re| := by decide +kernel
  rw [if_neg farther] at branch
  have value : z.quotient w = ⟨-7 / 17, 6 / 17⟩ := by decide +kernel
  exact ⟨nonzero, branch, quotient.trans value, product, inverse, byInverse⟩

end Complex

end ComplexFormula

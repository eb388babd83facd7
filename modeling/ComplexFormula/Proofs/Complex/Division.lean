import ComplexFormula.Complex.Value
import ComplexFormula.Proofs.Binary64.SameNumber

namespace ComplexFormula.Complex

section

variable {K : Type} [CompareAbs K]

def pivot (w : Complex K) : K :=
  if CompareAbs.absLt w.im w.re then w.re else w.im

def minor (w : Complex K) : K :=
  if CompareAbs.absLt w.im w.re then w.im else w.re

variable [Div K]

def ratio (w : Complex K) : K :=
  w.minor / w.pivot

variable {w : Complex K}

theorem ratio_of_absLt (nearer : CompareAbs.absLt w.im w.re = true) :
    w.ratio = w.im / w.re := by
  simp only [ratio, pivot, minor, nearer, if_true]

theorem ratio_of_not_absLt (farther : CompareAbs.absLt w.im w.re = false) :
    w.ratio = w.re / w.im := by
  simp only [ratio, pivot, minor, farther, Bool.false_eq_true, if_false]

variable [Add K] [Mul K]

def denominator (w : Complex K) : K :=
  w.pivot + w.minor * w.ratio

theorem denominator_of_absLt (nearer : CompareAbs.absLt w.im w.re = true) :
    w.denominator = w.re + w.im * w.ratio := by
  simp only [denominator, pivot, minor, nearer, if_true]

theorem denominator_of_not_absLt (farther : CompareAbs.absLt w.im w.re = false) :
    w.denominator = w.im + w.re * w.ratio := by
  simp only [denominator, pivot, minor, farther, Bool.false_eq_true, if_false]

variable [Sub K]

def numerator (z w : Complex K) : Complex K :=
  if CompareAbs.absLt w.im w.re then ⟨z.re + z.im * w.ratio, z.im - z.re * w.ratio⟩
  else ⟨z.re * w.ratio + z.im, z.im * w.ratio - z.re⟩

theorem numerator_of_absLt (z : Complex K) (nearer : CompareAbs.absLt w.im w.re = true) :
    z.numerator w = ⟨z.re + z.im * w.ratio, z.im - z.re * w.ratio⟩ := by
  simp only [numerator, nearer, if_true]

theorem numerator_of_not_absLt (z : Complex K) (farther : CompareAbs.absLt w.im w.re = false) :
    z.numerator w = ⟨z.re * w.ratio + z.im, z.im * w.ratio - z.re⟩ := by
  simp only [numerator, farther, Bool.false_eq_true, if_false]

theorem div_eq (z w : Complex K) :
    z / w = if CompareAbs.absLt w.im w.re then divByReal z w else divByImaginary z w := rfl

theorem div_eq_map_numerator (z w : Complex K) :
    z / w = (z.numerator w).map (· / w.denominator) := by
  rw [div_eq]
  cases nearer : CompareAbs.absLt w.im w.re with
  | true =>
    rw [numerator_of_absLt z nearer, denominator_of_absLt nearer, ratio_of_absLt nearer]
    rfl
  | false =>
    rw [numerator_of_not_absLt z nearer, denominator_of_not_absLt nearer,
      ratio_of_not_absLt nearer]
    rfl

end

theorem absLt_zero (x : Binary64) {y : Binary64} (zero : y.isZero) :
    CompareAbs.absLt x y = false := by
  obtain ⟨b, rfl⟩ := Binary64.exists_eq_signedZero zero
  cases x with
  | nan | infinite _ => rfl
  | finite a m _ =>
    refine decide_eq_false fun less => Nat.not_lt_zero m ?_
    exact Binary64.abs_finite_lt_abs_finite.1 less

theorem isZero_or_isNaN_of_zero_absLt {x y : Binary64} (zero : x.isZero)
    (notNearer : CompareAbs.absLt x y = false) : y.isZero ∨ y.isNaN := by
  obtain ⟨a, rfl⟩ := Binary64.exists_eq_signedZero zero
  cases y with
  | nan => exact .inr rfl
  | infinite b => contradiction
  | finite b n _ =>
    have unitsLe : ¬ 0 < n := fun pos =>
      of_decide_eq_false notNearer (Binary64.abs_finite_lt_abs_finite.2 pos)
    exact .inl (decide_eq_true (by omega))

theorem ratio_eq_nan {w : Value} (zero : w.pivot.isZero) : w.ratio = .nan := by
  cases nearer : CompareAbs.absLt w.im w.re with
  | true =>
    simp only [pivot, nearer, if_true] at zero
    rw [absLt_zero w.im zero] at nearer
    contradiction
  | false =>
    simp only [pivot, nearer, Bool.false_eq_true, if_false] at zero
    rw [ratio_of_not_absLt nearer]
    obtain ⟨b, im⟩ := Binary64.exists_eq_signedZero zero
    rcases isZero_or_isNaN_of_zero_absLt zero nearer with reZero | reNaN
    · obtain ⟨a, re⟩ := Binary64.exists_eq_signedZero reZero
      rw [re, im]
      rfl
    · rw [Binary64.eq_nan_of_isNaN reNaN]
      rfl

theorem denominator_ne_zero (w : Value) : ¬ w.denominator.isZero := by
  by_cases zero : w.pivot.isZero
  · simp [denominator, ratio_eq_nan zero, Binary64.isZero]
  · -- The other part enters twice, so the term it adds has the sign of the pivot.
    obtain ⟨a, minorSign⟩ := w.minor.exists_hasSign
    obtain ⟨b, pivotSign⟩ := w.pivot.exists_hasSign
    have termSign := minorSign.mul (minorSign.div pivotSign)
    rw [← Bool.xor_assoc, Bool.xor_self, Bool.false_xor] at termSign
    exact pivotSign.add_ne_zero termSign zero

theorem div_eq_nan (z : Value) {w : Value} (zero : w.pivot.isZero) : z / w = ⟨.nan, .nan⟩ := by
  rw [div_eq_map_numerator]
  cases nearer : CompareAbs.absLt w.im w.re with
  | true =>
    rw [numerator_of_absLt z nearer, ratio_eq_nan zero, Binary64.mul_nan, Binary64.mul_nan,
      Binary64.add_nan, Binary64.sub_nan]
    rfl
  | false =>
    rw [numerator_of_not_absLt z nearer, ratio_eq_nan zero, Binary64.mul_nan, Binary64.mul_nan]
    rfl

end ComplexFormula.Complex

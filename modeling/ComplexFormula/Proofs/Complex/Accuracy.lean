import Mathlib.Analysis.Complex.Norm
import ComplexFormula.Proofs.Complex.Range

namespace ComplexFormula

theorem abs_div_sub_div_le {x y n d size pivot δ ε : Rat} (errorX : |x - n| ≤ δ * size)
    (exactLe : |n| ≤ size) (errorY : |y - d| ≤ ε * pivot) (pivotPos : 0 < pivot)
    (le : pivot ≤ |y|) (exactLe' : pivot ≤ |d|) : |x / y - n / d| ≤ (δ + ε) * (size / pivot) := by
  have yNe : y ≠ 0 := abs_pos.1 (pivotPos.trans_le le)
  have dNe : d ≠ 0 := abs_pos.1 (pivotPos.trans_le exactLe')
  have byNumerator : |(x - n) / y| ≤ δ * size / pivot := by
    rw [abs_div]
    exact div_le_div₀ ((abs_nonneg _).trans errorX) errorX pivotPos le
  have byDenominator : |n * (d - y) / (y * d)| ≤ size * (ε * pivot) / (pivot * pivot) := by
    have productLe : |n| * |d - y| ≤ size * (ε * pivot) := by
      rw [abs_sub_comm d]
      exact mul_le_mul exactLe errorY (abs_nonneg _) ((abs_nonneg n).trans exactLe)
    rw [abs_div, abs_mul, abs_mul]
    exact div_le_div₀ ((mul_nonneg (abs_nonneg _) (abs_nonneg _)).trans productLe) productLe
      (mul_pos pivotPos pivotPos) (mul_le_mul le exactLe' pivotPos.le (abs_nonneg _))
  calc |x / y - n / d| = |(x - n) / y + n * (d - y) / (y * d)| := by
        congr 1
        field_simp
        ring
    _ ≤ δ * size / pivot + size * (ε * pivot) / (pivot * pivot) :=
        (abs_add_le _ _).trans (add_le_add byNumerator byDenominator)
    _ = (δ + ε) * (size / pivot) := by
        field_simp

namespace Binary64

/-- The number is zero or its magnitude is moderate: products and quotients of such numbers are far
from the limits of the format. -/
def IsModerate (x : Binary64) : Prop :=
  x.isFinite ∧ (x.toRat = 0 ∨ 1 / 10 ^ 50 ≤ |x.toRat| ∧ |x.toRat| ≤ 10 ^ 50)

instance (x : Binary64) : Decidable x.IsModerate :=
  inferInstanceAs (Decidable (_ ∧ _))

theorem le_largest : (10 ^ 102 : Rat) ≤ largest.toRat := by
  have scaled : 10 ^ 102 * unitsPerOne ≤ largestUnits := by decide +kernel
  rw [toRat_largest, le_div_iff₀ unitsPerOne_cast_pos]
  exact_mod_cast scaled

variable {x y : Binary64}

namespace IsModerate

theorem abs_le (moderate : x.IsModerate) : |x.toRat| ≤ 10 ^ 50 := by
  rcases moderate.2 with zero | ⟨-, le⟩
  · rw [zero, abs_zero]
    positivity
  · exact le

theorem le_abs (moderate : x.IsModerate) (nonzero : x.toRat ≠ 0) : 1 / 10 ^ 50 ≤ |x.toRat| :=
  (moderate.2.resolve_left nonzero).1

theorem neg (moderate : x.IsModerate) : (-x).IsModerate := by
  simpa [IsModerate] using moderate

theorem abs_mul_le (left : x.IsModerate) (right : y.IsModerate) :
    |x.toRat * y.toRat| ≤ 10 ^ 100 := by
  rw [abs_mul]
  calc |x.toRat| * |y.toRat| ≤ 10 ^ 50 * 10 ^ 50 :=
        mul_le_mul left.abs_le right.abs_le (abs_nonneg _) (by positivity)
    _ = 10 ^ 100 := by norm_num

theorem normal (moderate : x.IsModerate) (nonzero : x.toRat ≠ 0) : leastNormal ≤ |x.toRat| :=
  calc leastNormal ≤ 1 / 10 ^ 100 := leastNormal_le
    _ ≤ 1 / 10 ^ 50 := by norm_num
    _ ≤ |x.toRat| := moderate.le_abs nonzero

theorem mul_error (left : x.IsModerate) (right : y.IsModerate) :
    (x * y).isFinite ∧
      |(x * y).toRat - x.toRat * y.toRat| ≤ unitRoundoff * |x.toRat * y.toRat| := by
  have rounds := rounds_mul left.1 right.1
  have productLe : |x.toRat * y.toRat| ≤ |largest.toRat| :=
    calc |x.toRat * y.toRat| ≤ 10 ^ 100 := left.abs_mul_le right
      _ ≤ 10 ^ 102 := by norm_num
      _ ≤ |largest.toRat| := le_largest.trans (le_abs_self _)
  have isFinite := (rounds.abs_le isFinite_largest productLe).1
  refine ⟨isFinite, rounds.error_le isFinite le_rfl fun nonzero => ?_⟩
  rw [abs_mul]
  calc leastNormal ≤ 1 / 10 ^ 100 := leastNormal_le
    _ = 1 / 10 ^ 50 * (1 / 10 ^ 50) := by norm_num
    _ ≤ |x.toRat| * |y.toRat| :=
      mul_le_mul (left.le_abs (left_ne_zero_of_mul nonzero))
        (right.le_abs (right_ne_zero_of_mul nonzero)) (by positivity) (abs_nonneg _)

end IsModerate

theorem add_terms_error {s t : Rat} (finiteX : x.isFinite) (finiteY : y.isFinite)
    (errorX : |x.toRat - s| ≤ unitRoundoff * |s|) (errorY : |y.toRat - t| ≤ unitRoundoff * |t|)
    (small : |s| + |t| ≤ 10 ^ 101) :
    (x + y).isFinite ∧ |(x + y).toRat - (s + t)| ≤ 3 * unitRoundoff * (|s| + |t|) := by
  have termsError : |x.toRat + y.toRat - (s + t)| ≤ unitRoundoff * (|s| + |t|) :=
    calc |x.toRat + y.toRat - (s + t)| = |(x.toRat - s) + (y.toRat - t)| := by ring_nf
      _ ≤ |x.toRat - s| + |y.toRat - t| := abs_add_le _ _
      _ ≤ unitRoundoff * (|s| + |t|) := by linarith
  have sumNonneg : 0 ≤ |s| + |t| := by positivity
  have termsLe : |x.toRat + y.toRat| ≤ 2 * (|s| + |t|) := by
    have errorLe : unitRoundoff * (|s| + |t|) ≤ 1 * (|s| + |t|) :=
      mul_le_mul_of_nonneg_right (unitRoundoff_le.trans (by norm_num)) sumNonneg
    have exactLe := abs_add_le s t
    have distance := abs_sub_abs_le_abs_sub (x.toRat + y.toRat) (s + t)
    linarith
  have inRange : |x.toRat + y.toRat| ≤ |largest.toRat| :=
    calc |x.toRat + y.toRat| ≤ 10 ^ 102 := by linarith
      _ ≤ |largest.toRat| := le_largest.trans (le_abs_self _)
  have isFinite := ((rounds_add finiteX finiteY).abs_le isFinite_largest inRange).1
  refine ⟨isFinite, ?_⟩
  have rounding := add_error finiteX finiteY isFinite
  have scaled := mul_le_mul_of_nonneg_left termsLe unitRoundoff_pos.le
  have triangle := abs_sub_le (x + y).toRat (x.toRat + y.toRat) (s + t)
  linarith

theorem sum_error {ratio : Binary64} {r : Rat} (finiteX : x.isFinite) (moderate : y.IsModerate)
    (ratioFinite : ratio.isFinite) (ratioLe : |ratio.toRat| ≤ 1)
    (ratioError : |ratio.toRat - r| ≤ unitRoundoff) (isFinite : (x + y * ratio).isFinite) :
    |(x + y * ratio).toRat - (x.toRat + y.toRat * r)| ≤
      3 * unitRoundoff * (|x.toRat| + |y.toRat|) := by
  have finiteY := moderate.1
  obtain ⟨productFinite, productLe⟩ := mul_in_range finiteY ratioFinite ratioLe
  have product : |(y * ratio).toRat - y.toRat * ratio.toRat| ≤ unitRoundoff * |y.toRat| := by
    apply (rounds_mul finiteY ratioFinite).error_le productFinite
    · rw [abs_mul]
      exact mul_le_of_le_one_right (abs_nonneg _) ratioLe
    · exact fun nonzero => moderate.normal (left_ne_zero_of_mul nonzero)
  have factor : |y.toRat * ratio.toRat - y.toRat * r| ≤ unitRoundoff * |y.toRat| := by
    rw [← mul_sub, abs_mul, mul_comm]
    exact mul_le_mul_of_nonneg_right ratioError (abs_nonneg _)
  have sum : |(x + y * ratio).toRat - (x.toRat + (y * ratio).toRat)| ≤
      unitRoundoff * (|x.toRat| + |y.toRat|) :=
    (add_error finiteX productFinite isFinite).trans (mul_le_mul_of_nonneg_left
      ((abs_add_le _ _).trans (add_le_add_right productLe _)) unitRoundoff_pos.le)
  have nonneg : 0 ≤ unitRoundoff * |x.toRat| := mul_nonneg unitRoundoff_pos.le (abs_nonneg _)
  calc |(x + y * ratio).toRat - (x.toRat + y.toRat * r)|
      = |((x + y * ratio).toRat - (x.toRat + (y * ratio).toRat)) +
          (((y * ratio).toRat - y.toRat * ratio.toRat) +
            (y.toRat * ratio.toRat - y.toRat * r))| := by ring_nf
    _ ≤ unitRoundoff * (|x.toRat| + |y.toRat|) +
        (unitRoundoff * |y.toRat| + unitRoundoff * |y.toRat|) :=
      (abs_add_le _ _).trans (add_le_add sum ((abs_add_le _ _).trans (add_le_add product factor)))
    _ ≤ 3 * unitRoundoff * (|x.toRat| + |y.toRat|) := by linarith

theorem quotient_error {n d size pivot : Rat} (finiteX : x.isFinite) (finiteY : y.isFinite)
    (errorX : |x.toRat - n| ≤ 3 * unitRoundoff * size) (exactLe : |n| ≤ size)
    (errorY : |y.toRat - d| ≤ 6 * unitRoundoff * pivot) (pivotPos : 0 < pivot)
    (le : pivot ≤ |y.toRat|) (exactLe' : pivot ≤ |d|)
    (normal : size ≠ 0 → leastNormal ≤ size / pivot) (small : 2 * (size / pivot) ≤ largest.toRat) :
    (x / y).isFinite ∧ |(x / y).toRat - n / d| ≤ 11 * unitRoundoff * (size / pivot) := by
  have sizeNonneg : 0 ≤ size := (abs_nonneg n).trans exactLe
  have numeratorLe : |x.toRat| ≤ 2 * size := by
    have errorLe : 3 * unitRoundoff * size ≤ 1 * size :=
      mul_le_mul_of_nonneg_right (by linarith [unitRoundoff_le]) sizeNonneg
    have distance := abs_sub_abs_le_abs_sub x.toRat n
    linarith
  have quotientLe : |x.toRat / y.toRat| ≤ 2 * (size / pivot) := by
    rw [abs_div, ← mul_div_assoc]
    exact div_le_div₀ (mul_nonneg two_pos.le sizeNonneg) numeratorLe pivotPos le
  have rounds := rounds_div finiteX finiteY (abs_pos.1 (pivotPos.trans_le le))
  have isFinite := (rounds.abs_le isFinite_largest ((quotientLe.trans small).trans (le_abs_self _))).1
  have rounding : |(x / y).toRat - x.toRat / y.toRat| ≤ unitRoundoff * (2 * (size / pivot)) := by
    refine rounds.error_le isFinite quotientLe fun nonzero => ?_
    have sizeNe : size ≠ 0 := by
      rintro rfl
      rw [mul_zero, abs_nonpos_iff] at numeratorLe
      exact nonzero (by rw [numeratorLe, zero_div])
    linarith [normal sizeNe, div_nonneg sizeNonneg pivotPos.le]
  refine ⟨isFinite, ?_⟩
  have exactError := abs_div_sub_div_le errorX exactLe errorY pivotPos le exactLe'
  have triangle := abs_sub_le (x / y).toRat (x.toRat / y.toRat) (n / d)
  linarith

end Binary64

namespace Complex

open Binary64 (toRat largest unitRoundoff leastNormal)

def IsModerate (z : Value) : Prop :=
  z.re.IsModerate ∧ z.im.IsModerate

instance (z : Value) : Decidable z.IsModerate :=
  inferInstanceAs (Decidable (_ ∧ _))

variable {z w : Value}

/-! ## Products -/

theorem mul_parts_error (left : z.IsModerate) (right : w.IsModerate) :
    (z * w).isFinite ∧
      |(z * w).exact.re - (z.exact * w.exact).re| ≤
        3 * unitRoundoff * (|z.exact.re * w.exact.re| + |z.exact.im * w.exact.im|) ∧
      |(z * w).exact.im - (z.exact * w.exact).im| ≤
        3 * unitRoundoff * (|z.exact.im * w.exact.re| + |z.exact.re * w.exact.im|) := by
  obtain ⟨reRe, reReError⟩ := left.1.mul_error right.1
  obtain ⟨imIm, imImError⟩ := left.2.mul_error right.2
  obtain ⟨imRe, imReError⟩ := left.2.mul_error right.1
  obtain ⟨reIm, reImError⟩ := left.1.mul_error right.2
  have negError : |(-(z.im * w.im)).toRat - -(z.im.toRat * w.im.toRat)| ≤
      unitRoundoff * |-(z.im.toRat * w.im.toRat)| := by
    rwa [Binary64.toRat_neg, neg_sub_neg, abs_sub_comm, abs_neg]
  have reSmall : |z.re.toRat * w.re.toRat| + |-(z.im.toRat * w.im.toRat)| ≤ 10 ^ 101 := by
    rw [abs_neg]
    linarith [left.1.abs_mul_le right.1, left.2.abs_mul_le right.2]
  have imSmall : |z.im.toRat * w.re.toRat| + |z.re.toRat * w.im.toRat| ≤ 10 ^ 101 := by
    linarith [left.2.abs_mul_le right.1, left.1.abs_mul_le right.2]
  obtain ⟨reFinite, re⟩ := Binary64.add_terms_error reRe (by rwa [Binary64.isFinite_neg])
    reReError negError reSmall
  obtain ⟨imFinite, im⟩ := Binary64.add_terms_error imRe reIm imReError reImError imSmall
  rw [← Binary64.sub_eq_add_neg, ← sub_eq_add_neg, abs_neg] at re
  rw [← Binary64.sub_eq_add_neg] at reFinite
  exact ⟨isFinite_iff.2 ⟨reFinite, imFinite⟩, re, im⟩

theorem sq_add_sq_le {e e' c a b : Rat} (le : |e| ≤ c * a) (le' : |e'| ≤ c * b) :
    e * e + e' * e' ≤ c ^ 2 * (a ^ 2 + b ^ 2) := by
  have square := pow_le_pow_left₀ (abs_nonneg e) le 2
  have square' := pow_le_pow_left₀ (abs_nonneg e') le' 2
  rw [sq_abs, mul_pow] at square square'
  linarith

theorem normSq_mul_sub_le (left : z.IsModerate) (right : w.IsModerate) :
    ((z * w).exact - z.exact * w.exact).normSq ≤
      18 * unitRoundoff ^ 2 * (z.exact * w.exact).normSq := by
  obtain ⟨-, re, im⟩ := mul_parts_error left right
  rw [sub_eq_add_neg] at re im
  have terms := add_sq_le (a := |z.exact.re * w.exact.re|) (b := |z.exact.im * w.exact.im|)
  have terms' := add_sq_le (a := |z.exact.im * w.exact.re|) (b := |z.exact.re * w.exact.im|)
  simp only [sq_abs] at terms terms'
  refine (sq_add_sq_le re im).trans ((mul_le_mul_of_nonneg_left (add_le_add terms terms')
    (sq_nonneg _)).trans_eq ?_)
  rw [Exact.normSq_mul, normSq, normSq]
  ring

/-! ## Quotients -/

theorem isFinite_of_isModerate (moderate : z.IsModerate) : z.isFinite :=
  isFinite_iff.2 ⟨moderate.1.1, moderate.2.1⟩

theorem pivot_isModerate (moderate : w.IsModerate) : w.pivot.IsModerate := by
  unfold pivot
  split
  · exact moderate.1
  · exact moderate.2

theorem minor_isModerate (moderate : w.IsModerate) : w.minor.IsModerate := by
  unfold minor
  split
  · exact moderate.2
  · exact moderate.1

section

variable (moderate : w.IsModerate) (nonzero : w.exact ≠ 0)

include moderate nonzero

theorem denominator_error :
    w.denominator.isFinite ∧ |w.pivot.toRat| ≤ |w.denominator.toRat| ∧
      |w.denominator.toRat - w.exact.denominator| ≤ 6 * unitRoundoff * |w.pivot.toRat| := by
  have finiteW := isFinite_of_isModerate moderate
  have small : |w.pivot.toRat| ≤ largest.toRat / 2 := by
    have le := (pivot_isModerate moderate).abs_le
    have large := Binary64.le_largest
    linarith
  obtain ⟨isFinite, below, -⟩ := denominator_in_range finiteW nonzero small
  obtain ⟨ratioFinite, ratioLe⟩ := ratio_in_range finiteW nonzero
  have error := Binary64.sum_error (pivot_isFinite finiteW) (minor_isModerate moderate) ratioFinite
    ratioLe (ratio_error finiteW nonzero) isFinite
  have minorLe := mul_le_mul_of_nonneg_left (abs_minor_toRat_le finiteW) Binary64.unitRoundoff_pos.le
  rw [← pivot_exact finiteW, ← minor_exact finiteW] at error minorLe
  rw [← pivot_exact finiteW] at below ⊢
  refine ⟨isFinite, below, error.trans ?_⟩
  linarith

end

theorem numerator_error (left : z.IsModerate) (right : w.IsModerate) (nonzero : w.exact ≠ 0) :
    (z.numerator w).isFinite ∧
      |(z.numerator w).exact.re - (z.exact.numerator w.exact).re| ≤
        3 * unitRoundoff * (|z.exact.re| + |z.exact.im|) ∧
      |(z.numerator w).exact.im - (z.exact.numerator w.exact).im| ≤
        3 * unitRoundoff * (|z.exact.re| + |z.exact.im|) := by
  have finiteW := isFinite_of_isModerate right
  obtain ⟨ratioFinite, ratioLe⟩ := ratio_in_range finiteW nonzero
  have small : |z.re.toRat| + |z.im.toRat| ≤ largest.toRat := by
    have large := Binary64.le_largest
    linarith [left.1.abs_le, left.2.abs_le]
  have isFinite := numerator_isFinite (isFinite_of_isModerate left) finiteW nonzero small
  have ratioError := ratio_error finiteW nonzero
  have negAdded := Binary64.sum_error left.2.1 left.1.neg ratioFinite ratioLe ratioError
  have addedToNeg := Binary64.sum_error left.1.neg.1 left.2 ratioFinite ratioLe ratioError
  rw [Binary64.toRat_neg, abs_neg] at negAdded addedToNeg
  refine ⟨isFinite, ?_⟩
  rw [isFinite_iff, numerator_eq_sums] at isFinite
  rw [numerator_eq_sums, Exact.numerator_eq_sums, ← absLt_exact finiteW]
  cases nearer : CompareAbs.absLt w.im w.re with
  | true =>
    simp only [nearer, if_true] at isFinite ⊢
    refine ⟨Binary64.sum_error left.1.1 left.2 ratioFinite ratioLe ratioError isFinite.1, ?_⟩
    rw [add_comm |z.exact.re|]
    exact negAdded isFinite.2
  | false =>
    simp only [nearer, Bool.false_eq_true, if_false] at isFinite ⊢
    refine ⟨?_, addedToNeg isFinite.2⟩
    rw [add_comm |z.exact.re|]
    exact Binary64.sum_error left.2.1 left.1 ratioFinite ratioLe ratioError isFinite.1

def quotientSize (z w : Complex Rat) : Rat :=
  (|z.re| + |z.im|) / |w.pivot|

theorem quotientSize_le (left : z.IsModerate) (right : w.IsModerate) (nonzero : w.exact ≠ 0) :
    2 * quotientSize z.exact w.exact ≤ largest.toRat := by
  have finiteW := isFinite_of_isModerate right
  have sizeLe : |z.exact.re| + |z.exact.im| ≤ 10 ^ 50 + 10 ^ 50 :=
    add_le_add left.1.abs_le left.2.abs_le
  have lePivot : 1 / 10 ^ 50 ≤ |w.exact.pivot| := by
    rw [pivot_exact finiteW]
    exact (pivot_isModerate right).le_abs (pivot_toRat_ne_zero finiteW nonzero)
  calc 2 * quotientSize z.exact w.exact
      ≤ 2 * ((10 ^ 50 + 10 ^ 50) / (1 / 10 ^ 50)) :=
        mul_le_mul_of_nonneg_left (div_le_div₀ (by positivity) sizeLe (by positivity) lePivot)
          two_pos.le
    _ ≤ 10 ^ 102 := by norm_num
    _ ≤ largest.toRat := Binary64.le_largest

theorem le_quotientSize (left : z.IsModerate) (right : w.IsModerate) (nonzero : w.exact ≠ 0)
    (sizeNe : |z.exact.re| + |z.exact.im| ≠ 0) : leastNormal ≤ quotientSize z.exact w.exact := by
  have finiteW := isFinite_of_isModerate right
  have leSize : 1 / 10 ^ 50 ≤ |z.exact.re| + |z.exact.im| := by
    by_cases zero : z.re.toRat = 0
    · have imNe : z.im.toRat ≠ 0 := by
        intro imZero
        exact sizeNe (by simp [exact, map, zero, imZero])
      exact (left.2.le_abs imNe).trans (le_add_of_nonneg_left (abs_nonneg _))
    · exact (left.1.le_abs zero).trans (le_add_of_nonneg_right (abs_nonneg _))
  have pivotLe : |w.exact.pivot| ≤ 10 ^ 50 := by
    rw [pivot_exact finiteW]
    exact (pivot_isModerate right).abs_le
  calc leastNormal ≤ 1 / 10 ^ 100 := Binary64.leastNormal_le
    _ = 1 / 10 ^ 50 / 10 ^ 50 := by norm_num
    _ ≤ quotientSize z.exact w.exact :=
      div_le_div₀ (by positivity) leSize (abs_pos.2 (Exact.pivot_ne_zero nonzero)) pivotLe

theorem div_parts_error (left : z.IsModerate) (right : w.IsModerate) (nonzero : w.exact ≠ 0) :
    (z / w).isFinite ∧
      |(z / w).exact.re - (z.exact / w.exact).re| ≤
        11 * unitRoundoff * quotientSize z.exact w.exact ∧
      |(z / w).exact.im - (z.exact / w.exact).im| ≤
        11 * unitRoundoff * quotientSize z.exact w.exact := by
  have finiteW := isFinite_of_isModerate right
  obtain ⟨numeratorFinite, reError, imError⟩ := numerator_error left right nonzero
  obtain ⟨denominatorFinite, below, denominatorError⟩ := denominator_error right nonzero
  obtain ⟨reLe, imLe⟩ := Exact.abs_numerator_le z.exact w.exact
  have exactBelow := Exact.abs_pivot_le nonzero
  have pivotPos := abs_pos.2 (Exact.pivot_ne_zero nonzero)
  rw [← pivot_exact finiteW] at below denominatorError
  have normal := le_quotientSize left right nonzero
  have small := quotientSize_le left right nonzero
  obtain ⟨re, im⟩ := isFinite_iff.1 numeratorFinite
  obtain ⟨reFinite, reDivError⟩ := Binary64.quotient_error re denominatorFinite reError reLe
    denominatorError pivotPos below exactBelow normal small
  obtain ⟨imFinite, imDivError⟩ := Binary64.quotient_error im denominatorFinite imError imLe
    denominatorError pivotPos below exactBelow normal small
  rw [div_eq_map_numerator, div_eq_map_numerator]
  exact ⟨isFinite_iff.2 ⟨reFinite, imFinite⟩, reDivError, imDivError⟩

theorem sq_quotientSize_le (z : Complex Rat) {w : Complex Rat} (nonzero : w ≠ 0) :
    quotientSize z w ^ 2 ≤ 4 * (z / w).normSq := by
  have pivotPos : 0 < w.pivot ^ 2 := sq_pos_of_ne_zero (Exact.pivot_ne_zero nonzero)
  have product : (z / w).normSq * w.normSq = z.normSq := by
    rw [← Exact.normSq_mul, Exact.div_mul_cancel z nonzero]
  have sizeLe : (|z.re| + |z.im|) ^ 2 ≤ 2 * z.normSq := by
    have parts := add_sq_le (a := |z.re|) (b := |z.im|)
    rwa [sq_abs, sq_abs, pow_two z.re, pow_two z.im] at parts
  have normSqLe : w.normSq ≤ 2 * w.pivot ^ 2 := by
    have minorLe := sq_le_sq.2 (Exact.abs_minor_le w)
    rw [Exact.normSq_eq]
    linarith
  rw [quotientSize, div_pow, sq_abs, div_le_iff₀ pivotPos]
  calc (|z.re| + |z.im|) ^ 2 ≤ 2 * z.normSq := sizeLe
    _ = 2 * ((z / w).normSq * w.normSq) := by rw [product]
    _ ≤ 2 * ((z / w).normSq * (2 * w.pivot ^ 2)) := by
      gcongr
      exact Exact.normSq_nonneg _
    _ = 4 * (z / w).normSq * w.pivot ^ 2 := by ring

theorem normSq_div_sub_le (left : z.IsModerate) (right : w.IsModerate) (nonzero : w.exact ≠ 0) :
    ((z / w).exact - z.exact / w.exact).normSq ≤
      968 * unitRoundoff ^ 2 * (z.exact / w.exact).normSq := by
  obtain ⟨-, re, im⟩ := div_parts_error left right nonzero
  rw [sub_eq_add_neg] at re im
  have sizeLe := mul_le_mul_of_nonneg_left (sq_quotientSize_le z.exact nonzero)
    (sq_nonneg unitRoundoff)
  refine (sq_add_sq_le re im).trans ?_
  linarith

/-! ## Distances -/

noncomputable def toComplex (z : Complex Rat) : ℂ :=
  ⟨z.re, z.im⟩

theorem toComplex_mul (x y : Complex Rat) : toComplex (x * y) = toComplex x * toComplex y := by
  apply Complex.ext
  · change ((x.re * y.re - x.im * y.im : Rat) : ℝ) = x.re * y.re - x.im * y.im
    push_cast
    rfl
  · change ((x.im * y.re + x.re * y.im : Rat) : ℝ) = x.re * y.im + x.im * y.re
    push_cast
    exact add_comm _ _

theorem toComplex_sub (x y : Complex Rat) : toComplex (x - y) = toComplex x - toComplex y := by
  apply Complex.ext
  · change ((x.re + -y.re : Rat) : ℝ) = x.re - y.re
    push_cast
    exact (sub_eq_add_neg _ _).symm
  · change ((x.im + -y.im : Rat) : ℝ) = x.im - y.im
    push_cast
    exact (sub_eq_add_neg _ _).symm

theorem sq_norm_toComplex (x : Complex Rat) : ‖toComplex x‖ ^ 2 = x.normSq := by
  rw [Complex.sq_norm, Complex.normSq_apply]
  simp only [toComplex, normSq]
  push_cast
  rfl

theorem toComplex_div (x : Complex Rat) {y : Complex Rat} (nonzero : y ≠ 0) :
    toComplex (x / y) = toComplex x / toComplex y := by
  have toComplexNe : toComplex y ≠ 0 := by
    intro zero
    have norm := sq_norm_toComplex y
    rw [zero, norm_zero, zero_pow two_ne_zero, eq_comm, Rat.cast_eq_zero] at norm
    exact Exact.normSq_ne_zero nonzero norm
  rw [eq_div_iff toComplexNe, ← toComplex_mul, Exact.div_mul_cancel x nonzero]

theorem norm_toComplex_sub_le {x y : Complex Rat} {k : Rat} (kLe : k ≤ 1000)
    (le : (x - y).normSq ≤ k * unitRoundoff ^ 2 * y.normSq) :
    ‖toComplex x - toComplex y‖ ≤ 1 / 10 ^ 12 * ‖toComplex y‖ := by
  have factorLe : k * unitRoundoff ^ 2 ≤ (1 / 10 ^ 12) ^ 2 :=
    calc k * unitRoundoff ^ 2 ≤ 1000 * (1 / 10 ^ 15) ^ 2 := by
          gcongr
          · exact Binary64.unitRoundoff_pos.le
          · exact Binary64.unitRoundoff_le
      _ ≤ (1 / 10 ^ 12) ^ 2 := by norm_num
  have squares : ‖toComplex x - toComplex y‖ ^ 2 ≤ (1 / 10 ^ 12 * ‖toComplex y‖) ^ 2 := by
    rw [mul_pow, ← toComplex_sub, sq_norm_toComplex, sq_norm_toComplex]
    calc ((x - y).normSq : ℝ) ≤ ((1 / 10 ^ 12) ^ 2 * y.normSq : Rat) :=
          Rat.cast_le.2 (le.trans (mul_le_mul_of_nonneg_right factorLe (Exact.normSq_nonneg y)))
      _ = (1 / 10 ^ 12) ^ 2 * y.normSq := by push_cast; rfl
  exact (sq_le_sq₀ (norm_nonneg _) (by positivity)).1 squares

theorem mul_and_div_accurate (z w : Value) (left : z.IsModerate) (right : w.IsModerate) :
    ((z * w).isFinite ∧
      ‖toComplex (z * w).exact - toComplex z.exact * toComplex w.exact‖ ≤
        1 / 10 ^ 12 * ‖toComplex z.exact * toComplex w.exact‖) ∧
    (w.exact ≠ 0 → (z / w).isFinite ∧
      ‖toComplex (z / w).exact - toComplex z.exact / toComplex w.exact‖ ≤
        1 / 10 ^ 12 * ‖toComplex z.exact / toComplex w.exact‖) := by
  constructor
  · rw [← toComplex_mul]
    exact ⟨(mul_parts_error left right).1,
      norm_toComplex_sub_le (by norm_num) (normSq_mul_sub_le left right)⟩
  · intro nonzero
    rw [← toComplex_div _ nonzero]
    exact ⟨(div_parts_error left right nonzero).1,
      norm_toComplex_sub_le (by norm_num) (normSq_div_sub_le left right nonzero)⟩

theorem mul_and_div_accurate_with_part_lost :
    let z : Value := ⟨Binary64.ofRatio 1 3, Binary64.ofRatio 1 7⟩
    let w : Value := ⟨Binary64.ofRatio 3 7, 1⟩
    (z.IsModerate ∧ w.IsModerate ∧ w.conj.IsModerate ∧ w.conj.exact ≠ 0) ∧
    ((z * w).re = 0 ∧ (z.exact * w.exact).re ≠ 0 ∧
      ‖toComplex (z * w).exact - toComplex z.exact * toComplex w.exact‖ ≤
        1 / 10 ^ 12 * ‖toComplex z.exact * toComplex w.exact‖) ∧
    ((z / w.conj).re = -0 ∧ (z.exact / w.conj.exact).re ≠ 0 ∧
      ‖toComplex (z / w.conj).exact - toComplex z.exact / toComplex w.conj.exact‖ ≤
        1 / 10 ^ 12 * ‖toComplex z.exact / toComplex w.conj.exact‖) := by
  intro z w
  have left : z.IsModerate := by decide +kernel
  have right : w.IsModerate := by decide +kernel
  have divisor : w.conj.IsModerate := by decide +kernel
  have nonzero : w.conj.exact ≠ 0 := by decide +kernel
  obtain ⟨⟨-, product⟩, -⟩ := mul_and_div_accurate z w left right
  obtain ⟨-, byDivisor⟩ := mul_and_div_accurate z w.conj left divisor
  exact ⟨⟨left, right, divisor, nonzero⟩,
    ⟨by decide +kernel, by decide +kernel, product⟩,
    ⟨by decide +kernel, by decide +kernel, (byDivisor nonzero).2⟩⟩

end Complex

end ComplexFormula

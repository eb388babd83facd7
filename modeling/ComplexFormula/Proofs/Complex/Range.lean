import ComplexFormula.Proofs.Binary64.Rational
import ComplexFormula.Proofs.Complex.Exact

namespace ComplexFormula

namespace Binary64

def largestUnits : Nat :=
  (2 ^ significandBits - 1) * 2 ^ (magnitudeBits - significandBits)

theorem isMagnitude_largestUnits : IsMagnitude largestUnits where
  lt_limit := by
    calc largestUnits
        < 2 ^ significandBits * 2 ^ (magnitudeBits - significandBits) :=
          Nat.mul_lt_mul_of_pos_right (by decide) (Nat.two_pow_pos _)
      _ = 2 ^ magnitudeBits := by rw [← Nat.pow_add, Nat.add_sub_cancel' (by decide)]
  fitsBits := ⟨_, _, by decide, rfl⟩

def largest : Binary64 :=
  finite false largestUnits isMagnitude_largestUnits

attribute [local irreducible] unitsPerOne unitsLimit largestUnits

theorem isFinite_largest : largest.isFinite := rfl

theorem toRat_largest : largest.toRat = largestUnits / unitsPerOne := rfl

theorem largest_nonneg : 0 ≤ largest.toRat :=
  div_nonneg (Nat.cast_nonneg _) unitsPerOne_cast_pos.le

theorem exists_double {x : Binary64} (isFinite : x.isFinite) (le : |x.toRat| ≤ largest.toRat / 2) :
    ∃ d : Binary64, d.isFinite ∧ d.toRat = 2 * x.toRat := by
  obtain ⟨negative, units, isMagnitude, rfl⟩ := exists_eq_finite isFinite
  have doubleLe : units * 2 ≤ largestUnits := by
    rw [abs_toRat_finite, toRat_largest, le_div_iff₀ two_pos, ← mul_div_right_comm,
      div_le_div_iff_of_pos_right unitsPerOne_cast_pos] at le
    exact_mod_cast le
  have double : IsMagnitude (units * 2) :=
    ⟨doubleLe.trans_lt isMagnitude_largestUnits.lt_limit, fitsBits_mul_two isMagnitude.fitsBits⟩
  refine ⟨finite negative (units * 2) double, rfl, ?_⟩
  rw [toRat_finite, toRat_finite, withSign_mul]
  push_cast
  ring

theorem mul_in_range {x ratio : Binary64} (finiteX : x.isFinite) (ratioFinite : ratio.isFinite)
    (ratioLe : |ratio.toRat| ≤ 1) :
    (x * ratio).isFinite ∧ |(x * ratio).toRat| ≤ |x.toRat| := by
  apply (rounds_mul finiteX ratioFinite).abs_le finiteX
  rw [abs_mul]
  exact mul_le_of_le_one_right (abs_nonneg _) ratioLe

theorem sum_in_range {x y ratio bound : Binary64} (finiteX : x.isFinite) (finiteY : y.isFinite)
    (ratioFinite : ratio.isFinite) (ratioLe : |ratio.toRat| ≤ 1) (boundFinite : bound.isFinite)
    (small : |x.toRat| + |y.toRat| ≤ |bound.toRat|) :
    (x + y * ratio).isFinite ∧ |(x + y * ratio).toRat| ≤ |bound.toRat| := by
  obtain ⟨productFinite, productLe⟩ := mul_in_range finiteY ratioFinite ratioLe
  apply (rounds_add finiteX productFinite).abs_le boundFinite
  calc |x.toRat + (y * ratio).toRat| ≤ |x.toRat| + |(y * ratio).toRat| := abs_add_le _ _
    _ ≤ |x.toRat| + |y.toRat| := add_le_add_right productLe _
    _ ≤ |bound.toRat| := small

end Binary64

namespace Complex

open Binary64 (toRat largest unitRoundoff rounds_add rounds_mul rounds_div)

def exact (z : Value) : Complex Rat :=
  z.map toRat

variable {z w : Value}

theorem isFinite_iff : z.isFinite ↔ z.re.isFinite ∧ z.im.isFinite := by
  simp only [isFinite, Bool.and_eq_true]

section

variable (finiteW : w.isFinite)

include finiteW

theorem absLt_exact : CompareAbs.absLt w.im w.re = CompareAbs.absLt w.exact.im w.exact.re := by
  obtain ⟨re, im⟩ := isFinite_iff.1 finiteW
  change decide (w.im.abs < w.re.abs) = decide (|w.im.toRat| < |w.re.toRat|)
  rw [decide_eq_decide]
  exact Binary64.abs_lt_abs_iff im re

theorem pivot_exact : w.exact.pivot = w.pivot.toRat := by
  rw [pivot, pivot, absLt_exact finiteW]
  exact (apply_ite toRat _ _ _).symm

theorem minor_exact : w.exact.minor = w.minor.toRat := by
  rw [minor, minor, absLt_exact finiteW]
  exact (apply_ite toRat _ _ _).symm

theorem ratio_exact : w.exact.ratio = w.minor.toRat / w.pivot.toRat := by
  rw [ratio, pivot_exact finiteW, minor_exact finiteW]

theorem pivot_isFinite : w.pivot.isFinite := by
  obtain ⟨re, im⟩ := isFinite_iff.1 finiteW
  unfold pivot
  split
  · exact re
  · exact im

theorem minor_isFinite : w.minor.isFinite := by
  obtain ⟨re, im⟩ := isFinite_iff.1 finiteW
  unfold minor
  split
  · exact im
  · exact re

theorem abs_minor_toRat_le : |w.minor.toRat| ≤ |w.pivot.toRat| := by
  rw [← pivot_exact finiteW, ← minor_exact finiteW]
  exact Exact.abs_minor_le w.exact

theorem pivot_toRat_ne_zero (nonzero : w.exact ≠ 0) : w.pivot.toRat ≠ 0 := by
  rw [← pivot_exact finiteW]
  exact Exact.pivot_ne_zero nonzero

theorem rounds_ratio (nonzero : w.exact ≠ 0) :
    w.ratio.Rounds (w.minor.toRat / w.pivot.toRat) :=
  rounds_div (minor_isFinite finiteW) (pivot_isFinite finiteW) (pivot_toRat_ne_zero finiteW nonzero)

theorem ratio_in_range (nonzero : w.exact ≠ 0) : w.ratio.isFinite ∧ |w.ratio.toRat| ≤ 1 := by
  have quotientLe : |w.minor.toRat / w.pivot.toRat| ≤ |(1 : Binary64).toRat| := by
    rw [Binary64.toRat_one, abs_one, abs_div]
    exact div_le_one_of_le₀ (abs_minor_toRat_le finiteW) (abs_nonneg _)
  have bound := (rounds_ratio finiteW nonzero).abs_le rfl quotientLe
  rwa [Binary64.toRat_one, abs_one] at bound

theorem term_in_range (nonzero : w.exact ≠ 0) :
    (w.minor * w.ratio).isFinite ∧ |(w.minor * w.ratio).toRat| ≤ |w.pivot.toRat| ∧
      0 ≤ (w.minor * w.ratio).toRat * w.pivot.toRat := by
  obtain ⟨ratioFinite, ratioLe⟩ := ratio_in_range finiteW nonzero
  have minorFinite := minor_isFinite finiteW
  obtain ⟨isFinite, le⟩ := Binary64.mul_in_range minorFinite ratioFinite ratioLe
  refine ⟨isFinite, le.trans (abs_minor_toRat_le finiteW),
    (rounds_mul minorFinite ratioFinite).same_side ?_⟩
  have pivotNe := pivot_toRat_ne_zero finiteW nonzero
  -- The other part enters twice, so the term has the sign of the pivot.
  have square : 0 ≤ w.minor.toRat / w.pivot.toRat * (w.minor.toRat * w.pivot.toRat) :=
    calc 0 ≤ w.minor.toRat * w.minor.toRat := mul_self_nonneg _
      _ = _ := by field_simp
  calc 0 ≤ w.ratio.toRat * (w.minor.toRat * w.pivot.toRat) :=
        (rounds_ratio finiteW nonzero).same_side square
    _ = w.minor.toRat * w.ratio.toRat * w.pivot.toRat := by ring

theorem ratio_error (nonzero : w.exact ≠ 0) : |w.ratio.toRat - w.exact.ratio| ≤ unitRoundoff := by
  have rounds := rounds_ratio finiteW nonzero
  rw [← ratio_exact finiteW] at rounds
  have isFinite := (ratio_in_range finiteW nonzero).1
  have error := rounds.error_le isFinite (Exact.abs_ratio_le_one w.exact) fun _ =>
    Binary64.leastNormal_le.trans (by norm_num)
  rwa [mul_one] at error

theorem rounds_denominator (nonzero : w.exact ≠ 0) :
    w.denominator.Rounds (w.pivot.toRat + (w.minor * w.ratio).toRat) :=
  rounds_add (pivot_isFinite finiteW) (term_in_range finiteW nonzero).1

theorem abs_pivot_le_denominator (nonzero : w.exact ≠ 0) (isFinite : w.denominator.isFinite) :
    |w.pivot.toRat| ≤ |w.denominator.toRat| := by
  obtain ⟨-, -, sameSide⟩ := term_in_range finiteW nonzero
  apply (rounds_denominator finiteW nonzero).le_abs isFinite (pivot_isFinite finiteW)
  apply sq_le_sq.1
  nlinarith [sq_nonneg (w.minor * w.ratio).toRat]

theorem denominator_in_range (nonzero : w.exact ≠ 0) (small : |w.pivot.toRat| ≤ largest.toRat / 2) :
    w.denominator.isFinite ∧ |w.pivot.toRat| ≤ |w.denominator.toRat| ∧
      |w.denominator.toRat| ≤ 2 * |w.pivot.toRat| := by
  obtain ⟨-, termLe, -⟩ := term_in_range finiteW nonzero
  have above : |w.pivot.toRat + (w.minor * w.ratio).toRat| ≤ 2 * |w.pivot.toRat| := by
    have triangle := abs_add_le w.pivot.toRat (w.minor * w.ratio).toRat
    linarith
  obtain ⟨double, doubleFinite, doubleEq⟩ :=
    Binary64.exists_double (pivot_isFinite finiteW) small
  have doubleAbs : |double.toRat| = 2 * |w.pivot.toRat| := by
    rw [doubleEq, abs_mul, abs_two]
  obtain ⟨isFinite, le⟩ := (rounds_denominator finiteW nonzero).abs_le doubleFinite
    (above.trans_eq doubleAbs.symm)
  exact ⟨isFinite, abs_pivot_le_denominator finiteW nonzero isFinite, le.trans_eq doubleAbs⟩

end

theorem numerator_eq_sums (z w : Value) : z.numerator w =
    if CompareAbs.absLt w.im w.re then ⟨z.re + z.im * w.ratio, z.im + -z.re * w.ratio⟩
    else ⟨z.im + z.re * w.ratio, -z.re + z.im * w.ratio⟩ := by
  unfold numerator
  split
  · rw [Binary64.sub_eq_add_neg, Binary64.neg_mul]
  · rw [Binary64.sub_eq_add_neg, Binary64.add_comm, Binary64.add_comm (-z.re)]

theorem numerator_in_range {bound : Binary64} (finiteZ : z.isFinite) (finiteW : w.isFinite)
    (nonzero : w.exact ≠ 0) (boundFinite : bound.isFinite)
    (small : |z.re.toRat| + |z.im.toRat| ≤ |bound.toRat|) :
    ((z.numerator w).re.isFinite ∧ |(z.numerator w).re.toRat| ≤ |bound.toRat|) ∧
      (z.numerator w).im.isFinite ∧ |(z.numerator w).im.toRat| ≤ |bound.toRat| := by
  obtain ⟨re, im⟩ := isFinite_iff.1 finiteZ
  obtain ⟨ratioFinite, ratioLe⟩ := ratio_in_range finiteW nonzero
  have negFinite : (-z.re).isFinite := by rwa [Binary64.isFinite_neg]
  have swapped : |z.im.toRat| + |z.re.toRat| ≤ |bound.toRat| := by rwa [add_comm]
  have negAbs : |(-z.re).toRat| = |z.re.toRat| := by rw [Binary64.toRat_neg, abs_neg]
  rw [numerator_eq_sums]
  split
  · exact ⟨Binary64.sum_in_range re im ratioFinite ratioLe boundFinite small,
      Binary64.sum_in_range im negFinite ratioFinite ratioLe boundFinite (by rwa [negAbs])⟩
  · exact ⟨Binary64.sum_in_range im re ratioFinite ratioLe boundFinite swapped,
      Binary64.sum_in_range negFinite im ratioFinite ratioLe boundFinite (by rwa [negAbs])⟩

theorem numerator_isFinite (finiteZ : z.isFinite) (finiteW : w.isFinite) (nonzero : w.exact ≠ 0)
    (small : |z.re.toRat| + |z.im.toRat| ≤ largest.toRat) : (z.numerator w).isFinite := by
  obtain ⟨⟨re, -⟩, im, -⟩ := numerator_in_range finiteZ finiteW nonzero Binary64.isFinite_largest
    (small.trans (le_abs_self _))
  exact isFinite_iff.2 ⟨re, im⟩

theorem max_abs_toRat (finiteW : w.isFinite) :
    max |w.re.toRat| |w.im.toRat| = |w.pivot.toRat| := by
  rw [← pivot_exact finiteW]
  exact Exact.max_abs w.exact

theorem div_in_range (z w : Value) (finiteZ : z.isFinite) (finiteW : w.isFinite)
    (nonzero : w.exact ≠ 0)
    (smallZ : max |z.re.toRat| |z.im.toRat| ≤ largest.toRat / 2)
    (smallW : max |w.re.toRat| |w.im.toRat| ≤ largest.toRat / 2) :
    z / w = (z.numerator w).map (· / w.denominator) ∧
      (w.ratio.isFinite ∧ |w.ratio.toRat| ≤ 1) ∧
      (w.denominator.isFinite ∧ max |w.re.toRat| |w.im.toRat| ≤ |w.denominator.toRat| ∧
        |w.denominator.toRat| ≤ 2 * max |w.re.toRat| |w.im.toRat|) ∧
      (z.numerator w).isFinite ∧ (z / w).isNaN = false := by
  obtain ⟨reLe, imLe⟩ := max_le_iff.1 smallZ
  rw [max_abs_toRat finiteW] at smallW ⊢
  obtain ⟨denominatorFinite, below, above⟩ := denominator_in_range finiteW nonzero smallW
  have numeratorFinite := numerator_isFinite finiteZ finiteW nonzero (by linarith)
  refine ⟨div_eq_map_numerator z w, ratio_in_range finiteW nonzero,
    ⟨denominatorFinite, below, above⟩, numeratorFinite, ?_⟩
  have denominatorNe : w.denominator.toRat ≠ 0 :=
    abs_pos.1 ((abs_pos.2 (pivot_toRat_ne_zero finiteW nonzero)).trans_le below)
  obtain ⟨re, im⟩ := isFinite_iff.1 numeratorFinite
  rw [div_eq_map_numerator, isNaN, Bool.or_eq_false_iff]
  exact ⟨Binary64.isNaN_div_eq_false re denominatorFinite denominatorNe,
    Binary64.isNaN_div_eq_false im denominatorFinite denominatorNe⟩

theorem div_in_range_at_limit :
    let half := largest / (1 + 1)
    let z : Value := ⟨half, -half⟩
    let w : Value := ⟨-half, half⟩
    (z.isFinite ∧ w.isFinite ∧ w.exact ≠ 0 ∧
      max |z.re.toRat| |z.im.toRat| ≤ largest.toRat / 2 ∧
      max |w.re.toRat| |w.im.toRat| ≤ largest.toRat / 2) ∧
    w.denominator = largest ∧ |w.denominator.toRat| ≤ 2 * max |w.re.toRat| |w.im.toRat| ∧
      (z.numerator w).isFinite ∧ (z / w).isNaN = false := by
  intro half z w
  have finiteZ : z.isFinite := by decide +kernel
  have finiteW : w.isFinite := by decide +kernel
  have nonzero : w.exact ≠ 0 := by decide +kernel
  have smallZ : max |z.re.toRat| |z.im.toRat| ≤ largest.toRat / 2 := by decide +kernel
  have smallW : max |w.re.toRat| |w.im.toRat| ≤ largest.toRat / 2 := by decide +kernel
  obtain ⟨-, -, ⟨-, -, above⟩, numerators, notNaN⟩ :=
    div_in_range z w finiteZ finiteW nonzero smallZ smallW
  exact ⟨⟨finiteZ, finiteW, nonzero, smallZ, smallW⟩, by decide +kernel, above, numerators, notNaN⟩

end Complex

end ComplexFormula

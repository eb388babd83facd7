import ComplexFormula.Proofs.Complex.Tolerance

namespace ComplexFormula

namespace Binary64

-- Their values, of hundreds of digits, are never needed.
attribute [local irreducible] unitsPerOne unitsLimit

variable {x : Binary64}

theorem div_self_eq_one (isFinite : x.isFinite) (nonzero : x.toRat ≠ 0) : x / x = 1 := by
  obtain ⟨negative, units, isMagnitude, rfl⟩ := exists_eq_finite isFinite
  have unitsNe := units_ne_zero nonzero
  rw [finite_div_finite, if_neg unitsNe, Bool.xor_self, Nat.mul_comm,
    ofUnits_of_isMagnitude false isMagnitude_unitsPerOne (Nat.pos_of_ne_zero unitsNe)]
  rfl

theorem div_self_eq_nan (notFinite : x.isFinite = false) : x / x = nan := by
  cases x with
  | nan | infinite _ => rfl
  | finite _ _ _ => contradiction

end Binary64

namespace Complex

open Binary64 (toRat largest unitRoundoff)

variable {z : Value}

theorem exists_four_roundoffs : ∃ bound : Binary64, bound.isFinite ∧
    |bound.toRat| = 4 * unitRoundoff ∧ bound.abs < epsilon :=
  ⟨.ofRatio 1 (2 ^ 51), by decide +kernel, by decide +kernel, by decide +kernel⟩

theorem re_numerator_self (z : Value) : (z.numerator z).re = z.denominator := by
  cases nearer : CompareAbs.absLt z.im z.re with
  | true => rw [numerator_of_absLt z nearer, denominator_of_absLt nearer]
  | false =>
    rw [numerator_of_not_absLt z nearer, denominator_of_not_absLt nearer]
    exact Binary64.add_comm _ _

theorem abs_im_numerator_self (z : Value) :
    (z.numerator z).im.abs = (z.pivot * z.ratio - z.minor).abs := by
  cases nearer : CompareAbs.absLt z.im z.re with
  | true =>
    simp only [numerator_of_absLt z nearer, pivot, minor, nearer, if_true]
    exact Binary64.abs_sub_comm _ _
  | false =>
    simp only [numerator_of_not_absLt z nearer, pivot, minor, nearer, Bool.false_eq_true, if_false]

section

variable (finiteZ : z.isFinite) (nonzero : z.exact ≠ 0)

include finiteZ nonzero

theorem pivot_mul_ratio_error : (z.pivot * z.ratio).isFinite ∧
    |(z.pivot * z.ratio).toRat - z.minor.toRat| ≤ 2 * unitRoundoff * |z.pivot.toRat| := by
  have pivotFinite := pivot_isFinite finiteZ
  have pivotNe := pivot_toRat_ne_zero finiteZ nonzero
  obtain ⟨ratioFinite, ratioLe⟩ := ratio_in_range finiteZ nonzero
  obtain ⟨isFinite, -⟩ := Binary64.mul_in_range pivotFinite ratioFinite ratioLe
  have exactError : |z.minor.toRat - z.pivot.toRat * z.ratio.toRat| ≤
      unitRoundoff * |z.pivot.toRat| := by
    have factored : z.minor.toRat - z.pivot.toRat * z.ratio.toRat =
        (z.exact.ratio - z.ratio.toRat) * z.pivot.toRat := by
      rw [ratio_exact finiteZ]
      field_simp
    rw [factored, abs_mul, abs_sub_comm]
    exact mul_le_mul_of_nonneg_right (ratio_error finiteZ nonzero) (abs_nonneg _)
  -- The other part is a number of the format, so the rounded product is as near to the exact one.
  have nearest := (Binary64.rounds_mul pivotFinite ratioFinite).nearest isFinite
    (minor_isFinite finiteZ)
  refine ⟨isFinite, ?_⟩
  calc |(z.pivot * z.ratio).toRat - z.minor.toRat|
      ≤ |(z.pivot * z.ratio).toRat - z.pivot.toRat * z.ratio.toRat| +
          |z.minor.toRat - z.pivot.toRat * z.ratio.toRat| := by
        rw [abs_sub_comm z.minor.toRat]
        exact abs_sub_le _ _ _
    _ ≤ unitRoundoff * |z.pivot.toRat| + unitRoundoff * |z.pivot.toRat| :=
        add_le_add (nearest.trans exactError) exactError
    _ = 2 * unitRoundoff * |z.pivot.toRat| := by ring

theorem im_numerator_self_le : (z.numerator z).im.isFinite ∧
    |(z.numerator z).im.toRat| ≤ 4 * unitRoundoff * |z.pivot.toRat| := by
  obtain ⟨productFinite, productError⟩ := pivot_mul_ratio_error finiteZ nonzero
  have minorFinite := minor_isFinite finiteZ
  have pivotNonneg := abs_nonneg z.pivot.toRat
  have small := Binary64.unitRoundoff_le
  have inRange : |(z.pivot * z.ratio).toRat - z.minor.toRat| ≤ |z.pivot.toRat| :=
    productError.trans (mul_le_of_le_one_left pivotNonneg (by linarith))
  have isFinite := ((Binary64.rounds_sub productFinite minorFinite).abs_le
    (pivot_isFinite finiteZ) inRange).1
  have rounding := Binary64.sub_error productFinite minorFinite isFinite
  rw [← Binary64.isFinite_abs, ← Binary64.toRat_abs, abs_im_numerator_self, Binary64.isFinite_abs,
    Binary64.toRat_abs]
  refine ⟨isFinite, ?_⟩
  calc |(z.pivot * z.ratio - z.minor).toRat|
      ≤ |(z.pivot * z.ratio - z.minor).toRat - ((z.pivot * z.ratio).toRat - z.minor.toRat)| +
          |(z.pivot * z.ratio).toRat - z.minor.toRat| := by
        rw [← sub_le_iff_le_add]
        exact abs_sub_abs_le_abs_sub _ _
    _ ≤ 1 * |(z.pivot * z.ratio).toRat - z.minor.toRat| +
          |(z.pivot * z.ratio).toRat - z.minor.toRat| :=
        add_le_add_left (rounding.trans
          (mul_le_mul_of_nonneg_right (by linarith) (abs_nonneg _))) _
    _ ≤ 4 * unitRoundoff * |z.pivot.toRat| := by linarith

theorem div_self_parts (denominatorFinite : z.denominator.isFinite) :
    (z / z).re = 1 ∧ (z / z).im.isFinite ∧ |(z / z).im.toRat| ≤ 4 * unitRoundoff := by
  have below := abs_pivot_le_denominator finiteZ nonzero denominatorFinite
  have pivotPos := abs_pos.2 (pivot_toRat_ne_zero finiteZ nonzero)
  have denominatorNe := abs_pos.1 (pivotPos.trans_le below)
  obtain ⟨numeratorFinite, numeratorLe⟩ := im_numerator_self_le finiteZ nonzero
  have quotientLe : |(z.numerator z).im.toRat / z.denominator.toRat| ≤ 4 * unitRoundoff := by
    rw [abs_div, div_le_iff₀ (pivotPos.trans_le below)]
    have roundoffsNonneg : 0 ≤ 4 * unitRoundoff := by linarith [Binary64.unitRoundoff_pos]
    exact numeratorLe.trans (mul_le_mul_of_nonneg_left below roundoffsNonneg)
  obtain ⟨bound, boundFinite, boundEq, -⟩ := exists_four_roundoffs
  rw [← boundEq] at quotientLe ⊢
  rw [div_eq_map_numerator]
  refine ⟨?_, (Binary64.rounds_div numeratorFinite denominatorFinite denominatorNe).abs_le
    boundFinite quotientLe⟩
  change (z.numerator z).re / z.denominator = 1
  rw [re_numerator_self]
  exact Binary64.div_self_eq_one denominatorFinite denominatorNe

end

theorem re_div_self_eq_nan (overflow : z.denominator.isFinite = false) : (z / z).re = .nan := by
  rw [div_eq_map_numerator]
  change (z.numerator z).re / z.denominator = .nan
  rw [re_numerator_self]
  exact Binary64.div_self_eq_nan overflow

theorem not_close_of_re_eq_nan {w : Value} (nan : z.re = .nan) : ¬ z.Close w := by
  intro close
  have less := close.1
  rw [nan] at less
  exact Binary64.not_nan_lt _ less

theorem div_self_close_iff (z : Value) (finiteZ : z.isFinite) (nonzero : z.exact ≠ 0) :
    ((z / z).Close 1 ↔ z.denominator.isFinite) ∧
    (z.denominator.isFinite → (z / z).re = 1 ∧ |(z / z).im.toRat| ≤ 4 * unitRoundoff) ∧
    (z.denominator.isFinite = false → (z / z).re = .nan) ∧
    (max |z.re.toRat| |z.im.toRat| ≤ largest.toRat / 2 → (z / z).Close 1) := by
  have close (denominatorFinite : z.denominator.isFinite) : (z / z).Close 1 := by
    obtain ⟨re, imFinite, imLe⟩ := div_self_parts finiteZ nonzero denominatorFinite
    obtain ⟨bound, boundFinite, boundEq, boundLt⟩ := exists_four_roundoffs
    refine ⟨?_, Binary64.abs_sub_lt_of_abs_le imFinite rfl boundFinite ?_ boundLt⟩
    · rw [re]
      exact Binary64.abs_sub_self_lt.2 ⟨rfl, zero_lt_epsilon⟩
    · change |(z / z).im.toRat - toRat 0| ≤ |bound.toRat|
      rwa [Binary64.toRat_zero, sub_zero, boundEq]
  refine ⟨⟨fun isClose => ?_, close⟩, ?_, re_div_self_eq_nan, fun small => ?_⟩
  · by_contra overflow
    exact not_close_of_re_eq_nan (re_div_self_eq_nan (Bool.eq_false_of_not_eq_true overflow)) isClose
  · intro denominatorFinite
    obtain ⟨re, -, imLe⟩ := div_self_parts finiteZ nonzero denominatorFinite
    exact ⟨re, imLe⟩
  · rw [max_abs_toRat finiteZ] at small
    exact close (denominator_in_range finiteZ nonzero small).1

/-- The forty-ninth part of 49 is rounded to a number less than one, so the imaginary part of the
quotient is not zero. -/
theorem div_self_close_forty_nine :
    let z : Value := ⟨Binary64.ofRatio 49 1, 1⟩
    (z.isFinite ∧ z.exact ≠ 0) ∧ z.denominator.isFinite ∧ (z / z).Close 1 ∧
      (z / z).im.toRat ≠ 0 ∧ |(z / z).im.toRat| ≤ 4 * unitRoundoff := by
  intro z
  have finiteZ : z.isFinite := by decide +kernel
  have nonzero : z.exact ≠ 0 := by decide +kernel
  have denominatorFinite : z.denominator.isFinite := by decide +kernel
  obtain ⟨iff, parts, -, -⟩ := div_self_close_iff z finiteZ nonzero
  exact ⟨⟨finiteZ, nonzero⟩, denominatorFinite, iff.2 denominatorFinite, by decide +kernel,
    (parts denominatorFinite).2⟩

theorem div_self_of_overflow :
    let z : Value := ⟨largest, largest⟩
    (z.isFinite ∧ z.exact ≠ 0) ∧ ¬ (z / z).Close 1 ∧ z / z = ⟨.nan, 0⟩ := by
  decide +kernel

end Complex

end ComplexFormula

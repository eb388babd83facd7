import ComplexFormula.Proofs.Binary64.Order
import ComplexFormula.Proofs.Complex.Range

namespace ComplexFormula

namespace Binary64

-- Their values, of hundreds of digits, are never needed.
attribute [local irreducible] unitsPerOne unitsLimit largestUnits

variable {x y : Binary64}

theorem isFinite_div_of_abs_le (finiteX : x.isFinite) (finiteY : y.isFinite) (nonzero : y.toRat ≠ 0)
    (le : |x.toRat| ≤ largest.toRat * |y.toRat|) : (x / y).isFinite := by
  refine ((rounds_div finiteX finiteY nonzero).abs_le isFinite_largest ?_).1
  rw [abs_div, div_le_iff₀ (abs_pos.2 nonzero)]
  exact le.trans (mul_le_mul_of_nonneg_right (le_abs_self _) (abs_nonneg _))

theorem div_of_isZero (finiteX : x.isFinite) (zero : y.isZero) :
    ∃ negative, x / y = if x.isZero then nan else infinite negative := by
  obtain ⟨a, m, hm, rfl⟩ := exists_eq_finite finiteX
  obtain ⟨b, rfl⟩ := exists_eq_signedZero zero
  refine ⟨a ^^ b, ?_⟩
  rw [signedZero, finite_div_finite, if_pos rfl]
  simp only [isZero, decide_eq_true_eq]

theorem isFinite_div_iff (finiteX : x.isFinite) (notNaN : y.isNaN = false)
    (le : y.isFinite → y.toRat ≠ 0 → |x.toRat| ≤ largest.toRat * |y.toRat|) :
    (x / y).isFinite ↔ ¬ y.isZero := by
  by_cases zero : y.isZero
  · obtain ⟨negative, quotient⟩ := div_of_isZero finiteX zero
    rw [quotient]
    refine iff_of_false ?_ (not_not.2 zero)
    split <;> exact Bool.false_ne_true
  · refine iff_of_true ?_ zero
    obtain ⟨a, m, hm, rfl⟩ := exists_eq_finite finiteX
    cases y with
    | nan => contradiction
    | infinite _ => rfl
    | finite _ _ _ =>
      have nonzero := mt (isZero_iff_toRat_eq_zero rfl).2 zero
      exact isFinite_div_of_abs_le rfl rfl nonzero (le rfl nonzero)

theorem isNaN_div_iff (finiteX : x.isFinite) (notNaN : y.isNaN = false) :
    (x / y).isNaN ↔ y.isZero ∧ x.isZero := by
  by_cases zero : y.isZero
  · obtain ⟨negative, quotient⟩ := div_of_isZero finiteX zero
    rw [quotient, and_iff_right zero]
    split
    case isTrue dividendZero => exact iff_of_true rfl dividendZero
    case isFalse nonzero => exact iff_of_false Bool.false_ne_true nonzero
  · refine iff_of_false ?_ fun zeros => zero zeros.1
    obtain ⟨a, m, hm, rfl⟩ := exists_eq_finite finiteX
    cases y with
    | nan => contradiction
    | infinite _ => exact Bool.false_ne_true
    | finite _ _ _ =>
      rw [isNaN_div_eq_false rfl rfl (mt (isZero_iff_toRat_eq_zero rfl).2 zero)]
      exact Bool.false_ne_true

theorem zero_le_mul_self (isFinite : x.isFinite) : 0 ≤ (x * x).toRat := by
  have side := (rounds_mul isFinite isFinite).same_side (s := 1) (by
    rw [mul_one]
    exact mul_self_nonneg _)
  rwa [mul_one] at side

theorem isZero_mul_self_iff (isFinite : x.isFinite) :
    (x * x).isZero ↔ 2 * x.toRat ^ 2 ≤ 1 / unitsPerOne := by
  rw [(rounds_mul isFinite isFinite).isZero_iff, abs_mul_self, sq]

theorem unit_le_abs (isFinite : x.isFinite) (nonzero : x.toRat ≠ 0) :
    1 / unitsPerOne ≤ |x.toRat| := by
  obtain ⟨negative, units, isMagnitude, rfl⟩ := exists_eq_finite isFinite
  rw [abs_toRat_finite, div_le_div_iff_of_pos_right unitsPerOne_cast_pos, Nat.one_le_cast]
  exact Nat.pos_of_ne_zero (units_ne_zero nonzero)

theorem unitRoundoff_mul_leastNormal : unitRoundoff * leastNormal = 1 / unitsPerOne / 2 := by
  have onePos := unitsPerOne_cast_pos
  rw [unitRoundoff, leastNormal, significandBits]
  field_simp

theorem sq_le_of_mul_self (isFinite : x.isFinite) (squareFinite : (x * x).isFinite) :
    x.toRat ^ 2 ≤ 2 * (x * x).toRat + 1 / unitsPerOne := by
  have error := (rounds_mul isFinite isFinite).error squareFinite
  rw [abs_mul_self, ← sq] at error
  have squareNonneg := sq_nonneg x.toRat
  have errorLe : unitRoundoff * max (x.toRat ^ 2) leastNormal ≤
      x.toRat ^ 2 / 2 + 1 / unitsPerOne / 2 :=
    calc unitRoundoff * max (x.toRat ^ 2) leastNormal
        ≤ unitRoundoff * (x.toRat ^ 2 + leastNormal) :=
          mul_le_mul_of_nonneg_left (max_le_add_of_nonneg squareNonneg leastNormal_pos.le)
            unitRoundoff_pos.le
      _ = unitRoundoff * x.toRat ^ 2 + 1 / unitsPerOne / 2 := by
          rw [mul_add, unitRoundoff_mul_leastNormal]
      _ ≤ x.toRat ^ 2 / 2 + 1 / unitsPerOne / 2 := by
          have half : unitRoundoff * x.toRat ^ 2 ≤ 1 / 2 * x.toRat ^ 2 :=
            mul_le_mul_of_nonneg_right (unitRoundoff_le.trans (by norm_num)) squareNonneg
          linarith
  have below := (abs_le.1 error).1
  linarith

theorem three_units_le : 3 * (unitsPerOne : Rat) ≤ largest.toRat ^ 2 := by
  decide +kernel

section

variable (finiteX : x.isFinite) (finiteY : y.isFinite) (isFinite : (x * x + y * y).isFinite)
  (nonzero : (x * x + y * y).toRat ≠ 0)

include finiteX finiteY isFinite nonzero

theorem sq_le_three_mul_add : x.toRat ^ 2 ≤ 3 * |(x * x + y * y).toRat| := by
  obtain ⟨left, right⟩ := isFinite_of_add isFinite
  have leftNonneg := zero_le_mul_self finiteX
  have rightNonneg := zero_le_mul_self finiteY
  have squareLe : |(x * x).toRat| ≤ |(x * x + y * y).toRat| := by
    apply (rounds_add left right).le_abs isFinite left
    rw [abs_of_nonneg leftNonneg, abs_of_nonneg (add_nonneg leftNonneg rightNonneg)]
    exact le_add_of_nonneg_right rightNonneg
  calc x.toRat ^ 2 ≤ 2 * (x * x).toRat + 1 / unitsPerOne := sq_le_of_mul_self finiteX left
    _ ≤ 2 * |(x * x + y * y).toRat| + |(x * x + y * y).toRat| :=
      add_le_add (mul_le_mul_of_nonneg_left ((le_abs_self _).trans squareLe) two_pos.le)
        (unit_le_abs isFinite nonzero)
    _ = 3 * |(x * x + y * y).toRat| := by ring

theorem abs_le_largest_mul : |x.toRat| ≤ largest.toRat * |(x * x + y * y).toRat| := by
  have square := sq_le_three_mul_add finiteX finiteY isFinite nonzero
  have unitLe := unit_le_abs isFinite nonzero
  have sumNonneg := abs_nonneg (x * x + y * y).toRat
  generalize |(x * x + y * y).toRat| = sum at square unitLe sumNonneg ⊢
  have scaled : 1 ≤ unitsPerOne * sum := by rwa [div_le_iff₀' unitsPerOne_cast_pos] at unitLe
  apply abs_le_of_sq_le_sq
  · calc x.toRat ^ 2 ≤ 3 * sum := square
      _ ≤ 3 * (unitsPerOne * sum * sum) :=
        mul_le_mul_of_nonneg_left (le_mul_of_one_le_left sumNonneg scaled) (by norm_num)
      _ = 3 * unitsPerOne * sum ^ 2 := by ring
      _ ≤ largest.toRat ^ 2 * sum ^ 2 := mul_le_mul_of_nonneg_right three_units_le (sq_nonneg _)
      _ = (largest.toRat * sum) ^ 2 := (mul_pow _ _ _).symm
  · exact mul_nonneg largest_nonneg sumNonneg

end

end Binary64

namespace Complex

open Binary64 (toRat largest)

/-- Both squares are at most half the least positive number, and so they are rounded to zero. -/
def SquaresVanish (z : Value) : Prop :=
  2 * max |z.re.toRat| |z.im.toRat| ^ 2 ≤ 1 / unitsPerOne

instance (z : Value) : Decidable z.SquaresVanish :=
  inferInstanceAs (Decidable (_ ≤ _))

variable {z : Value}

section

variable (finiteZ : z.isFinite)

include finiteZ

theorem isNaN_normSq_eq_false : z.normSq.isNaN = false := by
  obtain ⟨re, im⟩ := isFinite_iff.1 finiteZ
  exact (Binary64.HasSign.mul_self z.re).isNaN_add_eq_false (Binary64.HasSign.mul_self z.im)
    (Binary64.rounds_mul re re).isNaN_eq_false (Binary64.rounds_mul im im).isNaN_eq_false

theorem isZero_normSq_iff : z.normSq.isZero ↔ z.SquaresVanish := by
  obtain ⟨re, im⟩ := isFinite_iff.1 finiteZ
  rw [normSq, (Binary64.HasSign.mul_self _).isZero_add_iff (Binary64.HasSign.mul_self _),
    Binary64.isZero_mul_self_iff re, Binary64.isZero_mul_self_iff im, SquaresVanish]
  rcases le_total |z.re.toRat| |z.im.toRat| with le | le
  · have squares := sq_le_sq.2 le
    rw [max_eq_right le, sq_abs]
    exact and_iff_right_of_imp fun vanish => by linarith
  · have squares := sq_le_sq.2 le
    rw [max_eq_left le, sq_abs]
    exact and_iff_left_of_imp fun vanish => by linarith

theorem isFinite_inverse_iff : z.inverse.isFinite ↔ ¬ z.SquaresVanish := by
  obtain ⟨re, im⟩ := isFinite_iff.1 finiteZ
  have notNaN := isNaN_normSq_eq_false finiteZ
  have rePart : (z.re / z.normSq).isFinite ↔ ¬ z.normSq.isZero :=
    Binary64.isFinite_div_iff re notNaN (Binary64.abs_le_largest_mul re im)
  have imPart : (-z.im / z.normSq).isFinite ↔ ¬ z.normSq.isZero := by
    refine Binary64.isFinite_div_iff ((Binary64.isFinite_neg _).trans im) notNaN ?_
    rw [Binary64.toRat_neg, abs_neg, normSq, Binary64.add_comm]
    exact Binary64.abs_le_largest_mul im re
  rw [isFinite_iff, ← isZero_normSq_iff finiteZ]
  exact (and_congr rePart imPart).trans and_self_iff

theorem isNaN_inverse_iff :
    z.inverse.isNaN ↔ z.SquaresVanish ∧ (z.re.toRat = 0 ∨ z.im.toRat = 0) := by
  obtain ⟨re, im⟩ := isFinite_iff.1 finiteZ
  have notNaN := isNaN_normSq_eq_false finiteZ
  have rePart := Binary64.isNaN_div_iff re notNaN
  have imPart := Binary64.isNaN_div_iff ((Binary64.isFinite_neg _).trans im) notNaN
  rw [isZero_normSq_iff finiteZ, Binary64.isZero_iff_toRat_eq_zero re] at rePart
  rw [isZero_normSq_iff finiteZ, Binary64.isZero_neg, Binary64.isZero_iff_toRat_eq_zero im] at imPart
  rw [isNaN, Bool.or_eq_true, and_or_left]
  exact or_congr rePart imPart

theorem isFinite_one_div (large : 1 ≤ largest.toRat * max |z.re.toRat| |z.im.toRat|) :
    (1 / z).isFinite := by
  have nonzero : z.exact ≠ 0 := by
    intro zero
    have re : z.re.toRat = 0 := congrArg re zero
    have im : z.im.toRat = 0 := congrArg im zero
    rw [re, im, abs_zero, max_self, mul_zero] at large
    exact absurd large (by norm_num)
  rw [max_abs_toRat finiteZ] at large
  have oneSum : |(1 : Value).re.toRat| + |(1 : Value).im.toRat| ≤ |(1 : Binary64).toRat| := by
    change |toRat 1| + |toRat 0| ≤ |toRat 1|
    rw [Binary64.toRat_zero, abs_zero, add_zero]
  obtain ⟨⟨re, reLe⟩, im, imLe⟩ := numerator_in_range (z := 1) rfl finiteZ nonzero rfl oneSum
  rw [Binary64.toRat_one, abs_one] at reLe imLe
  have notNaN := (rounds_denominator finiteZ nonzero).isNaN_eq_false
  have le (denominatorFinite : z.denominator.isFinite) :
      1 ≤ largest.toRat * |z.denominator.toRat| :=
    large.trans (mul_le_mul_of_nonneg_left
      (abs_pivot_le_denominator finiteZ nonzero denominatorFinite) Binary64.largest_nonneg)
  rw [div_eq_map_numerator, isFinite_iff]
  exact ⟨(Binary64.isFinite_div_iff re notNaN fun isFinite _ => reLe.trans (le isFinite)).2
      (denominator_ne_zero z),
    (Binary64.isFinite_div_iff im notNaN fun isFinite _ => imLe.trans (le isFinite)).2
      (denominator_ne_zero z)⟩

end

theorem inverse_in_range (z : Value) (finiteZ : z.isFinite) :
    (z.inverse.isFinite ↔ ¬ z.SquaresVanish) ∧
    (z.inverse.isNaN ↔ z.SquaresVanish ∧ (z.re.toRat = 0 ∨ z.im.toRat = 0)) ∧
    (1 ≤ largest.toRat * max |z.re.toRat| |z.im.toRat| → (1 / z).isFinite) :=
  ⟨isFinite_inverse_iff finiteZ, isNaN_inverse_iff finiteZ, isFinite_one_div finiteZ⟩

/-- The least power of two whose square is not rounded to zero. -/
theorem inverse_in_range_at_limit :
    let z : Value := ⟨0, Binary64.ofRatio 1 (2 ^ 537)⟩
    z.isFinite ∧ z.inverse.isFinite ∧ ¬ z.inverse.isNaN ∧ (1 / z).isFinite := by
  intro z
  have finiteZ : z.isFinite := by decide +kernel
  have remain : ¬ z.SquaresVanish := by decide +kernel
  obtain ⟨isFinite, isNaN, quotient⟩ := inverse_in_range z finiteZ
  exact ⟨finiteZ, isFinite.2 remain, fun nan => remain (isNaN.1 nan).1, quotient (by decide +kernel)⟩

theorem inverse_of_vanishing_squares :
    let z : Value := ⟨0, Binary64.ofRatio 1 (2 ^ 538)⟩
    (z.isFinite ∧ z.exact ≠ 0) ∧ (1 / z).isFinite ∧ z.inverse = ⟨.nan, .infinite true⟩ := by
  decide +kernel

end Complex

end ComplexFormula

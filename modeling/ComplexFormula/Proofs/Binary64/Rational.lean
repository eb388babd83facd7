import Mathlib.Algebra.Order.Field.Rat
import Mathlib.Data.Rat.Cast.Order
import Mathlib.Tactic.FieldSimp
import Mathlib.Tactic.Linarith
import Mathlib.Tactic.Positivity
import Mathlib.Tactic.Ring
import ComplexFormula.Proofs.Binary64.Integer
import ComplexFormula.Proofs.Binary64.Sign
import ComplexFormula.Proofs.Nearest

namespace ComplexFormula.Binary64

theorem isMagnitude_of_lt {units : Nat} (lt : units < 2 ^ significandBits) : IsMagnitude units where
  lt_limit := lt.trans (Nat.pow_lt_pow_right Nat.one_lt_two
    (by decide : significandBits < magnitudeBits))
  fitsBits := ⟨units, 0, lt, (Nat.mul_one units).symm⟩

-- Their values, of hundreds of digits, are never needed.
attribute [local irreducible] unitsPerOne unitsLimit

/-- The value of a finite number; the others have none, and it is zero. -/
def toRat (x : Binary64) : Rat :=
  x.signedUnits / unitsPerOne

theorem unitsPerOne_cast_pos : (0 : Rat) < unitsPerOne :=
  Nat.cast_pos.2 unitsPerOne_pos

section

variable {a : Bool} {m : Nat} {hm : IsMagnitude m}

theorem toRat_finite : (finite a m hm).toRat = withSign a m / unitsPerOne := rfl

theorem abs_withSign (negative : Bool) (units : Nat) :
    |(withSign negative units : Rat)| = units := by
  cases negative <;> simp [withSign]

theorem abs_toRat_finite : |(finite a m hm).toRat| = m / unitsPerOne := by
  rw [toRat_finite, abs_div, abs_withSign, Nat.abs_cast]

theorem units_ne_zero (nonzero : (finite a m hm).toRat ≠ 0) : m ≠ 0 := by
  rintro rfl
  simp [toRat_finite, withSign] at nonzero

end

theorem exists_eq_finite {x : Binary64} (isFinite : x.isFinite) :
    ∃ negative units isMagnitude, x = finite negative units isMagnitude := by
  cases x with
  | nan | infinite _ => contradiction
  | finite negative units isMagnitude => exact ⟨negative, units, isMagnitude, rfl⟩

theorem isZero_iff_toRat_eq_zero {x : Binary64} (isFinite : x.isFinite) :
    x.isZero ↔ x.toRat = 0 := by
  obtain ⟨negative, units, isMagnitude, rfl⟩ := exists_eq_finite isFinite
  rw [← abs_eq_zero, abs_toRat_finite, div_eq_zero_iff, or_iff_left unitsPerOne_cast_pos.ne',
    Nat.cast_eq_zero]
  exact decide_eq_true_iff

@[simp]
theorem toRat_neg (x : Binary64) : (-x).toRat = -x.toRat := by
  cases x with
  | nan | infinite _ => simp [toRat, signedUnits]
  | finite negative units _ =>
    rw [neg_finite, toRat_finite, toRat_finite, withSign_not, Int.cast_neg, neg_div]

@[simp]
theorem isFinite_neg (x : Binary64) : (-x).isFinite = x.isFinite := by
  cases x <;> rfl

@[simp]
theorem toRat_zero : (0 : Binary64).toRat = 0 := by
  change ((0 : Int) : Rat) / unitsPerOne = 0
  simp

@[simp]
theorem toRat_one : (1 : Binary64).toRat = 1 := by
  change ((unitsPerOne : Int) : Rat) / unitsPerOne = 1
  rw [Int.cast_natCast, div_self unitsPerOne_cast_pos.ne']

/-- The number that an exact result is rounded to. -/
def Rounds (x : Binary64) (q : Rat) : Prop :=
  ∃ (negative : Bool) (num den : Nat), 0 < den ∧ x = ofUnits negative num den ∧
    q = withSign negative num / den / unitsPerOne

/-! ## Operations -/

theorem rounds_ofTotal (negativeZero : Bool) (total : Int) :
    (ofTotal negativeZero total).Rounds (total / unitsPerOne) := by
  refine ⟨_, total.natAbs, 1, Nat.one_pos, rfl, ?_⟩
  have signed : withSign (if total = 0 then negativeZero else total < 0) total.natAbs = total := by
    simp only [withSign]
    grind
  rw [signed, Nat.cast_one, div_one]

theorem rounds_add {x y : Binary64} (finiteX : x.isFinite) (finiteY : y.isFinite) :
    (x + y).Rounds (x.toRat + y.toRat) := by
  obtain ⟨a, m, _, rfl⟩ := exists_eq_finite finiteX
  obtain ⟨b, n, _, rfl⟩ := exists_eq_finite finiteY
  rw [finite_add_finite, toRat_finite, toRat_finite, ← add_div, ← Int.cast_add]
  exact rounds_ofTotal _ _

theorem rounds_mul {x y : Binary64} (finiteX : x.isFinite) (finiteY : y.isFinite) :
    (x * y).Rounds (x.toRat * y.toRat) := by
  obtain ⟨a, m, _, rfl⟩ := exists_eq_finite finiteX
  obtain ⟨b, n, _, rfl⟩ := exists_eq_finite finiteY
  refine ⟨a ^^ b, m * n, unitsPerOne, unitsPerOne_pos, finite_mul_finite, ?_⟩
  rw [toRat_finite, toRat_finite, withSign_xor_mul, Int.cast_mul]
  ring

theorem rounds_div {x y : Binary64} (finiteX : x.isFinite) (finiteY : y.isFinite)
    (nonzero : y.toRat ≠ 0) : (x / y).Rounds (x.toRat / y.toRat) := by
  obtain ⟨a, m, _, rfl⟩ := exists_eq_finite finiteX
  obtain ⟨b, n, _, rfl⟩ := exists_eq_finite finiteY
  have unitsNe := units_ne_zero nonzero
  refine ⟨a ^^ b, m * unitsPerOne, n, Nat.pos_of_ne_zero unitsNe, ?_, ?_⟩
  · rw [finite_div_finite, if_neg unitsNe]
  · have unitsCastNe : (n : Rat) ≠ 0 := Nat.cast_ne_zero.2 unitsNe
    have oneNe := unitsPerOne_cast_pos.ne'
    rw [toRat_finite, toRat_finite]
    cases a <;> cases b <;> simp only [withSign, Bool.false_eq_true, if_true, if_false,
      Bool.xor_true, Bool.xor_false, Bool.not_true, Bool.not_false] <;> push_cast <;> field_simp

/-! ## Results -/

/-- The greatest error of a rounding, in proportion to what is rounded. -/
def unitRoundoff : Rat :=
  1 / 2 ^ significandBits

theorem unitRoundoff_pos : 0 < unitRoundoff := by
  unfold unitRoundoff
  positivity

theorem unitRoundoff_le : unitRoundoff ≤ 1 / 10 ^ 15 := by
  norm_num [unitRoundoff, significandBits]

/-- The least number from which on errors are in proportion. -/
def leastNormal : Rat :=
  2 ^ (significandBits - 1) / unitsPerOne

theorem leastNormal_pos : 0 < leastNormal :=
  div_pos (by positivity) unitsPerOne_cast_pos

theorem leastNormal_le : leastNormal ≤ 1 / 10 ^ 100 := by
  have scaled : 2 ^ (significandBits - 1) * 10 ^ 100 ≤ unitsPerOne := by decide +kernel
  rw [leastNormal, div_le_div_iff₀ unitsPerOne_cast_pos (by positivity), one_mul]
  exact_mod_cast scaled

namespace Rounds

variable {x v : Binary64} {q : Rat}

theorem eq_infinite_or_finite (rounds : x.Rounds q) : ∃ (negative : Bool) (num den : Nat),
    0 < den ∧ q = withSign negative num / den / unitsPerOne ∧
    ((x = infinite negative ∧ unitsLimit ≤ roundBits significandBits num den) ∨
      ∃ isMagnitude, x = finite negative (roundBits significandBits num den) isMagnitude) := by
  obtain ⟨negative, num, den, pos, rfl, exact⟩ := rounds
  refine ⟨negative, num, den, pos, exact, ?_⟩
  simp only [ofUnits]
  split
  case isTrue small => exact .inr ⟨⟨small, fitsBits_roundBits (by decide) num den⟩, rfl⟩
  case isFalse overflow => exact .inl ⟨rfl, Nat.le_of_not_lt overflow⟩

theorem isNaN_eq_false (rounds : x.Rounds q) : x.isNaN = false := by
  obtain ⟨negative, num, den, -, rfl, -⟩ := rounds
  exact isNaN_ofUnits negative num den

theorem abs_exact (negative : Bool) (num den : Nat) :
    |(withSign negative num : Rat) / den / unitsPerOne| = num / den / unitsPerOne := by
  rw [abs_div, abs_div, abs_withSign, Nat.abs_cast, Nat.abs_cast]

theorem isZero_iff (rounds : x.Rounds q) : x.isZero ↔ 2 * |q| ≤ 1 / unitsPerOne := by
  obtain ⟨negative, num, den, pos, rfl, rfl⟩ := rounds
  rw [isZero_ofUnits, roundBits_eq_zero_iff (by decide) pos, abs_exact, ← mul_div_assoc,
    div_le_div_iff_of_pos_right unitsPerOne_cast_pos, ← mul_div_assoc,
    div_le_one₀ (Nat.cast_pos.2 pos)]
  exact_mod_cast Iff.rfl

theorem abs_le (rounds : x.Rounds q) (isFinite : v.isFinite) (le : |q| ≤ |v.toRat|) :
    x.isFinite ∧ |x.toRat| ≤ |v.toRat| := by
  obtain ⟨negative, num, den, pos, rfl, result⟩ := rounds.eq_infinite_or_finite
  obtain ⟨sign, units, isMagnitude, rfl⟩ := exists_eq_finite isFinite
  rw [abs_exact, abs_toRat_finite, div_le_div_iff_of_pos_right unitsPerOne_cast_pos,
    div_le_iff₀ (Nat.cast_pos.2 pos)] at le
  have unitsLe : roundBits significandBits num den ≤ units :=
    roundBits_le (by decide) pos isMagnitude.fitsBits (by exact_mod_cast le)
  rcases result with ⟨-, overflow⟩ | ⟨_, rfl⟩
  · exact absurd isMagnitude.lt_limit (Nat.not_lt.2 (overflow.trans unitsLe))
  · rw [abs_toRat_finite, abs_toRat_finite, div_le_div_iff_of_pos_right unitsPerOne_cast_pos]
    exact ⟨rfl, Nat.cast_le.2 unitsLe⟩

theorem le_abs (rounds : x.Rounds q) (isFinite : x.isFinite) (isFiniteBound : v.isFinite)
    (le : |v.toRat| ≤ |q|) : |v.toRat| ≤ |x.toRat| := by
  obtain ⟨negative, num, den, pos, rfl, result⟩ := rounds.eq_infinite_or_finite
  obtain ⟨sign, units, isMagnitude, rfl⟩ := exists_eq_finite isFiniteBound
  rw [abs_exact, abs_toRat_finite, div_le_div_iff_of_pos_right unitsPerOne_cast_pos,
    le_div_iff₀ (Nat.cast_pos.2 pos)] at le
  rcases result with ⟨rfl, -⟩ | ⟨_, rfl⟩
  · contradiction
  · rw [abs_toRat_finite, abs_toRat_finite, div_le_div_iff_of_pos_right unitsPerOne_cast_pos]
    exact Nat.cast_le.2 (le_roundBits (by decide) pos isMagnitude.fitsBits (by exact_mod_cast le))

theorem toRat_eq_zero (rounds : x.Rounds 0) : x.toRat = 0 := by
  have bound := (rounds.abs_le (v := 0) rfl (by simp)).2
  simpa using bound

theorem withSign_eq_mul (negative : Bool) (units : Nat) :
    (withSign negative units : Rat) = withSign negative 1 * units := by
  rw [← Nat.one_mul units, withSign_mul, Nat.one_mul]
  push_cast
  rfl

theorem same_side (rounds : x.Rounds q) {s : Rat} (nonneg : 0 ≤ q * s) : 0 ≤ x.toRat * s := by
  obtain ⟨negative, num, den, pos, rfl, result⟩ := rounds.eq_infinite_or_finite
  rcases result with ⟨rfl, -⟩ | ⟨_, rfl⟩
  · simp [toRat, signedUnits]
  rw [toRat_finite, withSign_eq_mul]
  rcases Nat.eq_zero_or_pos num with rfl | numPos
  · simp [roundBits_zero]
  have scalePos : (0 : Rat) < num / den / unitsPerOne :=
    div_pos (div_pos (Nat.cast_pos.2 numPos) (Nat.cast_pos.2 pos)) unitsPerOne_cast_pos
  have towards : 0 ≤ withSign negative 1 * s := by
    rw [withSign_eq_mul, mul_div_assoc, mul_div_assoc, mul_right_comm] at nonneg
    exact nonneg_of_mul_nonneg_left nonneg scalePos
  calc 0 ≤ withSign negative 1 * s * (roundBits significandBits num den / unitsPerOne) :=
        mul_nonneg towards (div_nonneg (Nat.cast_nonneg _) unitsPerOne_cast_pos.le)
    _ = withSign negative 1 * roundBits significandBits num den / unitsPerOne * s := by ring

theorem abs_sub_exact (negative : Bool) (units num : Nat) {den : Nat} (pos : 0 < den) :
    |(withSign negative units : Rat) / unitsPerOne - withSign negative num / den / unitsPerOne| =
      |(num : Rat) - units * den| / (den * unitsPerOne) := by
  have denPos : (0 : Rat) < den := Nat.cast_pos.2 pos
  have onePos := unitsPerOne_cast_pos
  have difference : (withSign negative units : Rat) / unitsPerOne -
      withSign negative num / den / unitsPerOne =
        withSign (!negative) 1 * (num - units * den) / (den * unitsPerOne) := by
    rw [withSign_eq_mul negative num, withSign_eq_mul negative units, withSign_not, Int.cast_neg]
    field_simp
    ring
  rw [difference, abs_div, abs_mul, abs_withSign, Nat.cast_one, one_mul,
    abs_of_pos (mul_pos denPos onePos)]

theorem nearest (rounds : x.Rounds q) (isFinite : x.isFinite) (isFiniteOther : v.isFinite) :
    |x.toRat - q| ≤ |v.toRat - q| := by
  obtain ⟨negative, num, den, pos, rfl, result⟩ := rounds.eq_infinite_or_finite
  obtain ⟨sign, units, isMagnitude, rfl⟩ := exists_eq_finite isFiniteOther
  rcases result with ⟨rfl, -⟩ | ⟨_, rfl⟩
  · contradiction
  have inUnits := roundBits_nearest (by decide : 0 < significandBits) num pos isMagnitude.fitsBits
  have denPos : (0 : Rat) < den := Nat.cast_pos.2 pos
  have onePos := unitsPerOne_cast_pos
  -- A number of the other sign is farther away than the one of the same magnitude.
  calc |(finite negative (roundBits significandBits num den) _).toRat -
        withSign negative num / den / unitsPerOne|
      = |(num : Rat) - roundBits significandBits num den * den| / (den * unitsPerOne) := by
        rw [toRat_finite, abs_sub_exact _ _ _ pos]
    _ ≤ |(num : Rat) - units * den| / (den * unitsPerOne) := by
        rw [div_le_div_iff_of_pos_right (mul_pos denPos onePos)]
        exact_mod_cast inUnits
    _ = |(|(finite sign units isMagnitude).toRat| -
          |(withSign negative num : Rat) / den / unitsPerOne|)| := by
        rw [abs_toRat_finite, abs_exact, ← abs_sub_exact false units num pos]
        simp [withSign]
    _ ≤ |(finite sign units isMagnitude).toRat - withSign negative num / den / unitsPerOne| :=
        abs_abs_sub_abs_le _ _

theorem error (rounds : x.Rounds q) (isFinite : x.isFinite) :
    |x.toRat - q| ≤ unitRoundoff * max |q| leastNormal := by
  obtain ⟨negative, num, den, pos, rfl, result⟩ := rounds.eq_infinite_or_finite
  rcases result with ⟨rfl, -⟩ | ⟨_, rfl⟩
  · contradiction
  have rounded := two_pow_mul_abs_sub_roundBits_le (by decide : 0 < significandBits) num pos
  have roundedCast : 2 ^ significandBits * |(num : Rat) - roundBits significandBits num den * den| ≤
      max (num : Rat) (den * 2 ^ (significandBits - 1)) := by exact_mod_cast rounded
  have denPos : (0 : Rat) < den := Nat.cast_pos.2 pos
  have onePos := unitsPerOne_cast_pos
  have bound : max |(withSign negative num : Rat) / den / unitsPerOne| leastNormal =
      max (num : Rat) (den * 2 ^ (significandBits - 1)) / (den * unitsPerOne) := by
    rw [abs_exact, leastNormal, div_div, ← mul_div_mul_left (2 ^ (significandBits - 1)) _ denPos.ne',
      max_div_div_right (by positivity)]
  rw [toRat_finite, abs_sub_exact _ _ _ pos, bound, ← mul_div_assoc,
    div_le_div_iff_of_pos_right (mul_pos denPos onePos), unitRoundoff, one_div_mul_eq_div,
    le_div_iff₀ (by positivity), mul_comm]
  exact roundedCast

theorem error_le (rounds : x.Rounds q) (isFinite : x.isFinite) {bound : Rat} (le : |q| ≤ bound)
    (normal : q ≠ 0 → leastNormal ≤ bound) : |x.toRat - q| ≤ unitRoundoff * bound := by
  by_cases zero : q = 0
  · subst zero
    rw [rounds.toRat_eq_zero, sub_zero, abs_zero]
    exact mul_nonneg unitRoundoff_pos.le ((abs_nonneg _).trans le)
  · exact (rounds.error isFinite).trans
      (mul_le_mul_of_nonneg_left (max_le le (normal zero)) unitRoundoff_pos.le)

end Rounds

variable {x y : Binary64}

theorem add_error (finiteX : x.isFinite) (finiteY : y.isFinite) (isFinite : (x + y).isFinite) :
    |(x + y).toRat - (x.toRat + y.toRat)| ≤ unitRoundoff * |x.toRat + y.toRat| := by
  have rounds := rounds_add finiteX finiteY
  obtain ⟨a, m, hm, rfl⟩ := exists_eq_finite finiteX
  obtain ⟨b, n, hn, rfl⟩ := exists_eq_finite finiteY
  have exact : (finite a m hm).toRat + (finite b n hn).toRat =
      (withSign a m + withSign b n : Int) / unitsPerOne := by
    rw [toRat_finite, toRat_finite, ← add_div, ← Int.cast_add]
  -- A sum is a whole number of units, so one too small for errors in proportion is exact.
  rcases Nat.lt_or_ge (withSign a m + withSign b n).natAbs (2 ^ significandBits) with small | large
  · have sum : (finite a m hm + finite b n hn).toRat =
        (withSign a m + withSign b n : Int) / unitsPerOne := by
      rw [finite_add_finite, toRat, (ofTotal_of_isMagnitude _ (isMagnitude_of_lt small)).2]
    rw [sum, exact, sub_self, abs_zero]
    exact mul_nonneg unitRoundoff_pos.le (abs_nonneg _)
  · have normal : leastNormal ≤ |((withSign a m + withSign b n : Int) : Rat) / unitsPerOne| := by
      rw [abs_div, Nat.abs_cast, leastNormal, div_le_div_iff_of_pos_right unitsPerOne_cast_pos]
      calc (2 : Rat) ^ (significandBits - 1)
          ≤ 2 ^ significandBits := pow_le_pow_right₀ one_le_two (Nat.sub_le ..)
        _ ≤ (withSign a m + withSign b n).natAbs := by exact_mod_cast large
        _ = |((withSign a m + withSign b n : Int) : Rat)| := by rw [Nat.cast_natAbs, Int.cast_abs]
    rw [← exact] at normal
    have error := rounds.error isFinite
    rwa [max_eq_left normal] at error

theorem abs_lt_abs_iff (finiteX : x.isFinite) (finiteY : y.isFinite) :
    x.abs < y.abs ↔ |x.toRat| < |y.toRat| := by
  obtain ⟨a, m, _, rfl⟩ := exists_eq_finite finiteX
  obtain ⟨b, n, _, rfl⟩ := exists_eq_finite finiteY
  rw [abs_finite_lt_abs_finite, abs_toRat_finite, abs_toRat_finite,
    div_lt_div_iff_of_pos_right unitsPerOne_cast_pos, Nat.cast_lt]

theorem isNaN_div_eq_false (finiteX : x.isFinite) (finiteY : y.isFinite) (nonzero : y.toRat ≠ 0) :
    (x / y).isNaN = false :=
  (rounds_div finiteX finiteY nonzero).isNaN_eq_false

end ComplexFormula.Binary64

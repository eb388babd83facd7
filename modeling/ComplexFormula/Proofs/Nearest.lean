import Mathlib.Algebra.Order.Ring.Int
import Mathlib.Algebra.Order.AbsoluteValue.Basic
import Mathlib.Tactic.Linarith
import Mathlib.Tactic.Ring
import Mathlib.Tactic.Zify
import ComplexFormula.Proofs.Rounding

namespace ComplexFormula

theorem two_mul_abs_sub_roundHalfEven_le (num : Nat) {den : Nat} (pos : 0 < den) :
    2 * |(num : Int) - roundHalfEven num den * den| ≤ den := by
  have division : (num : Int) = num / den * den + num % den := (Int.ediv_mul_add_emod ..).symm
  have remainderLt : num % den < den := Nat.mod_lt num pos
  unfold roundHalfEven
  dsimp only
  split
  case isTrue down =>
    have offset : (num : Int) - ((num / den : Nat) : Int) * den = (num % den : Nat) := by
      push_cast
      linarith
    rw [offset, abs_of_nonneg (Int.natCast_nonneg _)]
    omega
  case isFalse up =>
    have offset : (num : Int) - ((num / den + 1 : Nat) : Int) * den = (num % den : Nat) - den := by
      push_cast
      linarith
    rw [offset, abs_of_nonpos (by omega)]
    omega

theorem roundHalfEven_nearest (num : Nat) {den : Nat} (pos : 0 < den) (n : Nat) :
    |(num : Int) - roundHalfEven num den * den| ≤ |(num : Int) - n * den| := by
  by_cases same : n = roundHalfEven num den
  · rw [same]
  · have half := two_mul_abs_sub_roundHalfEven_le num pos
    have apart : (1 : Int) ≤ |(n : Int) - roundHalfEven num den| := Int.one_le_abs (by omega)
    have distance : (den : Int) ≤ |((n : Int) - roundHalfEven num den) * den| := by
      rw [abs_mul, Nat.abs_cast]
      exact le_mul_of_one_le_left (Int.natCast_nonneg den) apart
    have triangle := abs_sub ((num : Int) - roundHalfEven num den * den) (num - n * den)
    rw [show (num : Int) - roundHalfEven num den * den - (num - n * den) =
      (n - roundHalfEven num den) * den by ring] at triangle
    omega

section

variable {digits num den n : Nat}

theorem two_mul_abs_sub_roundBits_le (digits num : Nat) (pos : 0 < den) :
    2 * |(num : Int) - roundBits digits num den * den| ≤
      (den * 2 ^ ((num / den).log2 + 1 - digits) : Nat) := by
  have half := two_mul_abs_sub_roundHalfEven_le num
    (Nat.mul_pos pos (Nat.two_pow_pos ((num / den).log2 + 1 - digits)))
  have grouped (r s : Int) : r * s * den = r * (den * s) := by ring
  simpa only [roundBits, Nat.cast_mul, grouped] using half

/-- Beyond the least quotient that needs all digits the error is relative, below it absolute. -/
theorem two_pow_mul_abs_sub_roundBits_le (digitsPos : 0 < digits) (num : Nat) (pos : 0 < den) :
    (2 ^ digits : Nat) * |(num : Int) - roundBits digits num den * den| ≤
      max num (den * 2 ^ (digits - 1) : Nat) := by
  have stepLe : 2 ^ (digits - 1) * (den * 2 ^ ((num / den).log2 + 1 - digits)) ≤
      max num (den * 2 ^ (digits - 1)) := by
    by_cases small : (num / den).log2 + 1 ≤ digits
    · rw [Nat.sub_eq_zero_of_le small, Nat.pow_zero, Nat.mul_one, Nat.mul_comm]
      exact le_max_right _ _
    · have quotientNe : num / den ≠ 0 := fun zero => by simp [zero] at small; omega
      apply le_max_of_le_left
      calc 2 ^ (digits - 1) * (den * 2 ^ ((num / den).log2 + 1 - digits))
          = den * 2 ^ (num / den).log2 := by
            rw [Nat.mul_left_comm, ← Nat.pow_add]
            congr 2
            omega
        _ ≤ den * (num / den) := Nat.mul_le_mul_left den (Nat.log2_self_le quotientNe)
        _ ≤ num := Nat.mul_div_le num den
  have doubled : 2 ^ digits = 2 ^ (digits - 1) * 2 := by
    rw [← Nat.pow_succ]
    congr 1
    omega
  have half := two_mul_abs_sub_roundBits_le digits num pos
  calc ((2 ^ digits : Nat) : Int) * |(num : Int) - roundBits digits num den * den|
      = (2 ^ (digits - 1) : Nat) * (2 * |(num : Int) - roundBits digits num den * den|) := by
        rw [doubled, Nat.cast_mul]
        ring
    _ ≤ (2 ^ (digits - 1) : Nat) * (den * 2 ^ ((num / den).log2 + 1 - digits) : Nat) :=
        Int.mul_le_mul_of_nonneg_left half (Int.natCast_nonneg _)
    _ ≤ max num (den * 2 ^ (digits - 1) : Nat) := by exact_mod_cast stepLe

theorem roundBits_nearest (digitsPos : 0 < digits) (num : Nat) (pos : 0 < den)
    (fits : FitsBits digits n) :
    |(num : Int) - roundBits digits num den * den| ≤ |(num : Int) - n * den| := by
  let step := 2 ^ ((num / den).log2 + 1 - digits)
  have multiple (k : Nat) :
      |(num : Int) - roundBits digits num den * den| ≤ |(num : Int) - (k * step : Nat) * den| := by
    have nearest := roundHalfEven_nearest num (Nat.mul_pos pos (Nat.two_pow_pos _ : 0 < step)) k
    have grouped (r s : Int) : r * s * den = r * (den * s) := by ring
    simpa only [roundBits, Nat.cast_mul, grouped] using nearest
  by_cases onGrid : step ∣ n
  · obtain ⟨k, rfl⟩ := onGrid
    rw [Nat.mul_comm]
    exact multiple k
  -- A number between the multiples has fewer digits than the quotient, so a power of two is nearer.
  · have fewer : n.log2 < (num / den).log2 := by
      by_contra reaches
      exact onGrid ((Nat.pow_dvd_pow 2 (by omega)).trans (step_dvd_of_fitsBits fits))
    have quotientNe : num / den ≠ 0 := fun zero => by simp [zero] at fewer
    have power : 2 ^ (num / den).log2 = 2 ^ ((num / den).log2 - ((num / den).log2 + 1 - digits)) * step := by
      rw [← Nat.pow_add]
      congr 1
      omega
    have below : n ≤ 2 ^ (num / den).log2 :=
      Nat.le_of_lt (Nat.lt_log2_self.trans_le (Nat.pow_le_pow_right (by decide) fewer))
    have above : 2 ^ (num / den).log2 * den ≤ num :=
      (Nat.mul_le_mul_right den (Nat.log2_self_le quotientNe)).trans (Nat.div_mul_le_self num den)
    have nearest := multiple (2 ^ ((num / den).log2 - ((num / den).log2 + 1 - digits)))
    rw [← power] at nearest
    have scaled := Nat.mul_le_mul_right den below
    calc |(num : Int) - roundBits digits num den * den|
        ≤ |(num : Int) - (2 ^ (num / den).log2 : Nat) * den| := nearest
      _ = num - (2 ^ (num / den).log2 : Nat) * den :=
          abs_of_nonneg (Int.sub_nonneg_of_le (by exact_mod_cast above))
      _ ≤ num - n * den := Int.sub_le_sub_left (by exact_mod_cast scaled) num
      _ ≤ |(num : Int) - n * den| := le_abs_self _

theorem le_two_mul_of_lt_roundBits (digitsPos : 0 < digits) (pos : 0 < den)
    (fits : FitsBits digits n) (less : n < roundBits digits num den) :
    (roundBits digits num den + n) * den ≤ 2 * num := by
  have nearest := roundBits_nearest digitsPos num pos fits
  have scaled := Nat.mul_lt_mul_of_pos_right less pos
  rw [Nat.add_mul]
  zify at scaled ⊢
  rcases abs_cases ((num : Int) - roundBits digits num den * den) with toRounded | toRounded <;>
    rcases abs_cases ((num : Int) - n * den) with toOther | toOther <;> omega

theorem two_mul_le_of_roundBits_lt (digitsPos : 0 < digits) (pos : 0 < den)
    (fits : FitsBits digits n) (less : roundBits digits num den < n) :
    2 * num ≤ (roundBits digits num den + n) * den := by
  have nearest := roundBits_nearest digitsPos num pos fits
  have scaled := Nat.mul_lt_mul_of_pos_right less pos
  rw [Nat.add_mul]
  zify at scaled ⊢
  rcases abs_cases ((num : Int) - roundBits digits num den * den) with toRounded | toRounded <;>
    rcases abs_cases ((num : Int) - n * den) with toOther | toOther <;> omega

theorem roundBits_le (digitsPos : 0 < digits) (pos : 0 < den) (fits : FitsBits digits n)
    (le : num ≤ n * den) : roundBits digits num den ≤ n := by
  by_contra less
  have middle := le_two_mul_of_lt_roundBits digitsPos pos fits (Nat.lt_of_not_le less)
  have scaled := Nat.mul_lt_mul_of_pos_right (Nat.lt_of_not_le less) pos
  rw [Nat.add_mul] at middle
  omega

theorem le_roundBits (digitsPos : 0 < digits) (pos : 0 < den) (fits : FitsBits digits n)
    (le : n * den ≤ num) : n ≤ roundBits digits num den := by
  by_contra less
  have middle := two_mul_le_of_roundBits_lt digitsPos pos fits (Nat.lt_of_not_le less)
  have scaled := Nat.mul_lt_mul_of_pos_right (Nat.lt_of_not_le less) pos
  rw [Nat.add_mul] at middle
  omega

theorem roundBits_eq_zero_iff (digitsPos : 0 < digits) (pos : 0 < den) :
    roundBits digits num den = 0 ↔ 2 * num ≤ den := by
  constructor
  · intro zero
    have nearest := roundBits_nearest digitsPos num pos (fitsBits_two_pow digitsPos 0)
    rw [zero] at nearest
    zify
    rcases abs_cases ((num : Int) - (0 : Nat) * den) with toZero | toZero <;>
      rcases abs_cases ((num : Int) - (2 ^ 0 : Nat) * den) with toOne | toOne <;> omega
  · intro half
    have quotientZero : num / den = 0 := Nat.div_eq_of_lt (by omega)
    have noStep : Nat.log2 0 + 1 - digits = 0 := by
      rw [Nat.log2_zero]
      omega
    have remainder : num % den = num := Nat.mod_eq_of_lt (by omega)
    simp only [roundBits, roundHalfEven, quotientZero, noStep, Nat.pow_zero, Nat.mul_one, remainder]
    simp [half.lt_or_eq]

theorem roundBits_mono (digitsPos : 0 < digits) {num' den' : Nat} (pos : 0 < den)
    (pos' : 0 < den') (le : num * den' ≤ num' * den) :
    roundBits digits num den ≤ roundBits digits num' den' := by
  by_contra less
  have lower := le_two_mul_of_lt_roundBits digitsPos pos (fitsBits_roundBits digitsPos num' den')
    (Nat.lt_of_not_le less)
  have upper := two_mul_le_of_roundBits_lt digitsPos pos' (fitsBits_roundBits digitsPos num den)
    (Nat.lt_of_not_le less)
  -- Both quotients would be the middle between the two roundings.
  have ge : 2 * (num' * den) ≤ 2 * (num * den') :=
    calc 2 * (num' * den) = 2 * num' * den := (Nat.mul_assoc ..).symm
      _ ≤ (roundBits digits num' den' + roundBits digits num den) * den' * den :=
        Nat.mul_le_mul_right den upper
      _ = (roundBits digits num den + roundBits digits num' den') * den * den' := by ring
      _ ≤ 2 * num * den' := Nat.mul_le_mul_right den' lower
      _ = 2 * (num * den') := Nat.mul_assoc ..
  have same : num * den' = num' * den := by omega
  exact less (Nat.le_of_eq (roundBits_congr pos pos' same))

end

end ComplexFormula

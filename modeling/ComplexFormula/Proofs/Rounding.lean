import ComplexFormula.Rounding

namespace ComplexFormula

theorem roundHalfEven_mul_right (num den : Nat) {c : Nat} (pos : 0 < c) :
    roundHalfEven (num * c) (den * c) = roundHalfEven num den := by
  have below : 2 * (num % den * c) < den * c ↔ 2 * (num % den) < den := by
    rw [← Nat.mul_assoc, Nat.mul_lt_mul_right pos]
  have tie : 2 * (num % den * c) = den * c ↔ 2 * (num % den) = den := by
    rw [← Nat.mul_assoc, Nat.mul_left_inj (by omega)]
  simp only [roundHalfEven, Nat.mul_div_mul_right _ _ pos, Nat.mul_mod_mul_right, below, tie]

theorem roundHalfEven_mul_self (n : Nat) {den : Nat} (pos : 0 < den) :
    roundHalfEven (n * den) den = n := by
  simp [roundHalfEven, Nat.mul_div_cancel _ pos, pos]

theorem roundBits_mul_right (digits num den : Nat) {c : Nat} (pos : 0 < c) :
    roundBits digits (num * c) (den * c) = roundBits digits num den := by
  simp only [roundBits, Nat.mul_div_mul_right _ _ pos]
  rw [Nat.mul_right_comm den c, roundHalfEven_mul_right _ _ pos]

theorem roundBits_congr {digits num den num' den' : Nat} (pos : 0 < den) (pos' : 0 < den')
    (same : num * den' = num' * den) : roundBits digits num den = roundBits digits num' den' := by
  rw [← roundBits_mul_right digits num den pos', same, Nat.mul_comm den den',
    roundBits_mul_right digits num' den' pos]

theorem step_dvd_of_fitsBits {digits n : Nat} (fits : FitsBits digits n) :
    2 ^ (n.log2 + 1 - digits) ∣ n := by
  obtain ⟨m, k, small, rfl⟩ := fits
  by_cases zero : m * 2 ^ k = 0
  · exact zero ▸ Nat.dvd_zero _
  · have digitsLt : (m * 2 ^ k).log2 < digits + k := by
      rw [Nat.log2_lt zero, Nat.pow_add]
      exact Nat.mul_lt_mul_of_pos_right small (Nat.two_pow_pos k)
    exact Nat.dvd_mul_left_of_dvd (Nat.pow_dvd_pow 2 (by omega)) m

theorem roundBits_of_fitsBits {digits n den : Nat} (fits : FitsBits digits n) (pos : 0 < den) :
    roundBits digits (n * den) den = n := by
  obtain ⟨t, multiple⟩ := step_dvd_of_fitsBits fits
  simp only [roundBits, Nat.mul_div_cancel _ pos]
  have stepPos := Nat.two_pow_pos (n.log2 + 1 - digits)
  generalize 2 ^ (n.log2 + 1 - digits) = step at multiple stepPos ⊢
  have factored : n * den = t * (den * step) := by rw [multiple]; ac_rfl
  rw [factored, roundHalfEven_mul_self t (Nat.mul_pos pos stepPos), multiple, Nat.mul_comm]

theorem fitsBits_mul_two {digits n : Nat} (fits : FitsBits digits n) : FitsBits digits (n * 2) := by
  obtain ⟨m, k, small, rfl⟩ := fits
  exact ⟨m, k + 1, small, by rw [Nat.pow_succ, Nat.mul_assoc]⟩

theorem roundHalfEven_zero (den : Nat) : roundHalfEven 0 den = 0 := by
  have below : 0 < den ∨ 0 = den := by omega
  simp [roundHalfEven, below]

theorem roundBits_zero (digits den : Nat) : roundBits digits 0 den = 0 := by
  simp only [roundBits, roundHalfEven_zero, Nat.zero_mul]

theorem roundBits_pos {digits num den : Nat} (digitsPos : 0 < digits) (denPos : 0 < den)
    (le : den ≤ num) : 0 < roundBits digits num den := by
  let step := 2 ^ ((num / den).log2 + 1 - digits)
  have quotientNe : num / den ≠ 0 := Nat.ne_of_gt (Nat.div_pos le denPos)
  have stepLe : step ≤ num / den :=
    calc step ≤ 2 ^ (num / den).log2 := Nat.pow_le_pow_right (by decide) (by omega)
      _ ≤ num / den := Nat.log2_self_le quotientNe
  have scaledLe : den * step ≤ num :=
    calc den * step ≤ den * (num / den) := Nat.mul_le_mul_left den stepLe
      _ ≤ num := Nat.mul_div_le num den
  have stepPos : 0 < step := Nat.two_pow_pos _
  have wholePos : 0 < num / (den * step) := Nat.div_pos scaledLe (Nat.mul_pos denPos stepPos)
  exact Nat.mul_pos (Nat.lt_of_lt_of_le wholePos (div_le_roundHalfEven ..)) stepPos

end ComplexFormula

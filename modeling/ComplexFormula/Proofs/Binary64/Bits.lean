import ComplexFormula.Binary64.Bits

namespace ComplexFormula.Binary64

theorem wordOfUnits_mul_two_pow {significand scale : Nat} (lt : significand < 2 * fractions)
    (normal : scale = 0 ∨ fractions ≤ significand) :
    wordOfUnits (significand * 2 ^ scale) = scale * fractions + significand := by
  have scaleEq : (significand * 2 ^ scale).log2 - fractionBits = scale := by
    by_cases zero : significand = 0
    · subst zero
      have scaleZero : scale = 0 := normal.resolve_right (by decide)
      rw [scaleZero, Nat.zero_mul, Nat.log2_zero, Nat.zero_sub]
    have unitsNe : significand * 2 ^ scale ≠ 0 :=
      Nat.mul_ne_zero zero (Nat.ne_of_gt (Nat.two_pow_pos scale))
    have above : (significand * 2 ^ scale).log2 < fractionBits + 1 + scale := by
      rw [Nat.log2_lt unitsNe, Nat.pow_add]
      exact Nat.mul_lt_mul_of_pos_right lt (Nat.two_pow_pos scale)
    rcases normal with rfl | normal
    · omega
    · have below : fractionBits + scale ≤ (significand * 2 ^ scale).log2 := by
        rw [Nat.le_log2 unitsNe, Nat.pow_add]
        exact Nat.mul_le_mul_right _ normal
      omega
  simp only [wordOfUnits, scaleEq, Nat.mul_div_cancel _ (Nat.two_pow_pos scale)]

theorem wordOfUnits_unitsOfWord (word : Nat) : wordOfUnits (unitsOfWord word) = word := by
  have significandLt : word - (word / fractions - 1) * fractions < 2 * fractions := by
    simp only [fractions, fractionBits, significandBits]
    omega
  have normal : word / fractions - 1 = 0 ∨ fractions ≤ word - (word / fractions - 1) * fractions := by
    simp only [fractions, fractionBits, significandBits]
    omega
  have scaleLe : (word / fractions - 1) * fractions ≤ word :=
    Nat.le_trans (Nat.mul_le_mul_right _ (Nat.sub_le ..)) (Nat.div_mul_le_self ..)
  rw [unitsOfWord, wordOfUnits_mul_two_pow significandLt normal, Nat.add_sub_cancel' scaleLe]

theorem toNat_packBits {negative : Bool} {word : Nat} (small : word < signWord) :
    (packBits negative word).toNat = if negative then signWord + word else word := by
  have total : (if negative then signWord + word else word) < 2 ^ 64 := by
    simp only [signWord] at small ⊢
    split <;> omega
  rw [packBits, UInt64.toNat_ofNat', Nat.mod_eq_of_lt total]

theorem packBits_toNat (bits : UInt64) :
    packBits (signWord ≤ bits.toNat) (bits.toNat % signWord) = bits := by
  have lt : bits.toNat < 2 * signWord := bits.toNat_lt
  have small := Nat.mod_lt bits.toNat (by decide : 0 < signWord)
  apply UInt64.toNat_inj.1
  rw [toNat_packBits small]
  by_cases negative : signWord ≤ bits.toNat
  · have remainder : bits.toNat % signWord = bits.toNat - signWord := by
      rw [Nat.mod_eq_sub_mod negative, Nat.mod_eq_of_lt (by omega)]
    rw [decide_eq_true negative, if_pos rfl, remainder, Nat.add_sub_cancel' negative]
  · rw [decide_eq_false negative, if_neg Bool.false_ne_true,
      Nat.mod_eq_of_lt (Nat.lt_of_not_le negative)]

theorem toBits_ofBits {bits : UInt64} (notNaN : (ofBits bits).isNaN = false) :
    (ofBits bits).toBits = bits := by
  unfold ofBits at notNaN ⊢
  dsimp only at notNaN ⊢
  split at notNaN
  case isTrue small =>
    rw [dif_pos small, toBits, wordOfUnits_unitsOfWord]
    exact packBits_toNat bits
  case isFalse large =>
    rw [dif_neg large]
    split at notNaN
    case isTrue infinite =>
      rw [if_pos infinite, toBits, ← infinite]
      exact packBits_toNat bits
    case isFalse => contradiction

end ComplexFormula.Binary64

namespace ComplexFormula

-- A power of natural numbers is the core one here, whatever else is imported.
attribute [scoped instance (high)] instPowNat

/-- The whole number nearest to `num / den`; of two equally near, the even one. -/
def roundHalfEven (num den : Nat) : Nat :=
  let quotient := num / den
  let remainder := num % den
  if 2 * remainder < den ∨ (2 * remainder = den ∧ quotient % 2 = 0) then quotient else quotient + 1

theorem div_le_roundHalfEven (num den : Nat) : num / den ≤ roundHalfEven num den := by
  grind [roundHalfEven]

theorem roundHalfEven_le_div_add_one (num den : Nat) :
    roundHalfEven num den ≤ num / den + 1 := by
  grind [roundHalfEven]

/-- A number that `digits` binary digits hold, up to a power of two. -/
def FitsBits (digits n : Nat) : Prop :=
  ∃ m k : Nat, m < 2 ^ digits ∧ n = m * 2 ^ k

/-- The number nearest to `num / den` among the multiples of the power of two that leaves it
`digits` binary digits. A quotient with no more digits than that is rounded to a whole number. -/
def roundBits (digits num den : Nat) : Nat :=
  let step := 2 ^ ((num / den).log2 + 1 - digits)
  roundHalfEven num (den * step) * step

theorem fitsBits_zero (digits : Nat) : FitsBits digits 0 :=
  ⟨0, 0, Nat.two_pow_pos digits, rfl⟩

theorem fitsBits_two_pow {digits : Nat} (pos : 0 < digits) (k : Nat) : FitsBits digits (2 ^ k) :=
  ⟨1, k, Nat.one_lt_two_pow (by omega), (Nat.one_mul _).symm⟩

theorem fitsBits_roundBits {digits : Nat} (pos : 0 < digits) (num den : Nat) :
    FitsBits digits (roundBits digits num den) := by
  let k := (num / den).log2 + 1 - digits
  have quotientLt : num / (den * 2 ^ k) < 2 ^ digits := by
    rw [← Nat.div_div_eq_div_mul]
    apply Nat.div_lt_of_lt_mul
    calc num / den < 2 ^ ((num / den).log2 + 1) := Nat.lt_log2_self
      _ ≤ 2 ^ (k + digits) := Nat.pow_le_pow_right (by decide) (by omega)
      _ = 2 ^ k * 2 ^ digits := Nat.pow_add ..
  have roundedLe := roundHalfEven_le_div_add_one num (den * 2 ^ k)
  -- Rounding up may reach the next power of two, which needs one digit only.
  rcases Nat.lt_or_ge (roundHalfEven num (den * 2 ^ k)) (2 ^ digits) with fits | carry
  · exact ⟨_, k, fits, rfl⟩
  · have rounded : roundHalfEven num (den * 2 ^ k) = 2 ^ digits := by omega
    have total : roundBits digits num den = 2 ^ (digits + k) := by
      rw [Nat.pow_add, ← rounded]; rfl
    exact total ▸ fitsBits_two_pow pos _

/-- Four times the square root of `n`, cut to an even number, and one more if anything is cut off.
Rounded to half-units or coarser, its quarter goes where the square root itself goes. -/
def fourRoots (n : Nat) : Nat :=
  let root := Nat.sqrt (4 * n)
  if root * root = 4 * n then 2 * root else 2 * root + 1

end ComplexFormula

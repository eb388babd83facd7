import ComplexFormula.Proofs.Binary64.Arithmetic
import ComplexFormula.Proofs.Rounding

namespace ComplexFormula

theorem two_pow_mul_unitsPerOne (k : Nat) : 2 ^ k * unitsPerOne = 2 ^ (k + binaryPlaces) := by
  rw [unitsPerOne, Nat.pow_add]

theorem isMagnitude_mul_unitsPerOne {n : Nat} (le : n ≤ 2 ^ significandBits) :
    IsMagnitude (n * unitsPerOne) where
  lt_limit := by
    apply Nat.lt_of_le_of_lt (Nat.mul_le_mul_right unitsPerOne le)
    rw [two_pow_mul_unitsPerOne]
    exact Nat.pow_lt_pow_right Nat.one_lt_two (by decide : significandBits + binaryPlaces < magnitudeBits)
  fitsBits := by
    rcases Nat.lt_or_eq_of_le le with lt | rfl
    · exact ⟨n, binaryPlaces, lt, rfl⟩
    -- The limit itself has one digit more, but is a power of two.
    · rw [two_pow_mul_unitsPerOne]
      exact fitsBits_two_pow (by decide) _

namespace Binary64

/-- The number is finite and equal to the whole number, with any sign if that is zero. -/
def IsInt (x : Binary64) (n : Int) : Prop :=
  x.isFinite ∧ x.signedUnits = n * unitsPerOne

instance (x : Binary64) (n : Int) : Decidable (x.IsInt n) :=
  inferInstanceAs (Decidable (_ ∧ _))

def toInt (x : Binary64) : Int :=
  x.signedUnits / unitsPerOne

-- Their values, of hundreds of digits, are never needed.
attribute [local irreducible] unitsPerOne unitsLimit

theorem ofUnits_of_isMagnitude (negative : Bool) {units den : Nat} (isMagnitude : IsMagnitude units)
    (pos : 0 < den) : ofUnits negative (units * den) den = finite negative units isMagnitude := by
  simp only [ofUnits, roundBits_of_fitsBits isMagnitude.fitsBits pos, isMagnitude.lt_limit,
    dite_true]

theorem ofTotal_of_isMagnitude (negativeZero : Bool) {total : Int}
    (isMagnitude : IsMagnitude total.natAbs) :
    (ofTotal negativeZero total).isFinite ∧ (ofTotal negativeZero total).signedUnits = total := by
  have exact (negative : Bool) : ofUnits negative total.natAbs 1 = finite negative _ isMagnitude := by
    rw [← ofUnits_of_isMagnitude negative isMagnitude Nat.one_pos, Nat.mul_one]
  rw [ofTotal, exact]
  refine ⟨rfl, ?_⟩
  simp only [signedUnits, withSign]
  grind

namespace IsInt

variable {x y : Binary64} {m n : Int}

theorem exists_finite (isInt : x.IsInt n) : ∃ negative units isMagnitude,
    x = finite negative units isMagnitude ∧ withSign negative units = n * unitsPerOne := by
  obtain ⟨isFinite, units⟩ := isInt
  cases x with
  | nan | infinite _ => contradiction
  | finite negative magnitude isMagnitude => exact ⟨negative, magnitude, isMagnitude, rfl, units⟩

theorem toInt_eq (isInt : x.IsInt n) : x.toInt = n := by
  rw [toInt, isInt.2]
  exact Int.mul_ediv_cancel n (Int.natCast_ne_zero.2 (Nat.ne_of_gt unitsPerOne_pos))

theorem neg (isInt : x.IsInt n) : (-x).IsInt (-n) := by
  obtain ⟨negative, units, isMagnitude, rfl, total⟩ := isInt.exists_finite
  refine ⟨rfl, ?_⟩
  rw [neg_finite, Int.neg_mul, ← total]
  exact withSign_not negative units

theorem add (left : x.IsInt m) (right : y.IsInt n) (le : (m + n).natAbs ≤ 2 ^ significandBits) :
    (x + y).IsInt (m + n) := by
  obtain ⟨a, units, _, rfl, total⟩ := left.exists_finite
  obtain ⟨b, units', _, rfl, total'⟩ := right.exists_finite
  rw [finite_add_finite, total, total', ← Int.add_mul]
  apply ofTotal_of_isMagnitude
  rw [Int.natAbs_mul, Int.natAbs_natCast]
  exact isMagnitude_mul_unitsPerOne le

theorem sub (left : x.IsInt m) (right : y.IsInt n) (le : (m - n).natAbs ≤ 2 ^ significandBits) :
    (x - y).IsInt (m - n) := by
  rw [Binary64.sub_eq_add_neg, Int.sub_eq_add_neg] at *
  exact left.add right.neg le

theorem mul (left : x.IsInt m) (right : y.IsInt n) (le : (m * n).natAbs ≤ 2 ^ significandBits) :
    (x * y).IsInt (m * n) := by
  obtain ⟨a, units, _, rfl, total⟩ := left.exists_finite
  obtain ⟨b, units', _, rfl, total'⟩ := right.exists_finite
  have product : withSign (a ^^ b) (units * units') = m * n * unitsPerOne * unitsPerOne := by
    rw [withSign_xor_mul, total, total']
    ac_rfl
  have magnitude : units * units' = (m * n).natAbs * unitsPerOne * unitsPerOne := by
    rw [← natAbs_withSign (a ^^ b) (units * units'), product, Int.natAbs_mul, Int.natAbs_mul,
      Int.natAbs_natCast]
  rw [magnitude, withSign_mul] at product
  rw [finite_mul_finite, magnitude,
    ofUnits_of_isMagnitude _ (isMagnitude_mul_unitsPerOne le) unitsPerOne_pos]
  have nonzero : (unitsPerOne : Int) ≠ 0 := Int.natCast_ne_zero.2 (Nat.ne_of_gt unitsPerOne_pos)
  exact ⟨rfl, Int.eq_of_mul_eq_mul_right nonzero product⟩

end IsInt

end Binary64

end ComplexFormula

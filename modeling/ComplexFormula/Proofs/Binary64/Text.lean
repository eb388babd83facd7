import ComplexFormula.Binary64.Text
import ComplexFormula.Proofs.Decimal
import ComplexFormula.Proofs.Rounding

namespace ComplexFormula

namespace Decimal

def roundedUnits (d : Decimal) : Nat :=
  roundBits significandBits (d.coefficient * unitsPerOne) (10 ^ d.places)

-- Whatever number of places a unit takes: a count of steps is the decimal number written for it.
theorem roundBits_shift (digits count place unitPlaces : Nat) :
    roundBits digits (count * 10 ^ (place - unitPlaces) * 2 ^ unitPlaces) (10 ^ (unitPlaces - place)) =
      roundBits digits (count * 10 ^ place) (5 ^ unitPlaces) := by
  apply roundBits_congr (Nat.pow_pos (by omega)) (Nat.pow_pos (by omega))
  have shift : 10 ^ (place - unitPlaces) * 10 ^ unitPlaces = 10 ^ place * 10 ^ (unitPlaces - place) := by
    rw [← Nat.pow_add, ← Nat.pow_add]
    congr 1
    omega
  calc count * 10 ^ (place - unitPlaces) * 2 ^ unitPlaces * 5 ^ unitPlaces
      = count * (10 ^ (place - unitPlaces) * (2 * 5) ^ unitPlaces) := by rw [Nat.mul_pow]; ac_rfl
    _ = count * 10 ^ place * 10 ^ (unitPlaces - place) := by rw [shift]; ac_rfl

theorem roundedUnits_ofSteps (count place : Nat) :
    (ofSteps count place).roundedUnits = roundBits significandBits (count * 10 ^ place) stepsPerUnit :=
  roundBits_shift significandBits count place binaryPlaces

theorem roundedUnits_of_neighbour? {units place count : Nat}
    (found : neighbour? units place = some count) : (ofSteps count place).roundedUnits = units := by
  rw [roundedUnits_ofSteps]
  simp only [neighbour?] at found
  split at found
  case isTrue above =>
    split at found
    case isTrue below => exact Option.some.inj found ▸ below.1
    case isFalse => exact Option.some.inj found ▸ above
  case isFalse =>
    split at found
    case isTrue below => exact Option.some.inj found ▸ below
    case isFalse => contradiction

section

-- Their values, of hundreds of digits, are never needed.
attribute [local irreducible] unitsPerOne stepsPerUnit

theorem stepsPerUnit_pos : 0 < stepsPerUnit := by
  rw [stepsPerUnit]
  exact Nat.pow_pos (by decide)

theorem roundedUnits_shortestFrom {units : Nat} (fits : FitsBits significandBits units) (place : Nat) :
    (shortestFrom units place).roundedUnits = units := by
  induction place with
  | zero =>
    rw [shortestFrom, roundedUnits_ofSteps, Nat.pow_zero, Nat.mul_one]
    exact roundBits_of_fitsBits fits stepsPerUnit_pos
  | succ place ih =>
    rw [shortestFrom]
    cases found : neighbour? units (place + 1) with
    | some count => exact roundedUnits_of_neighbour? found
    | none => exact ih

theorem roundedUnits_shortest {units : Nat} (fits : FitsBits significandBits units) :
    (shortest units).roundedUnits = units := by
  unfold shortest
  split
  case isTrue zero =>
    rw [roundedUnits, zero, Nat.zero_mul]
    simpa using roundBits_of_fitsBits (fitsBits_zero significandBits) Nat.one_pos
  case isFalse => exact roundedUnits_shortestFrom fits _

end

end Decimal

namespace Binary64

theorem ofUnits_shortest (negative : Bool) {units : Nat} (isMagnitude : IsMagnitude units) :
    ofUnits negative ((Decimal.shortest units).coefficient * unitsPerOne)
      (10 ^ (Decimal.shortest units).places) = finite negative units isMagnitude := by
  have rounded := Decimal.roundedUnits_shortest isMagnitude.fitsBits
  rw [Decimal.roundedUnits] at rounded
  simp only [ofUnits, rounded, isMagnitude.lt_limit, dite_true]

theorem ofUnsignedChars?_of_digit (negative : Bool) {c : Char} (cs : List Char) (digit : c.isDigit) :
    ofUnsignedChars? negative (c :: cs) = (Decimal.ofChars? (c :: cs)).map fun d =>
      ofUnits negative (d.coefficient * unitsPerOne) (10 ^ d.places) := by
  have notInf : c :: cs ≠ "inf".toList := by
    rintro ⟨⟩
    contradiction
  rw [ofUnsignedChars?, if_neg notInf]

theorem ofUnsignedChars?_shortest (negative : Bool) {units : Nat} (isMagnitude : IsMagnitude units) :
    ofUnsignedChars? negative (Decimal.shortest units).chars =
      some (finite negative units isMagnitude) := by
  obtain ⟨c, cs, first, digit⟩ := (Decimal.shortest units).exists_chars_eq_cons
  rw [first, ofUnsignedChars?_of_digit negative cs digit, ← first, Decimal.ofChars?_chars,
    Option.map_some, ofUnits_shortest negative isMagnitude]

theorem ofChars?_of_digit {c : Char} (cs : List Char) (digit : c.isDigit) :
    ofChars? (c :: cs) = ofUnsignedChars? false (c :: cs) := by
  have notNaN : c :: cs ≠ "NaN".toList := by
    rintro ⟨⟩
    contradiction
  unfold ofChars?
  split
  case h_1 minus =>
    obtain ⟨rfl, -⟩ := List.cons.inj minus
    contradiction
  case h_2 => rw [if_neg notNaN]

theorem ofChars?_text (x : Binary64) : ofChars? x.text.toList = some x := by
  cases x with
  | nan => rfl
  | infinite negative => cases negative <;> rfl
  | finite negative units isMagnitude =>
    simp only [text, Decimal.text, String.toList_append, String.toList_ofList]
    cases negative with
    | true => exact ofUnsignedChars?_shortest true isMagnitude
    | false =>
      obtain ⟨c, cs, first, digit⟩ := (Decimal.shortest units).exists_chars_eq_cons
      have unsigned := ofUnsignedChars?_shortest false isMagnitude
      rw [first] at unsigned ⊢
      exact (ofChars?_of_digit cs digit).trans unsigned

def IsNumeral (c : Char) : Prop :=
  c.isDigit ∨ c ∈ ".-infNa".toList

instance (c : Char) : Decidable (IsNumeral c) :=
  inferInstanceAs (Decidable (_ ∨ _))

theorem isNumeral_of_mem_signText {negative : Bool} :
    ∀ c ∈ (signText negative).toList, IsNumeral c := by
  cases negative <;> simp [signText, IsNumeral]

theorem isNumeral_of_mem_text (x : Binary64) : ∀ c ∈ x.text.toList, IsNumeral c := by
  have inf : ∀ c ∈ "inf".toList, IsNumeral c := by simp [IsNumeral]
  intro c mem
  cases x with
  | nan =>
    have nan : ∀ c ∈ "NaN".toList, IsNumeral c := by simp [IsNumeral]
    exact nan c mem
  | infinite negative =>
    rw [text, String.toList_append] at mem
    exact (List.mem_append.1 mem).elim (isNumeral_of_mem_signText c) (inf c)
  | finite negative units isMagnitude =>
    rw [text, String.toList_append, Decimal.text, String.toList_ofList] at mem
    rcases List.mem_append.1 mem with sign | number
    · exact isNumeral_of_mem_signText c sign
    · rcases Decimal.mem_chars number with digit | rfl
      · exact .inl digit
      · decide

end Binary64

end ComplexFormula

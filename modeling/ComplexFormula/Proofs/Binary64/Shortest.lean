import ComplexFormula.Proofs.Binary64.Text
import ComplexFormula.Proofs.Nearest
import ComplexFormula.Proofs.SignificantDigits

namespace ComplexFormula

-- Their values, of hundreds of digits, are never needed.
attribute [local irreducible] unitsPerOne stepsPerUnit

variable {units : Nat}

namespace Decimal

theorem unitsPerOne_mul_stepsPerUnit : unitsPerOne * stepsPerUnit = 10 ^ binaryPlaces := by
  rw [unitsPerOne, stepsPerUnit, ← Nat.mul_pow]

theorem roundBits_steps_mono {steps steps' : Nat} (le : steps ≤ steps') :
    roundBits significandBits steps stepsPerUnit ≤ roundBits significandBits steps' stepsPerUnit :=
  roundBits_mono (by decide) stepsPerUnit_pos stepsPerUnit_pos (Nat.mul_le_mul_right _ le)

end Decimal

namespace ReadsBack

open Decimal (stepsPerUnit_pos roundBits_steps_mono)

theorem exact (fits : FitsBits significandBits units) : ReadsBack units (units * stepsPerUnit) :=
  roundBits_of_fitsBits fits stepsPerUnit_pos

theorem ne_zero {steps : Nat} (readsBack : ReadsBack units steps) (nonzero : units ≠ 0) :
    steps ≠ 0 := by
  rintro rfl
  exact nonzero (readsBack.symm.trans (roundBits_zero significandBits stepsPerUnit))

theorem of_between {steps lower upper : Nat} (readsLower : ReadsBack units lower)
    (readsUpper : ReadsBack units upper) (ge : lower ≤ steps) (le : steps ≤ upper) :
    ReadsBack units steps := by
  have lowerLe := roundBits_steps_mono ge
  have leUpper := roundBits_steps_mono le
  rw [readsLower] at lowerLe
  rw [readsUpper] at leUpper
  exact Nat.le_antisymm leUpper lowerLe

theorem lt_double {steps : Nat} (readsBack : ReadsBack units steps)
    (fits : FitsBits significandBits units)
    (nonzero : units ≠ 0) : steps < units * 2 * stepsPerUnit := by
  by_contra ge
  -- The double fits the digits too, so it is read as itself.
  have doubleLe := le_roundBits (by decide) stepsPerUnit_pos (fitsBits_mul_two fits)
    (Nat.le_of_not_lt ge)
  rw [readsBack] at doubleLe
  omega

end ReadsBack

namespace Decimal

theorem not_readsBack_of_neighbour?_eq_none (fits : FitsBits significandBits units) {place : Nat}
    (none : neighbour? units place = none) (count : Nat) : ¬ ReadsBack units (count * 10 ^ place) := by
  intro readsBack
  have exact := ReadsBack.exact fits
  simp only [neighbour?] at none
  split at none
  case isTrue => split at none <;> contradiction
  case isFalse notAbove =>
    split at none
    case isTrue => contradiction
    case isFalse notBelow =>
      rcases Nat.lt_or_ge (units * stepsPerUnit / 10 ^ place) count with beyond | within
      · apply notAbove
        apply exact.of_between readsBack _ (Nat.mul_le_mul_right _ beyond)
        exact Nat.le_of_lt (Nat.lt_mul_of_div_lt (Nat.lt_succ_self _) (ten_pow_pos place))
      · apply notBelow
        exact readsBack.of_between exact (Nat.mul_le_mul_right _ within) (Nat.div_mul_le_self ..)

/-- A count of multiples that reads back while no multiple of the next power of ten does. -/
structure IsShortest (units count place : Nat) : Prop where
  readsBack : ReadsBack units (count * 10 ^ place)
  coarser : ∀ multiple, ¬ ReadsBack units (multiple * 10 ^ (place + 1))

theorem lt_ten_pow_leadingPlace (steps : Nat) : steps < 10 ^ leadingPlace steps := by
  let bits := steps.log2 + 1
  have powers : (2 ^ bits) ^ 93 ≤ (10 ^ leadingPlace steps) ^ 93 :=
    calc (2 ^ bits) ^ 93 = (2 ^ 93) ^ bits := Nat.pow_right_comm ..
      _ ≤ (10 ^ 28) ^ bits := Nat.pow_le_pow_left (by decide) bits
      _ = 10 ^ (28 * bits) := (Nat.pow_mul ..).symm
      _ ≤ 10 ^ (leadingPlace steps * 93) := by
        apply Nat.pow_le_pow_right (by decide)
        simp only [leadingPlace]
        omega
      _ = (10 ^ leadingPlace steps) ^ 93 := Nat.pow_mul ..
  exact Nat.lt_log2_self.trans_le ((Nat.pow_le_pow_iff_left (by decide)).1 powers)

theorem not_readsBack_above_leadingPlace (fits : FitsBits significandBits units) (nonzero : units ≠ 0)
    (multiple : Nat) :
    ¬ ReadsBack units (multiple * 10 ^ (leadingPlace (units * stepsPerUnit) + 1)) := by
  intro readsBack
  have multiplePos := Nat.pos_of_mul_pos_right (Nat.pos_of_ne_zero (readsBack.ne_zero nonzero))
  have above := lt_ten_pow_leadingPlace (units * stepsPerUnit)
  have small := readsBack.lt_double fits nonzero
  have large := Nat.le_mul_of_pos_left (10 ^ (leadingPlace (units * stepsPerUnit) + 1)) multiplePos
  rw [Nat.mul_right_comm] at small
  rw [Nat.pow_succ] at small large
  omega

theorem exists_isShortest_shortestFrom (fits : FitsBits significandBits units) {place : Nat}
    (coarser : ∀ multiple, ¬ ReadsBack units (multiple * 10 ^ (place + 1))) :
    ∃ count place', shortestFrom units place = ofSteps count place' ∧
      IsShortest units count place' := by
  induction place with
  | zero =>
    refine ⟨units * stepsPerUnit, 0, rfl, ?_, coarser⟩
    rw [Nat.pow_zero, Nat.mul_one]
    exact ReadsBack.exact fits
  | succ place ih =>
    rw [shortestFrom]
    cases found : neighbour? units (place + 1) with
    | some count =>
      refine ⟨count, place + 1, rfl, ?_, coarser⟩
      rw [ReadsBack, ← roundedUnits_ofSteps]
      exact roundedUnits_of_neighbour? found
    | none => exact ih (not_readsBack_of_neighbour?_eq_none fits found)

theorem exists_isShortest (fits : FitsBits significandBits units) (nonzero : units ≠ 0) :
    ∃ count place, shortest units = ofSteps count place ∧ IsShortest units count place := by
  rw [shortest, if_neg nonzero]
  exact exists_isShortest_shortestFrom fits (not_readsBack_above_leadingPlace fits nonzero)

section

variable {d : Decimal} {steps : Nat}

theorem roundBits_of_eq (same : d.coefficient * 10 ^ binaryPlaces = steps * 10 ^ d.places) :
    roundBits significandBits steps stepsPerUnit = d.roundedUnits := by
  apply roundBits_congr stepsPerUnit_pos (ten_pow_pos d.places)
  rw [Nat.mul_assoc, unitsPerOne_mul_stepsPerUnit, same]

theorem roundedUnits_le (le : d.coefficient * 10 ^ binaryPlaces ≤ steps * 10 ^ d.places) :
    d.roundedUnits ≤ roundBits significandBits steps stepsPerUnit := by
  apply roundBits_mono (by decide) (ten_pow_pos d.places) stepsPerUnit_pos
  rwa [Nat.mul_assoc, unitsPerOne_mul_stepsPerUnit]

end

namespace IsShortest

variable {count place : Nat}

theorem mod_ten_ne_zero (isShortest : IsShortest units count place) : count % 10 ≠ 0 := by
  intro zero
  obtain ⟨multiple, rfl⟩ := Nat.dvd_of_mod_eq_zero zero
  apply isShortest.coarser multiple
  have readsBack := isShortest.readsBack
  rwa [Nat.mul_comm 10, Nat.mul_assoc, ← Nat.pow_add_one'] at readsBack

theorem le_place (isShortest : IsShortest units count place) {d : Decimal}
    (rounded : d.roundedUnits = units) {m zeros : Nat} (value : d.coefficient = m * 10 ^ zeros) :
    zeros + binaryPlaces ≤ place + d.places := by
  by_contra coarse
  -- Then the decimal number is a multiple of the next power of ten.
  obtain ⟨k, shift⟩ := Nat.exists_eq_add_of_lt (Nat.lt_of_not_le coarse)
  apply isShortest.coarser (m * 10 ^ k)
  refine (roundBits_of_eq ?_).trans rounded
  calc d.coefficient * 10 ^ binaryPlaces = m * 10 ^ (zeros + binaryPlaces) := by
        rw [value, Nat.mul_assoc, Nat.pow_add]
    _ = m * 10 ^ (k + (place + 1) + d.places) := by
        congr 2
        omega
    _ = m * 10 ^ k * 10 ^ (place + 1) * 10 ^ d.places := by
        rw [Nat.pow_add, Nat.pow_add 10 k, Nat.mul_assoc, Nat.mul_assoc, Nat.mul_assoc]

theorem lt_of_roundedUnits (isShortest : IsShortest units count place) (nonzero : units ≠ 0)
    {d : Decimal} (rounded : d.roundedUnits = units) {m n zeros : Nat}
    (value : d.coefficient = m * 10 ^ zeros) (small : m < 10 ^ n) : count < 10 ^ n := by
  have fine := isShortest.le_place rounded value
  by_contra large
  cases n with
  | zero =>
    have mZero : m = 0 := Nat.lt_one_iff.1 small
    rw [roundedUnits, value, mZero, Nat.zero_mul, Nat.zero_mul, roundBits_zero] at rounded
    exact nonzero rounded.symm
  | succ n =>
    have regroup : 10 ^ n * 10 ^ (place + 1) = 10 ^ (n + 1) * 10 ^ place := by
      rw [Nat.pow_succ, Nat.pow_succ]
      ac_rfl
    have below : d.coefficient * 10 ^ binaryPlaces ≤ 10 ^ (n + 1) * 10 ^ place * 10 ^ d.places :=
      calc d.coefficient * 10 ^ binaryPlaces = m * 10 ^ (zeros + binaryPlaces) := by
            rw [value, Nat.mul_assoc, Nat.pow_add]
        _ ≤ 10 ^ (n + 1) * 10 ^ (place + d.places) :=
            Nat.mul_le_mul (Nat.le_of_lt small) (Nat.pow_le_pow_right (by decide) fine)
        _ = 10 ^ (n + 1) * 10 ^ place * 10 ^ d.places := by
            rw [Nat.pow_add 10 place, Nat.mul_assoc]
    have above : 10 ^ (n + 1) * 10 ^ place ≤ count * 10 ^ place :=
      Nat.mul_le_mul_right _ (Nat.le_of_not_lt large)
    -- This power of ten lies between both numbers, and it is a multiple of the one at the next place.
    apply isShortest.coarser (10 ^ n)
    rw [regroup]
    apply Nat.le_antisymm
    · exact (roundBits_steps_mono above).trans_eq isShortest.readsBack
    · rw [← rounded]
      exact roundedUnits_le below

end IsShortest

theorem precision_shortest_le (fits : FitsBits significandBits units) {chars : List Char} {d : Decimal}
    (read : ofChars? chars = some d) (rounded : d.roundedUnits = units) :
    precision (shortest units).chars ≤ precision chars := by
  have written := coefficient_of_ofChars? (ofChars?_chars (shortest units))
  by_cases nonzero : units = 0
  · have zero : (shortest units).coefficient = 0 * 10 ^ 0 := by
      rw [shortest, if_pos nonzero]
      rfl
    exact (precision_le (written.symm.trans zero) Nat.one_pos).trans (Nat.zero_le _)
  · obtain ⟨count, place, eq, isShortest⟩ := exists_isShortest fits nonzero
    obtain ⟨m, zeros, value, small⟩ := exists_value chars
    rw [← coefficient_of_ofChars? read] at value
    rw [eq] at written ⊢
    exact precision_le written.symm (isShortest.lt_of_roundedUnits nonzero rounded value small)

/-- No digit of a text could be left out: no zero stands at the end behind the point. -/
def IsTrimmed (d : Decimal) : Prop :=
  d.places = 0 ∨ d.coefficient % 10 ≠ 0

theorem isTrimmed_shortest (fits : FitsBits significandBits units) : (shortest units).IsTrimmed := by
  by_cases nonzero : units = 0
  · left
    rw [shortest, if_pos nonzero]
  · obtain ⟨count, place, eq, isShortest⟩ := exists_isShortest fits nonzero
    rw [eq]
    rcases Nat.lt_or_ge place binaryPlaces with fractional | whole
    · right
      have coefficient : (ofSteps count place).coefficient = count := by
        rw [ofSteps, Nat.sub_eq_zero_of_le (Nat.le_of_lt fractional), Nat.pow_zero, Nat.mul_one]
      rw [coefficient]
      exact isShortest.mod_ten_ne_zero
    · left
      rw [ofSteps, Nat.sub_eq_zero_of_le whole]

end Decimal

namespace Binary64

open Decimal (precision)

/-- The form of a number's text: the name of an infinity, or digits in their places, with no
exponent. -/
inductive IsPositional : String → Prop where
  | infinite (negative : Bool) : IsPositional (signText negative ++ "inf")
  | decimal (negative : Bool) (d : Decimal) (isTrimmed : d.IsTrimmed) :
    IsPositional (signText negative ++ d.text)

structure IsShortestText (x : Binary64) (text : String) : Prop where
  isPositional : IsPositional text
  precision_le : ∀ chars, ofChars? chars = some x → precision text.toList ≤ precision chars

theorem precision_signText (negative : Bool) (chars : List Char) :
    precision ((signText negative).toList ++ chars) = precision chars := by
  cases negative <;> simp [precision, Decimal.significant, signText]

theorem roundBits_eq_of_ofUnits {sign negative : Bool} {num den units : Nat}
    {isMagnitude : IsMagnitude units} (rounded : ofUnits sign num den = finite negative units isMagnitude) :
    roundBits significandBits num den = units := by
  simp only [ofUnits] at rounded
  split at rounded
  case isTrue => exact (finite.inj rounded).2
  case isFalse => contradiction

theorem exists_of_ofUnsignedChars? {chars : List Char} {sign negative : Bool} {units : Nat}
    {isMagnitude : IsMagnitude units}
    (read : ofUnsignedChars? sign chars = some (finite negative units isMagnitude)) :
    ∃ d, Decimal.ofChars? chars = some d ∧ d.roundedUnits = units := by
  unfold ofUnsignedChars? at read
  split at read
  case isTrue => cases Option.some.inj read
  case isFalse =>
    obtain ⟨d, readDecimal, rounded⟩ := Option.map_eq_some_iff.1 read
    exact ⟨d, readDecimal, roundBits_eq_of_ofUnits rounded⟩

theorem exists_of_ofChars? {chars : List Char} {negative : Bool} {units : Nat}
    {isMagnitude : IsMagnitude units} (read : ofChars? chars = some (finite negative units isMagnitude)) :
    ∃ unsigned d, precision unsigned = precision chars ∧ Decimal.ofChars? unsigned = some d ∧
      d.roundedUnits = units := by
  unfold ofChars? at read
  split at read
  case h_1 unsigned =>
    obtain ⟨d, readDecimal, rounded⟩ := exists_of_ofUnsignedChars? read
    exact ⟨unsigned, d, (precision_signText true unsigned).symm, readDecimal, rounded⟩
  case h_2 =>
    split at read
    case isTrue => cases Option.some.inj read
    case isFalse =>
      obtain ⟨d, readDecimal, rounded⟩ := exists_of_ofUnsignedChars? read
      exact ⟨chars, d, rfl, readDecimal, rounded⟩

theorem isShortestText_text (x : Binary64) (notNaN : x.isNaN = false) : x.IsShortestText x.text := by
  cases x with
  | nan => contradiction
  | infinite negative =>
    refine ⟨.infinite negative, fun chars _ => ?_⟩
    have none : precision (signText negative ++ "inf").toList = 0 := by
      cases negative <;> decide
    exact none ▸ Nat.zero_le _
  | finite negative units isMagnitude =>
    refine ⟨.decimal negative _ (Decimal.isTrimmed_shortest isMagnitude.fitsBits), fun chars read => ?_⟩
    obtain ⟨unsigned, d, same, readDecimal, rounded⟩ := exists_of_ofChars? read
    rw [← same, text, String.toList_append, precision_signText, Decimal.text, String.toList_ofList]
    exact Decimal.precision_shortest_le isMagnitude.fitsBits readDecimal rounded

end Binary64

end ComplexFormula

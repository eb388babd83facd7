import Mathlib.Data.List.TakeWhile
import ComplexFormula.Decimal

namespace ComplexFormula.Decimal

theorem isDigit_of_mem_digits {d : Decimal} {c : Char} (mem : c ∈ d.digits) : c.isDigit := by
  simp only [digits, List.leftpad, List.mem_append, List.mem_replicate] at mem
  rcases mem with ⟨-, rfl⟩ | mem
  · rfl
  · exact Nat.isDigit_of_mem_toDigits (by omega) (by omega) mem

theorem places_lt_length_digits (d : Decimal) : d.places < d.digits.length := by
  simp only [digits, List.leftpad, List.length_append, List.length_replicate]
  omega

theorem ofDigitChars_digits (d : Decimal) : Nat.ofDigitChars 10 d.digits 0 = d.coefficient := by
  simp [digits, List.leftpad, Nat.ofDigitChars_append, Nat.ofDigitChars_replicate_zero,
    Nat.ofDigitChars_ten_toDigits]

theorem ofDigits?_digits (d : Decimal) : ofDigits? d.digits d.places = some d := by
  have allDigits : d.digits.all Char.isDigit := List.all_eq_true.2 fun _ => isDigit_of_mem_digits
  simp [ofDigits?, allDigits, places_lt_length_digits, ofDigitChars_digits]

theorem ofChars?_point {whole fraction : List Char} (digits : ∀ c ∈ whole, c.isDigit) :
    ofChars? (whole ++ '.' :: fraction) = ofDigits? (whole ++ fraction) fraction.length := by
  have taken : (whole ++ '.' :: fraction).takeWhile Char.isDigit = whole := by
    simp [List.takeWhile_append_of_pos digits]
  have dropped : (whole ++ '.' :: fraction).dropWhile Char.isDigit = '.' :: fraction := by
    simp [List.dropWhile_append_of_pos digits]
  simp only [ofChars?, taken, dropped]

theorem ofChars?_digits {whole : List Char} (digits : ∀ c ∈ whole, c.isDigit) :
    ofChars? whole = ofDigits? whole 0 := by
  have taken : whole.takeWhile Char.isDigit = whole := List.takeWhile_eq_self_iff.2 digits
  have dropped : whole.dropWhile Char.isDigit = [] := List.dropWhile_eq_nil_iff.2 digits
  simp only [ofChars?, taken, dropped]

theorem ofChars?_chars (d : Decimal) : ofChars? d.chars = some d := by
  unfold chars
  split
  case isTrue whole =>
    rw [ofChars?_digits fun _ => isDigit_of_mem_digits, ← whole, ofDigits?_digits]
  case isFalse =>
    rw [ofChars?_point fun _ mem => isDigit_of_mem_digits (List.mem_of_mem_take mem),
      List.take_append_drop, List.length_drop]
    have := d.places_lt_length_digits
    rw [show d.digits.length - (d.digits.length - d.places) = d.places by omega, ofDigits?_digits]

theorem mem_chars {d : Decimal} {c : Char} (mem : c ∈ d.chars) : c.isDigit ∨ c = '.' := by
  unfold chars at mem
  split at mem
  case isTrue => exact .inl (isDigit_of_mem_digits mem)
  case isFalse =>
    rcases List.mem_append.1 mem with front | back
    · exact .inl (isDigit_of_mem_digits (List.mem_of_mem_take front))
    · rcases List.mem_cons.1 back with point | back
      · exact .inr point
      · exact .inl (isDigit_of_mem_digits (List.mem_of_mem_drop back))

theorem exists_chars_eq_cons (d : Decimal) : ∃ c cs, d.chars = c :: cs ∧ c.isDigit := by
  have placesLt := d.places_lt_length_digits
  obtain ⟨c, cs, first⟩ := List.exists_cons_of_length_pos (Nat.zero_lt_of_lt placesLt)
  have digit : c.isDigit := isDigit_of_mem_digits (first ▸ List.mem_cons_self)
  unfold chars
  split
  case isTrue => exact ⟨c, cs, first, digit⟩
  case isFalse =>
    obtain ⟨k, whole⟩ := Nat.exists_eq_add_of_lt placesLt
    rw [show d.digits.length - d.places = k + 1 by omega, first]
    exact ⟨c, _, rfl, digit⟩

end ComplexFormula.Decimal

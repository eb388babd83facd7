import Mathlib.Algebra.Order.Ring.Nat
import Mathlib.Data.List.DropRight
import Mathlib.Data.List.TakeWhile
import Mathlib.Data.Nat.Init
import ComplexFormula.Proofs.Decimal
import ComplexFormula.Rounding

namespace ComplexFormula.Decimal

def significant (chars : List Char) : List Char :=
  ((chars.filter Char.isDigit).dropWhile (· == '0')).rdropWhile (· == '0')

def precision (chars : List Char) : Nat :=
  (significant chars).length

def IsDigits (digits : List Char) : Prop :=
  ∀ c ∈ digits, c.isDigit

theorem digit_le {c : Char} (digit : c.isDigit) : c.toNat - '0'.toNat ≤ 9 := by
  have bounds := Char.isDigit_iff_toNat.1 digit
  simp only [Char.reduceToNat] at bounds ⊢
  omega

theorem digit_pos {c : Char} (digit : c.isDigit) (nonzero : c ≠ '0') : 0 < c.toNat - '0'.toNat := by
  have bounds := Char.isDigit_iff_toNat.1 digit
  have codeNe : c.toNat ≠ '0'.toNat := fun same => nonzero (Char.toNat_inj.1 same)
  simp only [Char.reduceToNat] at bounds codeNe ⊢
  omega

theorem ofDigitChars_cons_eq (c : Char) (digits : List Char) :
    Nat.ofDigitChars 10 (c :: digits) 0 =
      10 ^ digits.length * (c.toNat - '0'.toNat) + Nat.ofDigitChars 10 digits 0 := by
  rw [Nat.ofDigitChars_cons, Nat.mul_zero, Nat.zero_add, Nat.ofDigitChars_eq_ofDigitChars_zero]

theorem ofDigitChars_lt {digits : List Char} (isDigits : IsDigits digits) :
    Nat.ofDigitChars 10 digits 0 < 10 ^ digits.length := by
  induction digits with
  | nil => simp
  | cons c digits ih =>
    obtain ⟨digit, rest⟩ := List.forall_mem_cons.1 isDigits
    have restLt := ih rest
    have first := Nat.mul_le_mul_left (10 ^ digits.length) (digit_le digit)
    rw [ofDigitChars_cons_eq, List.length_cons, Nat.pow_succ]
    omega

theorem pow_length_le_ofDigitChars {digits : List Char} (isDigits : IsDigits digits)
    (nonempty : digits ≠ []) (first : digits.head nonempty ≠ '0') :
    10 ^ (digits.length - 1) ≤ Nat.ofDigitChars 10 digits 0 := by
  cases digits with
  | nil => contradiction
  | cons c digits =>
    have pos := digit_pos (isDigits c List.mem_cons_self) first
    rw [ofDigitChars_cons_eq, List.length_cons, Nat.add_sub_cancel]
    exact le_add_right (Nat.le_mul_of_pos_right _ pos)

theorem ofDigitChars_mod_ten_ne_zero {digits : List Char} (isDigits : IsDigits digits)
    (nonempty : digits ≠ []) (last : digits.getLast nonempty ≠ '0') :
    Nat.ofDigitChars 10 digits 0 % 10 ≠ 0 := by
  have digit := isDigits _ (List.getLast_mem nonempty)
  have pos := digit_pos digit last
  have le := digit_le digit
  rw [← List.dropLast_append_getLast nonempty, Nat.ofDigitChars_append, Nat.ofDigitChars_cons,
    Nat.ofDigitChars_nil]
  omega

section

variable {chars : List Char}

theorem isDigits_significant (chars : List Char) : IsDigits (significant chars) := by
  intro c mem
  have filtered : c ∈ chars.filter Char.isDigit :=
    (List.dropWhile_suffix _).subset ((List.rdropWhile_prefix _ _).subset mem)
  exact (List.mem_filter.1 filtered).2

theorem eq_replicate_of_forall {digits : List Char} (zeros : ∀ c ∈ digits, (c == '0') = true) :
    digits = List.replicate digits.length '0' :=
  List.eq_replicate_of_mem fun c mem => eq_of_beq (zeros c mem)

theorem exists_ofDigitChars_eq (chars : List Char) :
    ∃ zeros, Nat.ofDigitChars 10 (chars.filter Char.isDigit) 0 =
      Nat.ofDigitChars 10 (significant chars) 0 * 10 ^ zeros := by
  let digits := chars.filter Char.isDigit
  let rest := digits.dropWhile (· == '0')
  have front : digits = List.replicate (digits.takeWhile (· == '0')).length '0' ++ rest := by
    rw [← eq_replicate_of_forall fun _ => List.mem_takeWhile_imp]
    exact List.takeWhile_append_dropWhile.symm
  obtain ⟨zeros, back⟩ : ∃ zeros, rest = significant chars ++ List.replicate zeros '0' := by
    refine ⟨(rest.rtakeWhile (· == '0')).length, ?_⟩
    rw [← eq_replicate_of_forall fun _ => List.mem_rtakeWhile_imp]
    exact List.rdropWhile_append_rtakeWhile.symm
  -- Zeros in front count for nothing, and each one at the end is a factor of ten.
  refine ⟨zeros, ?_⟩
  change Nat.ofDigitChars 10 digits 0 = _
  rw [front, Nat.ofDigitChars_append, Nat.ofDigitChars_replicate_zero, Nat.mul_zero, back,
    Nat.ofDigitChars_append, Nat.ofDigitChars_replicate_zero, Nat.mul_comm]

theorem head_significant_ne_zero (nonempty : significant chars ≠ []) :
    (significant chars).head nonempty ≠ '0' := by
  intro zero
  have isPrefix := List.rdropWhile_prefix (· == '0')
    ((chars.filter Char.isDigit).dropWhile (· == '0'))
  have first := List.head_dropWhile_not (· == '0') (isPrefix.ne_nil nonempty)
  rw [← isPrefix.head nonempty, beq_eq_false_iff_ne] at first
  exact first zero

theorem getLast_significant_ne_zero (nonempty : significant chars ≠ []) :
    (significant chars).getLast nonempty ≠ '0' := fun zero =>
  List.rdropWhile_last_not _ _ nonempty (beq_iff_eq.2 zero)

theorem ten_pow_pos (n : Nat) : 0 < 10 ^ n :=
  Nat.pow_pos (by decide)

theorem le_of_mul_pow_eq {a b zeros places : Nat} (same : a * 10 ^ zeros = b * 10 ^ places)
    (last : a % 10 ≠ 0) : a ≤ b := by
  rcases Nat.lt_or_ge zeros places with fewer | reaches
  · obtain ⟨k, rfl⟩ := Nat.exists_eq_add_of_lt fewer
    have factor : a = b * 10 ^ k * 10 := by
      apply Nat.eq_of_mul_eq_mul_right (ten_pow_pos zeros)
      rw [same, Nat.pow_succ, Nat.pow_add]
      ac_rfl
    exact absurd (factor ▸ Nat.mul_mod_left _ 10) last
  · obtain ⟨k, rfl⟩ := Nat.exists_eq_add_of_le reaches
    have multiple : b = a * 10 ^ k := by
      apply Nat.eq_of_mul_eq_mul_right (ten_pow_pos places)
      rw [← same, Nat.pow_add]
      ac_rfl
    exact multiple ▸ Nat.le_mul_of_pos_right a (ten_pow_pos k)

theorem precision_le {m n places : Nat}
    (value : Nat.ofDigitChars 10 (chars.filter Char.isDigit) 0 = m * 10 ^ places)
    (small : m < 10 ^ n) : precision chars ≤ n := by
  by_cases empty : significant chars = []
  · simp [precision, empty]
  obtain ⟨zeros, exact⟩ := exists_ofDigitChars_eq chars
  have isDigits := isDigits_significant chars
  have first := pow_length_le_ofDigitChars isDigits empty (head_significant_ne_zero empty)
  have last := ofDigitChars_mod_ten_ne_zero isDigits empty (getLast_significant_ne_zero empty)
  have le := le_of_mul_pow_eq (exact.symm.trans value) last
  have lengthLt : (significant chars).length - 1 < n :=
    (Nat.pow_lt_pow_iff_right (by decide)).1 (first.trans_lt (le.trans_lt small))
  unfold precision
  omega

theorem exists_value (chars : List Char) :
    ∃ m zeros, Nat.ofDigitChars 10 (chars.filter Char.isDigit) 0 = m * 10 ^ zeros ∧
      m < 10 ^ precision chars := by
  obtain ⟨zeros, exact⟩ := exists_ofDigitChars_eq chars
  exact ⟨_, zeros, exact, ofDigitChars_lt (isDigits_significant chars)⟩

theorem filter_isDigit {digits : List Char} (isDigits : IsDigits digits) :
    digits.filter Char.isDigit = digits :=
  List.filter_eq_self.2 isDigits

theorem ofDigits?_eq_some {digits : List Char} {places : Nat} {d : Decimal}
    (read : ofDigits? digits places = some d) :
    IsDigits digits ∧ d.coefficient = Nat.ofDigitChars 10 digits 0 := by
  unfold ofDigits? at read
  split at read
  case isTrue valid =>
    obtain rfl := Option.some.inj read
    exact ⟨List.all_eq_true.1 (Bool.and_eq_true_iff.1 valid).1, rfl⟩
  case isFalse => contradiction

theorem filter_point {whole fraction : List Char} (wholeDigits : IsDigits whole)
    (fractionDigits : IsDigits fraction) :
    (whole ++ '.' :: fraction).filter Char.isDigit = whole ++ fraction := by
  rw [List.filter_append, List.filter_cons_of_neg (by decide), filter_isDigit wholeDigits,
    filter_isDigit fractionDigits]

theorem coefficient_of_ofChars? {d : Decimal} (read : ofChars? chars = some d) :
    d.coefficient = Nat.ofDigitChars 10 (chars.filter Char.isDigit) 0 := by
  have whole : IsDigits (chars.takeWhile Char.isDigit) := fun _ => List.mem_takeWhile_imp
  have split : chars.takeWhile Char.isDigit ++ chars.dropWhile Char.isDigit = chars :=
    List.takeWhile_append_dropWhile
  unfold ofChars? at read
  dsimp only at read
  split at read
  case h_1 nothing =>
    rw [nothing, List.append_nil] at split
    rw [split] at whole read
    rw [filter_isDigit whole, (ofDigits?_eq_some read).2]
  case h_2 fraction point =>
    obtain ⟨isDigits, value⟩ := ofDigits?_eq_some read
    obtain ⟨-, fractionDigits⟩ := List.forall_mem_append.1 isDigits
    rw [point] at split
    rw [value, ← filter_point whole fractionDigits, split]
  case h_3 => contradiction

end

end ComplexFormula.Decimal

import Mathlib.Tactic.SplitIfs

namespace ComplexFormula

def utf8Bytes (text : String) : List UInt8 :=
  text.toUTF8.data.toList

def codePoints (text : String) : List Nat :=
  text.toList.map Char.toNat

section

variable {α : Type} [LT α] {encode : Char → List α}

theorem flatMap_lt_flatMap (nonempty : ∀ c, encode c ≠ [])
    (keeps : ∀ c d, c < d → ∀ xs ys, encode c ++ xs < encode d ++ ys) {x y : List Char}
    (less : x < y) : x.flatMap encode < y.flatMap encode := by
  induction List.lex_lt.2 less with
  | @nil c y =>
    obtain ⟨a, as, first⟩ := List.exists_cons_of_ne_nil (nonempty c)
    rw [List.flatMap_nil, List.flatMap_cons, first]
    exact List.nil_lt_cons a _
  | @cons c x y rest ih =>
    rw [List.flatMap_cons, List.flatMap_cons]
    exact List.append_left_lt (ih (List.lex_lt.1 rest))
  | rel smaller =>
    rw [List.flatMap_cons, List.flatMap_cons]
    exact keeps _ _ smaller _ _

theorem flatMap_lt_flatMap_iff [Std.Asymm (· < · : α → α → Prop)] (nonempty : ∀ c, encode c ≠ [])
    (keeps : ∀ c d, c < d → ∀ xs ys, encode c ++ xs < encode d ++ ys) {x y : String} :
    x.toList.flatMap encode < y.toList.flatMap encode ↔ x < y := by
  refine ⟨fun less => Decidable.byContradiction fun notLess => ?_,
    flatMap_lt_flatMap nonempty keeps⟩
  have asymm := List.lt_asymm less
  have notGreater : ¬ y < x := fun greater => asymm (flatMap_lt_flatMap nonempty keeps greater)
  have equal : x = y := String.le_antisymm (String.not_lt.1 notGreater) (String.not_lt.1 notLess)
  subst equal
  exact asymm less

end

def continuationBytes : Nat → Nat → List UInt8
  | 0, _ => []
  | count + 1, point => continuationBytes count (point / 64) ++ [UInt8.ofNat (point % 64 + 128)]

def leadingPart : Nat → Nat → Nat
  | 0, point => point
  | count + 1, point => leadingPart count (point / 64)

def continuations (point : Nat) : Nat :=
  if point ≤ 127 then 0 else if point ≤ 2047 then 1 else if point ≤ 65535 then 2 else 3

def leadingMark : Nat → Nat
  | 0 => 0
  | 1 => 192
  | 2 => 224
  | _ => 240

def leadingByte (point : Nat) : Nat :=
  leadingMark (continuations point) + leadingPart (continuations point) point

theorem ofNat_lt_ofNat {m n : Nat} (less : m < n) (bound : n < 256) :
    UInt8.ofNat m < UInt8.ofNat n := by
  rw [UInt8.lt_iff_toNat_lt, UInt8.toNat_ofNat', UInt8.toNat_ofNat']
  omega

theorem continuationBytes_append_lt {count m n : Nat} (less : m < n)
    (same : leadingPart count m = leadingPart count n) (xs ys : List UInt8) :
    continuationBytes count m ++ xs < continuationBytes count n ++ ys := by
  induction count generalizing m n xs ys with
  | zero => exact absurd same (Nat.ne_of_lt less)
  | succ count ih =>
    simp only [continuationBytes, List.append_assoc]
    by_cases quotient : m / 64 = n / 64
    · rw [quotient]
      exact List.append_left_lt (List.cons_lt_cons_iff.2 (.inl (ofNat_lt_ofNat (by omega) (by omega))))
    · exact ih (by omega) same _ _

theorem leadingByte_lt {m n : Nat} (less : m < n) : leadingByte m < leadingByte n ∨
    leadingByte m = leadingByte n ∧ continuations m = continuations n ∧
      leadingPart (continuations m) m = leadingPart (continuations m) n := by
  grind [leadingByte, leadingMark, leadingPart, continuations]

theorem toNat_lt (c : Char) : c.toNat < 0x110000 := by
  grind [c.valid, Char.toNat]

theorem leadingByte_lt_256 (c : Char) : leadingByte c.toNat < 256 := by
  grind [leadingByte, leadingMark, leadingPart, continuations, toNat_lt c]

theorem utf8EncodeChar_eq (c : Char) : String.utf8EncodeChar c =
    UInt8.ofNat (leadingByte c.toNat) :: continuationBytes (continuations c.toNat) c.toNat := by
  have limit := toNat_lt c
  have two : c.toNat ≤ 2047 → c.toNat / 64 % 32 + 192 = 192 + c.toNat / 64 := by omega
  have three : c.toNat ≤ 65535 → c.toNat / 4096 % 16 + 224 = 224 + c.toNat / 4096 := by omega
  have four : c.toNat / 262144 % 8 + 240 = 240 + c.toNat / 262144 := by omega
  simp only [String.utf8EncodeChar, leadingByte, continuations, Char.toNat] at *
  split_ifs <;> simp_all [continuationBytes, leadingMark, leadingPart, Nat.div_div_eq_div_mul]

theorem utf8EncodeChar_append_lt (c d : Char) (less : c < d) (xs ys : List UInt8) :
    String.utf8EncodeChar c ++ xs < String.utf8EncodeChar d ++ ys := by
  rw [utf8EncodeChar_eq, utf8EncodeChar_eq, List.cons_append, List.cons_append,
    List.cons_lt_cons_iff]
  rcases leadingByte_lt (show c.toNat < d.toNat from less) with smaller | ⟨first, count, same⟩
  · exact .inl (ofNat_lt_ofNat smaller (leadingByte_lt_256 d))
  · rw [first, ← count]
    exact .inr ⟨rfl, continuationBytes_append_lt less same xs ys⟩

theorem utf8Bytes_eq_flatMap (text : String) :
    utf8Bytes text = text.toList.flatMap String.utf8EncodeChar := by
  rw [utf8Bytes, String.toUTF8, ← String.utf8Encode_toList, List.utf8Encode,
    List.toList_data_toByteArray]

theorem codePoints_eq_flatMap (text : String) :
    codePoints text = text.toList.flatMap fun c => [c.toNat] :=
  List.map_eq_flatMap

theorem codePoints_lt_iff {x y : String} : codePoints x < codePoints y ↔ x < y := by
  rw [codePoints_eq_flatMap, codePoints_eq_flatMap]
  apply flatMap_lt_flatMap_iff
  · exact fun c => List.cons_ne_nil _ _
  · intro c d less xs ys
    exact List.cons_lt_cons_iff.2 (.inl less)

theorem utf8Bytes_lt_iff {x y : String} : utf8Bytes x < utf8Bytes y ↔ x < y := by
  rw [utf8Bytes_eq_flatMap, utf8Bytes_eq_flatMap]
  exact flatMap_lt_flatMap_iff (fun _ => String.utf8EncodeChar_ne_nil) utf8EncodeChar_append_lt

end ComplexFormula

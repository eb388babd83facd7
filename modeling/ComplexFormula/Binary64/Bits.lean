import ComplexFormula.Binary64.Basic

namespace ComplexFormula

namespace Binary64

def fractionBits : Nat := significandBits - 1

def fractions : Nat := 2 ^ fractionBits

def infinityWord : Nat := 0x7FF * fractions

def signWord : Nat := 0x8000000000000000

/-- The units of a finite magnitude word. With the exponent 0 they are the word; from 1 on each
exponent doubles the step. -/
def unitsOfWord (word : Nat) : Nat :=
  let scale := word / fractions - 1
  (word - scale * fractions) * 2 ^ scale

def wordOfUnits (units : Nat) : Nat :=
  let scale := units.log2 - fractionBits
  scale * fractions + units / 2 ^ scale

theorem isMagnitude_unitsOfWord {word : Nat} (finite : word < infinityWord) :
    IsMagnitude (unitsOfWord word) := by
  simp only [infinityWord, fractions, fractionBits, significandBits] at finite
  let scale := word / fractions - 1
  have significandLt : word - scale * fractions < 2 ^ significandBits := by
    simp only [scale, fractions, fractionBits, significandBits]
    omega
  have exponentLe : significandBits + scale ≤ magnitudeBits := by
    simp only [scale, fractions, fractionBits, significandBits, magnitudeBits]
    omega
  refine ⟨?_, _, scale, significandLt, rfl⟩
  calc unitsOfWord word
      < 2 ^ significandBits * 2 ^ scale :=
        Nat.mul_lt_mul_of_pos_right significandLt (Nat.two_pow_pos scale)
    _ = 2 ^ (significandBits + scale) := (Nat.pow_add ..).symm
    _ ≤ unitsLimit := Nat.pow_le_pow_right (by decide) exponentLe

def ofBits (bits : UInt64) : Binary64 :=
  let negative := decide (signWord ≤ bits.toNat)
  let word := bits.toNat % signWord
  if small : word < infinityWord then
    finite negative (unitsOfWord word) (isMagnitude_unitsOfWord small)
  else if word = infinityWord then infinite negative
  else nan

def packBits (negative : Bool) (word : Nat) : UInt64 :=
  UInt64.ofNat (if negative then signWord + word else word)

def toBits : Binary64 → UInt64
  | nan => packBits false (infinityWord + fractions / 2)
  | infinite negative => packBits negative infinityWord
  | finite negative units _ => packBits negative (wordOfUnits units)

end Binary64

end ComplexFormula

namespace ComplexFormula

/-- The number `coefficient / 10 ^ places`. -/
structure Decimal where
  coefficient : Nat
  places : Nat
deriving DecidableEq

namespace Decimal

/-- The digits of the number without its point. Zeros in front make sure that one digit is left
when the places are taken away. -/
def digits (d : Decimal) : List Char :=
  (Nat.toDigits 10 d.coefficient).leftpad (d.places + 1) '0'

def chars (d : Decimal) : List Char :=
  if d.places = 0 then d.digits
  else
    let whole := d.digits.length - d.places
    d.digits.take whole ++ '.' :: d.digits.drop whole

def text (d : Decimal) : String :=
  String.ofList d.chars

instance : ToString Decimal where
  toString := text

/-- The number written by the given digits, of which the last `places` stand after the point. -/
def ofDigits? (digits : List Char) (places : Nat) : Option Decimal :=
  if digits.all Char.isDigit && places < digits.length then
    some ⟨Nat.ofDigitChars 10 digits 0, places⟩
  else none

def ofChars? (chars : List Char) : Option Decimal :=
  let whole := chars.takeWhile Char.isDigit
  match chars.dropWhile Char.isDigit with
  | [] => ofDigits? whole 0
  | '.' :: fraction => ofDigits? (whole ++ fraction) fraction.length
  | _ => none

end Decimal

end ComplexFormula

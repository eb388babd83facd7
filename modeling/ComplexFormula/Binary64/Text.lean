import ComplexFormula.Binary64.Basic
import ComplexFormula.Decimal

namespace ComplexFormula

def stepsPerUnit : Nat := 5 ^ binaryPlaces

def ReadsBack (units steps : Nat) : Prop :=
  roundBits significandBits steps stepsPerUnit = units

instance (units steps : Nat) : Decidable (ReadsBack units steps) :=
  inferInstanceAs (Decidable (_ = _))

namespace Decimal

/-- The neighbour of a magnitude among the multiples of `10 ^ place` steps, if one reads back: of
two the nearer, of two equally near the greater. The result counts the multiples. -/
def neighbour? (units place : Nat) : Option Nat :=
  let grid := 10 ^ place
  let exact := units * stepsPerUnit
  let below := exact / grid
  let above := below + 1
  if ReadsBack units (above * grid) then
    if ReadsBack units (below * grid) ∧ exact - below * grid < above * grid - exact then some below
    else some above
  else if ReadsBack units (below * grid) then some below
  else none

def ofSteps (count place : Nat) : Decimal where
  coefficient := count * 10 ^ (place - binaryPlaces)
  places := binaryPlaces - place

/-- The shortest decimal number of a magnitude among the places up to `place`. The last place holds
the magnitude exactly. -/
def shortestFrom (units : Nat) : Nat → Decimal
  | 0 => ofSteps (units * stepsPerUnit) 0
  | place + 1 =>
    let found := (neighbour? units (place + 1)).map fun count => ofSteps count (place + 1)
    found.getD (shortestFrom units place)

/-- A decimal place above all digits of a number of steps: `2 ^ 93` is less than `10 ^ 28`. -/
def leadingPlace (steps : Nat) : Nat :=
  (steps.log2 + 1) * 28 / 93 + 1

def shortest (units : Nat) : Decimal :=
  if units = 0 then ⟨0, 0⟩
  else shortestFrom units (leadingPlace (units * stepsPerUnit))

end Decimal

namespace Binary64

def signText (negative : Bool) : String :=
  if negative then "-" else ""

def text : Binary64 → String
  | nan => "NaN"
  | infinite negative => signText negative ++ "inf"
  | finite negative units _ => signText negative ++ (Decimal.shortest units).text

instance : ToString Binary64 where
  toString := text

def ofUnsignedChars? (negative : Bool) (chars : List Char) : Option Binary64 :=
  if chars = "inf".toList then some (infinite negative)
  else (Decimal.ofChars? chars).map fun d =>
    ofUnits negative (d.coefficient * unitsPerOne) (10 ^ d.places)

def ofChars? : List Char → Option Binary64
  | '-' :: chars => ofUnsignedChars? true chars
  | chars => if chars = "NaN".toList then some nan else ofUnsignedChars? false chars

end Binary64

end ComplexFormula

import ComplexFormula.Rounding

namespace ComplexFormula

def binaryPlaces : Nat := 1074

def significandBits : Nat := 53

def magnitudeBits : Nat := 2098

def unitsPerOne : Nat := 2 ^ binaryPlaces

/-- The least power of two, in units, that is too large for the format. -/
def unitsLimit : Nat := 2 ^ magnitudeBits

theorem unitsPerOne_pos : 0 < unitsPerOne :=
  Nat.two_pow_pos binaryPlaces

theorem unitsPerOne_lt_unitsLimit : unitsPerOne < unitsLimit :=
  Nat.pow_lt_pow_right Nat.one_lt_two (by decide : binaryPlaces < magnitudeBits)

structure IsMagnitude (units : Nat) : Prop where
  lt_limit : units < unitsLimit
  fitsBits : FitsBits significandBits units

inductive Binary64 where
  | nan
  | infinite (negative : Bool)
  | finite (negative : Bool) (units : Nat) (isMagnitude : IsMagnitude units)
deriving DecidableEq

theorem isMagnitude_zero : IsMagnitude 0 :=
  ⟨Nat.zero_lt_of_lt unitsPerOne_lt_unitsLimit, fitsBits_zero significandBits⟩

theorem isMagnitude_unitsPerOne : IsMagnitude unitsPerOne where
  lt_limit := unitsPerOne_lt_unitsLimit
  fitsBits := fitsBits_two_pow (by decide) binaryPlaces

namespace Binary64

def signedZero (negative : Bool) : Binary64 :=
  finite negative 0 isMagnitude_zero

instance : Zero Binary64 where
  zero := signedZero false

instance : One Binary64 where
  one := finite false unitsPerOne isMagnitude_unitsPerOne

instance : Inhabited Binary64 where
  default := 0

/-- The number nearest to `num / den` units with the given sign, a tie going to the even
significand. What is rounded up to the limit of the format overflows to infinity. -/
def ofUnits (negative : Bool) (num den : Nat) : Binary64 :=
  let units := roundBits significandBits num den
  if small : units < unitsLimit then
    finite negative units ⟨small, fitsBits_roundBits (by decide) num den⟩
  else infinite negative

def ofRatio (num den : Nat) : Binary64 :=
  ofUnits false (num * unitsPerOne) den

def isNaN : Binary64 → Bool
  | nan => true
  | infinite _ | finite .. => false

def isFinite : Binary64 → Bool
  | finite .. => true
  | nan | infinite _ => false

def withSign (negative : Bool) (units : Nat) : Int :=
  if negative then -units else units

def signedUnits : Binary64 → Int
  | finite negative units _ => withSign negative units
  | nan | infinite _ => 0

end Binary64

end ComplexFormula

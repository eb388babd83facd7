import ComplexFormula.Binary64.Basic

namespace ComplexFormula

namespace Binary64

def neg : Binary64 → Binary64
  | nan => nan
  | infinite negative => infinite (!negative)
  | finite negative units isMagnitude => finite (!negative) units isMagnitude

def abs : Binary64 → Binary64
  | nan => nan
  | infinite _ => infinite false
  | finite _ units isMagnitude => finite false units isMagnitude

/-- The number of units `total` rounded; where it is zero, `negativeZero` tells which zero. -/
def ofTotal (negativeZero : Bool) (total : Int) : Binary64 :=
  ofUnits (if total = 0 then negativeZero else total < 0) total.natAbs 1

def add : Binary64 → Binary64 → Binary64
  | nan, _ => nan
  | infinite _, nan => nan
  | infinite a, infinite b => if a = b then infinite a else nan
  | infinite a, finite .. => infinite a
  | finite .., nan => nan
  | finite .., infinite b => infinite b
  | finite a m _, finite b n _ => ofTotal (a && b) (withSign a m + withSign b n)

def sub : Binary64 → Binary64 → Binary64
  | nan, _ => nan
  | infinite _, nan => nan
  | infinite a, infinite b => if a = b then nan else infinite a
  | infinite a, finite .. => infinite a
  | finite .., nan => nan
  | finite .., infinite b => infinite (!b)
  | finite a m _, finite b n _ => ofTotal (a && !b) (withSign a m - withSign b n)

def mul : Binary64 → Binary64 → Binary64
  | nan, _ => nan
  | infinite _, nan => nan
  | infinite a, infinite b => infinite (a ^^ b)
  | infinite a, finite b n _ => if n = 0 then nan else infinite (a ^^ b)
  | finite .., nan => nan
  | finite a m _, infinite b => if m = 0 then nan else infinite (a ^^ b)
  | finite a m _, finite b n _ => ofUnits (a ^^ b) (m * n) unitsPerOne

def div : Binary64 → Binary64 → Binary64
  | nan, _ => nan
  | infinite _, nan => nan
  | infinite _, infinite _ => nan
  | infinite a, finite b _ _ => infinite (a ^^ b)
  | finite .., nan => nan
  | finite a _ _, infinite b => signedZero (a ^^ b)
  | finite a m _, finite b n _ =>
    if n = 0 then
      if m = 0 then nan else infinite (a ^^ b)
    else ofUnits (a ^^ b) (m * unitsPerOne) n

/-- The rounded length of the hypotenuse of a right triangle with the given legs. An infinite leg
makes it infinite, whatever the other is. -/
def hypot : Binary64 → Binary64 → Binary64
  | infinite _, _ => infinite false
  | nan, infinite _ => infinite false
  | nan, nan => nan
  | nan, finite .. => nan
  | finite .., infinite _ => infinite false
  | finite .., nan => nan
  | finite _ m _, finite _ n _ => ofUnits false (fourRoots (m * m + n * n)) 4

def lt : Binary64 → Binary64 → Bool
  | nan, _ => false
  | infinite _, nan => false
  | infinite a, infinite b => a && !b
  | infinite a, finite .. => a
  | finite .., nan => false
  | finite .., infinite b => !b
  | finite a m _, finite b n _ => withSign a m < withSign b n

instance : Neg Binary64 where
  neg := neg

instance : Add Binary64 where
  add := add

instance : Sub Binary64 where
  sub := sub

instance : Mul Binary64 where
  mul := mul

instance : Div Binary64 where
  div := div

instance : LT Binary64 where
  lt x y := x.lt y = true

instance : DecidableLT Binary64 :=
  fun x y => inferInstanceAs (Decidable (x.lt y = true))

end Binary64

end ComplexFormula

import ComplexFormula.Binary64.Arithmetic
import ComplexFormula.Binary64.Text
import ComplexFormula.Complex.Basic

namespace ComplexFormula

instance : CompareAbs Binary64 where
  absLt x y := x.abs < y.abs

abbrev Value := Complex Binary64

namespace Complex

def isNaN (z : Value) : Bool :=
  z.re.isNaN || z.im.isNaN

def isFinite (z : Value) : Bool :=
  z.re.isFinite && z.im.isFinite

def modulus (z : Value) : Binary64 :=
  Binary64.hypot z.re z.im

def Within (z : Value) (tolerance : Binary64) (w : Value) : Prop :=
  (z.re - w.re).abs < tolerance ∧ (z.im - w.im).abs < tolerance

instance (tolerance : Binary64) (z w : Value) : Decidable (z.Within tolerance w) :=
  inferInstanceAs (Decidable (_ ∧ _))

def epsilon : Binary64 :=
  Binary64.ofRatio 1 1000000

def Close (z w : Value) : Prop :=
  z.Within epsilon w

instance (z w : Value) : Decidable (z.Close w) :=
  inferInstanceAs (Decidable (z.Within epsilon w))

def text (z : Value) : String :=
  "(" ++ z.re.text ++ "; " ++ z.im.text ++ ")"

instance : ToString Value where
  toString := text

end Complex

end ComplexFormula

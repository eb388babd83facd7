namespace ComplexFormula

structure Complex (K : Type) where
  re : K
  im : K
deriving DecidableEq

class CompareAbs (K : Type) where
  /-- Whether the first number is nearer to zero than the second. -/
  absLt : K → K → Bool

namespace Complex

variable {K : Type}

def map {L : Type} (f : K → L) (z : Complex K) : Complex L :=
  ⟨f z.re, f z.im⟩

def ofReal [Zero K] (x : K) : Complex K :=
  ⟨x, 0⟩

def i [Zero K] [One K] : Complex K :=
  ⟨0, 1⟩

instance [Zero K] : Zero (Complex K) where
  zero := ofReal 0

instance [Zero K] [One K] : One (Complex K) where
  one := ofReal 1

instance [Zero K] : Inhabited (Complex K) where
  default := 0

instance [Neg K] : Neg (Complex K) where
  neg z := ⟨-z.re, -z.im⟩

def conj [Neg K] (z : Complex K) : Complex K :=
  ⟨z.re, -z.im⟩

instance [Add K] : Add (Complex K) where
  add z w := ⟨z.re + w.re, z.im + w.im⟩

instance [Add K] [Neg K] : Sub (Complex K) where
  sub z w := z + -w

instance [Add K] [Sub K] [Mul K] : Mul (Complex K) where
  mul z w := ⟨z.re * w.re - z.im * w.im, z.im * w.re + z.re * w.im⟩

section Div

variable [Add K] [Sub K] [Mul K] [Div K]

def divByReal (z w : Complex K) : Complex K :=
  let ratio := w.im / w.re
  let denominator := w.re + w.im * ratio
  ⟨(z.re + z.im * ratio) / denominator, (z.im - z.re * ratio) / denominator⟩

def divByImaginary (z w : Complex K) : Complex K :=
  let ratio := w.re / w.im
  let denominator := w.im + w.re * ratio
  ⟨(z.re * ratio + z.im) / denominator, (z.im * ratio - z.re) / denominator⟩

instance [CompareAbs K] : Div (Complex K) where
  div z w := if CompareAbs.absLt w.im w.re then divByReal z w else divByImaginary z w

end Div

def normSq [Add K] [Mul K] (z : Complex K) : K :=
  z.re * z.re + z.im * z.im

def inverse [Add K] [Mul K] [Div K] [Neg K] (z : Complex K) : Complex K :=
  ⟨z.re / z.normSq, -z.im / z.normSq⟩

instance [Zero K] [Add K] : HAdd (Complex K) K (Complex K) where
  hAdd z x := z + ofReal x

instance [Zero K] [Add K] [Neg K] : HSub (Complex K) K (Complex K) where
  hSub z x := z - ofReal x

instance [Zero K] [Add K] [Sub K] [Mul K] : HMul (Complex K) K (Complex K) where
  hMul z x := z * ofReal x

instance [Zero K] [Add K] [Sub K] [Mul K] [Div K] [CompareAbs K] :
    HDiv (Complex K) K (Complex K) where
  hDiv z x := z / ofReal x

end Complex

end ComplexFormula

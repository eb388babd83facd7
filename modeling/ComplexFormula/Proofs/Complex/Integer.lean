import Mathlib.NumberTheory.Zsqrtd.GaussianInt
import ComplexFormula.Operator
import ComplexFormula.Proofs.Binary64.Integer

namespace ComplexFormula

def largerPart (a : GaussianInt) : Nat :=
  max a.re.natAbs a.im.natAbs

namespace Complex

def IsGaussian (z : Value) (a : GaussianInt) : Prop :=
  z.re.IsInt a.re ∧ z.im.IsInt a.im

instance (z : Value) (a : GaussianInt) : Decidable (z.IsGaussian a) :=
  inferInstanceAs (Decidable (_ ∧ _))

def toGaussian (z : Value) : GaussianInt :=
  ⟨z.re.toInt, z.im.toInt⟩

theorem IsGaussian.toGaussian_eq {z : Value} {a : GaussianInt} (isGaussian : z.IsGaussian a) :
    z.toGaussian = a :=
  Zsqrtd.ext isGaussian.1.toInt_eq isGaussian.2.toInt_eq

end Complex

namespace BinaryOp

/-- Quotients are left out: a quotient of Gaussian integers need not be one. -/
def applyGaussian : BinaryOp → GaussianInt → GaussianInt → GaussianInt
  | add, a, b => a + b
  | sub, a, b => a - b
  | mul, a, b => a * b
  | div, _, _ => 0

def bound : BinaryOp → Nat → Nat → Nat
  | add, m, n | sub, m, n => m + n
  | mul, m, n => 2 * m * n
  | div, _, _ => 0

variable {z w : Value} {a b : GaussianInt} {m n : Nat}

theorem natAbs_terms_le (left : largerPart a ≤ m) (right : largerPart b ≤ n) :
    (a.re * b.re).natAbs ≤ m * n ∧ (a.im * b.im).natAbs ≤ m * n ∧
      (a.re * b.im).natAbs ≤ m * n ∧ (a.im * b.re).natAbs ≤ m * n := by
  obtain ⟨reLeft, imLeft⟩ := Nat.max_le.1 left
  obtain ⟨reRight, imRight⟩ := Nat.max_le.1 right
  simp only [Int.natAbs_mul]
  exact ⟨Nat.mul_le_mul reLeft reRight, Nat.mul_le_mul imLeft imRight,
    Nat.mul_le_mul reLeft imRight, Nat.mul_le_mul imLeft reRight⟩

theorem re_mul_gaussian (a b : GaussianInt) : (a * b).re = a.re * b.re - a.im * b.im := by
  rw [Zsqrtd.re_mul, Int.neg_mul, Int.one_mul, Int.neg_mul, Int.sub_eq_add_neg]

theorem im_mul_gaussian (a b : GaussianInt) : (a * b).im = a.im * b.re + a.re * b.im := by
  rw [Zsqrtd.im_mul, Int.add_comm]

theorem largerPart_applyGaussian_le (op : BinaryOp) (left : largerPart a ≤ m)
    (right : largerPart b ≤ n) : largerPart (op.applyGaussian a b) ≤ op.bound m n := by
  obtain ⟨reLeft, imLeft⟩ := Nat.max_le.1 left
  obtain ⟨reRight, imRight⟩ := Nat.max_le.1 right
  apply Nat.max_le.2
  cases op with
  | add =>
    exact ⟨(Int.natAbs_add_le ..).trans (Nat.add_le_add reLeft reRight),
      (Int.natAbs_add_le ..).trans (Nat.add_le_add imLeft imRight)⟩
  | sub =>
    exact ⟨(Int.natAbs_sub_le ..).trans (Nat.add_le_add reLeft reRight),
      (Int.natAbs_sub_le ..).trans (Nat.add_le_add imLeft imRight)⟩
  | mul =>
    obtain ⟨reRe, imIm, reIm, imRe⟩ := natAbs_terms_le left right
    rw [applyGaussian, re_mul_gaussian, im_mul_gaussian, bound, Nat.mul_assoc, Nat.two_mul]
    exact ⟨(Int.natAbs_sub_le ..).trans (Nat.add_le_add reRe imIm),
      (Int.natAbs_add_le ..).trans (Nat.add_le_add imRe reIm)⟩
  | div => exact ⟨Nat.le_refl 0, Nat.le_refl 0⟩

theorem isGaussian_apply {op : BinaryOp} (noQuotient : op ≠ .div) (left : z.IsGaussian a)
    (right : w.IsGaussian b) (leftLe : largerPart a ≤ m) (rightLe : largerPart b ≤ n)
    (small : op.bound m n ≤ 2 ^ significandBits) :
    (op.apply z w).IsGaussian (op.applyGaussian a b) := by
  obtain ⟨reLe, imLe⟩ :=
    Nat.max_le.1 (Nat.le_trans (op.largerPart_applyGaussian_le leftLe rightLe) small)
  cases op with
  | add => exact ⟨left.1.add right.1 reLe, left.2.add right.2 imLe⟩
  | sub =>
    simp only [applyGaussian, Zsqrtd.re_sub, Zsqrtd.im_sub] at reLe imLe
    exact ⟨left.1.add right.1.neg reLe, left.2.add right.2.neg imLe⟩
  | mul =>
    obtain ⟨reRe, imIm, reIm, imRe⟩ := natAbs_terms_le leftLe rightLe
    have term : m * n ≤ 2 ^ significandBits := by
      rw [bound, Nat.mul_assoc] at small
      omega
    simp only [applyGaussian, re_mul_gaussian, im_mul_gaussian] at reLe imLe
    have re := (left.1.mul right.1 (reRe.trans term)).sub (left.2.mul right.2 (imIm.trans term)) reLe
    have im := (left.2.mul right.1 (imRe.trans term)).add (left.1.mul right.2 (reIm.trans term)) imLe
    rw [← re_mul_gaussian] at re
    rw [← im_mul_gaussian] at im
    exact ⟨re, im⟩
  | div => contradiction

end BinaryOp

namespace UnaryOp

def applyGaussian : UnaryOp → GaussianInt → GaussianInt
  | neg, a => -a
  | conj, a => star a

theorem largerPart_applyGaussian (op : UnaryOp) (a : GaussianInt) :
    largerPart (op.applyGaussian a) = largerPart a := by
  cases op <;> simp [largerPart, applyGaussian]

theorem isGaussian_apply (op : UnaryOp) {z : Value} {a : GaussianInt} (operand : z.IsGaussian a) :
    (op.apply z).IsGaussian (op.applyGaussian a) := by
  cases op with
  | neg => exact ⟨operand.1.neg, operand.2.neg⟩
  | conj => exact ⟨operand.1, operand.2.neg⟩

end UnaryOp

end ComplexFormula

import ComplexFormula.Proofs.Complex.Integer
import ComplexFormula.Proofs.Formula.Lookups
import ComplexFormula.Proofs.Formula.Propagation

namespace ComplexFormula.Formula

def subformulas : Formula → List Formula
  | const z => [const z]
  | var name => [var name]
  | binary op left right => binary op left right :: (left.subformulas ++ right.subformulas)
  | unary op operand => unary op operand :: operand.subformulas

def isQuotient : Formula → Bool
  | binary op _ _ => op = .div
  | const _ | var _ | unary .. => false

def gaussian (ρ : Valuation) : Formula → GaussianInt
  | const z => z.toGaussian
  | var name => (ρ.getD name 0).toGaussian
  | binary op left right => op.applyGaussian (left.gaussian ρ) (right.gaussian ρ)
  | unary op operand => op.applyGaussian (operand.gaussian ρ)

/-- What the parts of the exact value cannot exceed, told from the leaves. -/
def magnitude (ρ : Valuation) : Formula → Nat
  | const z => largerPart z.toGaussian
  | var name => largerPart (ρ.getD name 0).toGaussian
  | binary op left right => op.bound (left.magnitude ρ) (right.magnitude ρ)
  | unary _ operand => operand.magnitude ρ

variable {ρ : Valuation}

theorem largerPart_gaussian_le (f : Formula) : largerPart (f.gaussian ρ) ≤ f.magnitude ρ := by
  induction f with
  | const z | var name => exact Nat.le_refl _
  | binary op left right ihLeft ihRight => exact op.largerPart_applyGaussian_le ihLeft ihRight
  | unary op operand ih =>
    rw [gaussian, op.largerPart_applyGaussian]
    exact ih

theorem isGaussian_eval {f : Formula} {v : Value} (ok : (f.eval ρ).outcome = .ok v)
    (noQuotient : ∀ g ∈ f.subformulas, ¬ g.isQuotient)
    (integers : ∀ z ∈ f.leafValues ρ fun _ => true, ∃ a, z.IsGaussian a)
    (small : ∀ g ∈ f.subformulas, g.magnitude ρ ≤ 2 ^ significandBits) :
    v.IsGaussian (f.gaussian ρ) := by
  induction f generalizing v with
  | const z =>
    cases ok
    obtain ⟨a, isGaussian⟩ := integers z (List.mem_singleton_self z)
    rwa [gaussian, isGaussian.toGaussian_eq]
  | var name =>
    rw [eval_var_eq_ok] at ok
    obtain ⟨a, isGaussian⟩ := integers v (by rw [leafValues, ok]; exact List.mem_singleton_self v)
    rwa [gaussian, Std.TreeMap.getD_eq_getD_getElem?, ok, Option.getD_some, isGaussian.toGaussian_eq]
  | binary op left right ihLeft ihRight =>
    obtain ⟨z, w, okLeft, okRight, rfl⟩ := eval_binary_eq_ok.1 ok
    simp only [subformulas, List.forall_mem_cons, List.forall_mem_append] at noQuotient small
    simp only [leafValues, if_true, List.forall_mem_append] at integers
    obtain ⟨noQuotient, noQuotientLeft, noQuotientRight⟩ := noQuotient
    obtain ⟨small, smallLeft, smallRight⟩ := small
    have noDivision : op ≠ .div := by simpa [isQuotient] using noQuotient
    have exactLeft := ihLeft okLeft noQuotientLeft integers.1 smallLeft
    have exactRight := ihRight okRight noQuotientRight integers.2 smallRight
    exact BinaryOp.isGaussian_apply noDivision exactLeft exactRight (largerPart_gaussian_le left)
      (largerPart_gaussian_le right) small
  | unary op operand ih =>
    obtain ⟨z, okOperand, rfl⟩ := eval_unary_eq_ok.1 ok
    rw [subformulas, List.forall_mem_cons] at noQuotient small
    exact op.isGaussian_apply (ih okOperand noQuotient.2 integers small.2)

theorem eval_gaussian (ρ : Valuation) (f : Formula)
    (noQuotient : ∀ g ∈ f.subformulas, ¬ g.isQuotient)
    (bound : ∀ name ∈ f.variableNames, name ∈ ρ)
    (integers : ∀ z ∈ f.leafValues ρ fun _ => true, ∃ a, z.IsGaussian a)
    (small : ∀ g ∈ f.subformulas, g.magnitude ρ ≤ 2 ^ significandBits) :
    ∃ v, (f.eval ρ).outcome = .ok v ∧ v.IsGaussian (f.gaussian ρ) := by
  obtain ⟨v, ok⟩ := eval_ok_iff.2 fun name occurs => bound name (mem_variableNames.2 occurs)
  exact ⟨v, ok, isGaussian_eval ok noQuotient integers small⟩

theorem eval_gaussian_at_limit :
    let z : Value := ⟨Binary64.ofRatio (2 ^ 26) 1, -Binary64.ofRatio (2 ^ 26) 1⟩
    let ρ := Valuation.ofBindings [("x", z)]
    let f := binary .sub (unary .conj (binary .mul (var "x") (var "x"))) (const ⟨0, .signedZero true⟩)
    (∀ g ∈ f.subformulas, ¬ g.isQuotient) ∧ (∀ name ∈ f.variableNames, name ∈ ρ) ∧
      (∀ z ∈ f.leafValues ρ fun _ => true, ∃ a, z.IsGaussian a) ∧
      (∀ g ∈ f.subformulas, g.magnitude ρ ≤ 2 ^ significandBits) ∧
      f.magnitude ρ = 2 ^ significandBits ∧ f.gaussian ρ = ⟨0, 2 ^ significandBits⟩ ∧
      ∃ v, (f.eval ρ).outcome = .ok v ∧ v.IsGaussian (f.gaussian ρ) := by
  intro z ρ f
  have noQuotient : ∀ g ∈ f.subformulas, ¬ g.isQuotient := by decide
  have bound : ∀ name ∈ f.variableNames, name ∈ ρ := by decide
  have read : ∀ z ∈ f.leafValues ρ fun _ => true, z.IsGaussian z.toGaussian := by decide +kernel
  have integers : ∀ z ∈ f.leafValues ρ fun _ => true, ∃ a, z.IsGaussian a :=
    fun z leaf => ⟨z.toGaussian, read z leaf⟩
  have small : ∀ g ∈ f.subformulas, g.magnitude ρ ≤ 2 ^ significandBits := by decide +kernel
  exact ⟨noQuotient, bound, integers, small, by decide +kernel, by decide +kernel,
    eval_gaussian ρ f noQuotient bound integers small⟩

end ComplexFormula.Formula

import Mathlib.Data.List.Forall2
import ComplexFormula.Accumulation
import ComplexFormula.Proofs.Complex.Division
import ComplexFormula.Proofs.Formula.Evaluation

namespace ComplexFormula

namespace AccumulatorM

theorem run_writes (x y : Binary64) (z : Value) :
    (do writeRe x; writeIm y : AccumulatorM Unit).run z = ((), ⟨x, y⟩) := rfl

-- The imaginary part is read after the first write, which leaves it as it was.
theorem run_addAssign (w z : Value) : (addAssign w).run z = ((), z + w) := rfl

theorem run_subAssign (w z : Value) : (subAssign w).run z = ((), z - w) :=
  run_addAssign (-w) z

theorem run_mulAssign (w z : Value) : (mulAssign w).run z = ((), z * w) :=
  run_writes (z.re * w.re - z.im * w.im) (z.im * w.re + z.re * w.im) z

theorem run_divAssign (w z : Value) : (divAssign w).run z = ((), z / w) := by
  rw [Complex.div_eq]
  cases larger : CompareAbs.absLt w.im w.re with
  | true =>
    simp only [divAssign, larger, if_true]
    exact run_writes _ _ z
  | false =>
    simp only [divAssign, larger, Bool.false_eq_true, if_false]
    exact run_writes _ _ z

theorem run_assign (op : BinaryOp) (w z : Value) : (assign op w).run z = ((), op.apply z w) := by
  cases op with
  | add => exact run_addAssign w z
  | sub => exact run_subAssign w z
  | mul => exact run_mulAssign w z
  | div => exact run_divAssign w z

end AccumulatorM

theorem Step.apply_combine (op : BinaryOp) (operand : Operand) (z : Value) :
    (combine op operand).apply z = op.apply z (operand.value z) :=
  congrArg Prod.snd (AccumulatorM.run_assign op (operand.value z) z)

theorem Step.apply_transform (op : UnaryOp) (z : Value) : (transform op).apply z = op.apply z := by
  cases op with
  | neg => rfl
  | conj => rfl

open Formula

variable {ρ : Valuation}

/-- A number stands for itself or under a name it is bound to, the running value for the formula
built so far. -/
inductive Operand.Written (ρ : Valuation) (f : Formula) : Operand → Formula → Prop where
  | const (z : Value) : Written ρ f (.number z) (const z)
  | var {name : String} {z : Value} (bound : ρ[name]? = some z) : Written ρ f (.number z) (var name)
  | running : Written ρ f .running f

/-- The operator of the step around the formula. An inversion has none. -/
inductive Step.Wraps (ρ : Valuation) (f : Formula) : Step → Formula → Prop where
  | combine (op : BinaryOp) {operand : Operand} {right : Formula} :
    operand.Written ρ f right → Wraps ρ f (.combine op operand) (binary op f right)
  | transform (op : UnaryOp) : Wraps ρ f (.transform op) (unary op f)

inductive Step.WrapsAll (ρ : Valuation) : Formula → List Step → List Formula → Prop where
  | nil {f : Formula} : WrapsAll ρ f [] []
  | cons {f g : Formula} {step : Step} {steps : List Step} {formulas : List Formula} :
    step.Wraps ρ f g → WrapsAll ρ g steps formulas → WrapsAll ρ f (step :: steps) (g :: formulas)

variable {f g right : Formula} {operand : Operand} {step : Step} {steps : List Step} {z : Value}

theorem Operand.Written.eval (written : operand.Written ρ f right)
    (ok : (f.eval ρ).outcome = .ok z) : (right.eval ρ).outcome = .ok (operand.value z) := by
  cases written with
  | const w => rfl
  | var bound => exact eval_var_eq_ok.2 bound
  | running => exact ok

namespace Step

theorem Wraps.eval (wraps : step.Wraps ρ f g) (ok : (f.eval ρ).outcome = .ok z) :
    (g.eval ρ).outcome = .ok (step.apply z) := by
  cases wraps with
  | @combine op operand right written =>
    rw [apply_combine]
    exact eval_binary_eq_ok.2 ⟨z, operand.value z, ok, written.eval ok, rfl⟩
  | transform op =>
    rw [apply_transform]
    exact eval_unary_eq_ok.2 ⟨z, ok, rfl⟩

theorem WrapsAll.eval {formulas : List Formula} (wraps : WrapsAll ρ f steps formulas)
    (ok : (f.eval ρ).outcome = .ok z) :
    List.Forall₂ (fun g v => (g.eval ρ).outcome = .ok v) formulas (applyAll z steps) := by
  induction wraps generalizing z with
  | nil => exact .nil
  | cons first _ ih => exact .cons (first.eval ok) (ih (first.eval ok))

theorem exists_wraps (f : Formula) (notInvert : step ≠ .invert) : ∃ g, step.Wraps ρ f g := by
  cases step with
  | combine op operand =>
    cases operand with
    | number z => exact ⟨_, .combine op (.const z)⟩
    | running => exact ⟨_, .combine op .running⟩
  | transform op => exact ⟨_, .transform op⟩
  | invert => contradiction

theorem exists_wrapsAll (f : Formula) (noInvert : ∀ step ∈ steps, step ≠ .invert) :
    ∃ formulas, WrapsAll ρ f steps formulas := by
  induction steps generalizing f with
  | nil => exact ⟨[], .nil⟩
  | cons step steps ih =>
    obtain ⟨notInvert, rest⟩ := List.forall_mem_cons.1 noInvert
    obtain ⟨g, wraps⟩ : ∃ g, step.Wraps ρ f g := exists_wraps f notInvert
    obtain ⟨formulas, wrapsAll⟩ := ih g rest
    exact ⟨g :: formulas, .cons wraps wrapsAll⟩

theorem applyAll_eq_eval (ρ : Valuation) (start : Value) (steps : List Step)
    (noInvert : ∀ step ∈ steps, step ≠ .invert) :
    (∃ formulas, WrapsAll ρ (const start) steps formulas) ∧
    ∀ formulas, WrapsAll ρ (const start) steps formulas →
      List.Forall₂ (fun f v => (f.eval ρ).outcome = .ok v) formulas (applyAll start steps) :=
  ⟨exists_wrapsAll (const start) noInvert, fun _ wraps => wraps.eval rfl⟩

theorem applyAll_eq_eval_of_square :
    let ρ := Valuation.ofBindings [("w", Complex.i)]
    let start : Value := ⟨1, 1⟩
    let steps := [combine .add (.number Complex.i), combine .mul .running, transform .neg,
      transform .conj, combine .div (.number Complex.i)]
    let sum := binary .add (const start) (const Complex.i)
    let square := binary .mul sum sum
    let negation := unary .neg square
    let conjugate := unary .conj negation
    let quotient := binary .div conjugate (var "w")
    (∀ step ∈ steps, step ≠ .invert) ∧
      WrapsAll ρ (const start) steps [sum, square, negation, conjugate, quotient] ∧
      List.Forall₂ (fun f v => (f.eval ρ).outcome = .ok v)
        [sum, square, negation, conjugate, quotient]
        [⟨1, 1 + 1⟩, ⟨-(1 + 1 + 1), 1 + 1 + 1 + 1⟩, ⟨1 + 1 + 1, -(1 + 1 + 1 + 1)⟩,
          ⟨1 + 1 + 1, 1 + 1 + 1 + 1⟩, ⟨1 + 1 + 1 + 1, -(1 + 1 + 1)⟩] := by
  intro ρ start steps sum square negation conjugate quotient
  have noInvert : ∀ step ∈ steps, step ≠ .invert := by decide
  have bound : ρ["w"]? = some Complex.i := by rfl
  have wraps : WrapsAll ρ (const start) steps [sum, square, negation, conjugate, quotient] :=
    .cons (.combine .add (.const Complex.i)) <| .cons (.combine .mul .running) <|
      .cons (.transform .neg) <| .cons (.transform .conj) <|
        .cons (.combine .div (.var bound)) .nil
  have values : applyAll start steps =
      [⟨1, 1 + 1⟩, ⟨-(1 + 1 + 1), 1 + 1 + 1 + 1⟩, ⟨1 + 1 + 1, -(1 + 1 + 1 + 1)⟩,
        ⟨1 + 1 + 1, 1 + 1 + 1 + 1⟩, ⟨1 + 1 + 1 + 1, -(1 + 1 + 1)⟩] := by decide +kernel
  exact ⟨noInvert, wraps, values ▸ (applyAll_eq_eval ρ start steps noInvert).2 _ wraps⟩

end Step

end ComplexFormula

import ComplexFormula.Formula.Closeness
import ComplexFormula.Proofs.Complex.Closeness
import ComplexFormula.Proofs.Formula.Lookups
import ComplexFormula.Proofs.Formula.Related

namespace ComplexFormula.Formula

def constants : Formula → List Value
  | const z => [z]
  | var _ => []
  | binary _ left right => left.constants ++ right.constants
  | unary _ operand => operand.constants

variable {f g : Formula}

section

variable (same : g.occurrences = f.occurrences)

include same

theorem variableNames_eq_of_occurrences : g.variableNames = f.variableNames :=
  variableNames_congr fun name => by rw [same]

theorem eval_log_eq_of_occurrences (ρ : Valuation) : (g.eval ρ).log = (f.eval ρ).log := by
  apply Array.toList_inj.1
  rw [eval_log, eval_log, same]

theorem eval_outcome_of_occurrences (ρ : Valuation) :
    OutcomeRel (fun _ _ => True) (f.eval ρ).outcome (g.eval ρ).outcome := by
  cases outcome : (f.eval ρ).outcome with
  | ok v =>
    have bound := eval_ok_iff.1 ⟨v, outcome⟩
    obtain ⟨w, ok⟩ := eval_ok_iff.2 (same ▸ bound)
    rw [ok]
    exact .ok trivial
  | error error =>
    cases error with
    | undefinedVariable name =>
      have missing := eval_error_iff.1 outcome
      rw [eval_error_iff.2 (same ▸ missing)]
      exact .error _

end

theorem close_iff_related : f.Close g ↔ Related Complex.Close f g := by
  constructor
  · intro close
    induction f generalizing g with
    | const z =>
      cases g with
      | const w => exact .const close
      | var _ | binary _ _ _ | unary _ _ => exact close.elim
    | var name =>
      cases g with
      | var other =>
        cases (show name = other from close)
        exact .var name
      | const _ | binary _ _ _ | unary _ _ => exact close.elim
    | binary op left right ihLeft ihRight =>
      cases g with
      | binary op' left' right' =>
        obtain ⟨rfl, closeLeft, closeRight⟩ := close
        exact .binary op (ihLeft closeLeft) (ihRight closeRight)
      | const _ | var _ | unary _ _ => exact close.elim
    | unary op operand ih =>
      cases g with
      | unary op' operand' =>
        obtain ⟨rfl, closeOperand⟩ := close
        exact .unary op (ih closeOperand)
      | const _ | var _ | binary _ _ _ => exact close.elim
  · intro related
    induction related with
    | const close => exact close
    | var name => exact rfl
    | binary op _ _ ihLeft ihRight => exact ⟨rfl, ihLeft, ihRight⟩
    | unary op _ ih => exact ⟨rfl, ih⟩

theorem Close.symm (close : f.Close g) : g.Close f := by
  rw [close_iff_related] at close ⊢
  exact close.symm Complex.close_comm.1

theorem close_self_iff : f.Close f ↔ ∀ z ∈ f.constants, z.isFinite := by
  induction f with
  | const z => simp only [Close, constants, List.forall_mem_singleton, Complex.close_self]
  | var name => simp [Close, constants]
  | binary op left right ihLeft ihRight =>
    simp only [Close, constants, List.forall_mem_append, ihLeft, ihRight, true_and]
  | unary op operand ih => simp only [Close, constants, ih, true_and]

theorem close_separates_constants (f g : Formula) :
    (f.Close g ↔ g.Close f) ∧
    (f.Close f ↔ ∀ z ∈ f.constants, z.isFinite) ∧
    (f.Close g → Related Complex.Close f g ∧ g.depth = f.depth ∧ g.variableNames = f.variableNames ∧
      ∀ ρ, (g.eval ρ).log = (f.eval ρ).log ∧
        OutcomeRel (fun _ _ => True) (f.eval ρ).outcome (g.eval ρ).outcome) := by
  refine ⟨⟨.symm, .symm⟩, close_self_iff, fun close => ?_⟩
  have related := close_iff_related.1 close
  have same := related.occurrences_eq
  exact ⟨related, related.depth_eq, variableNames_eq_of_occurrences same, fun ρ =>
    ⟨eval_log_eq_of_occurrences same ρ, eval_outcome_of_occurrences same ρ⟩⟩

theorem close_separates_constants_beside_pole :
    let tiny : Value := ⟨Binary64.ofRatio 1 2000000, .signedZero true⟩
    let ρ := Valuation.ofBindings [("x", 1)]
    let f := binary .div (var "x") (const tiny)
    let g := binary .div (var "x") (const 0)
    f.Close g ∧ g.Close f ∧ f.Close f ∧ g.variableNames = f.variableNames ∧
      (g.eval ρ).log = (f.eval ρ).log ∧
      (f.eval ρ).outcome = .ok (1 / tiny) ∧ (g.eval ρ).outcome = .ok (1 / 0) ∧
      (1 / tiny).isFinite ∧ (1 / 0 : Value).isNaN ∧
      OutcomeRel (fun _ _ => True) (f.eval ∅).outcome (g.eval ∅).outcome ∧
      (g.eval ∅).outcome = .error (.undefinedVariable "x") := by
  intro tiny ρ f g
  have close : f.Close g := by decide +kernel
  have finite : ∀ z ∈ f.constants, z.isFinite := by decide +kernel
  obtain ⟨symmetric, reflexive, alike⟩ := close_separates_constants f g
  obtain ⟨-, -, names, evaluated⟩ := alike close
  exact ⟨close, symmetric.1 close, reflexive.2 finite, names, (evaluated ρ).1, by rfl, by rfl,
    by decide +kernel, by decide +kernel, (evaluated ∅).2, by rfl⟩

end ComplexFormula.Formula

import ComplexFormula.Proofs.Binary64.Arithmetic
import ComplexFormula.Proofs.Formula.Lookups

namespace ComplexFormula

namespace Complex

protected theorem add_comm (z w : Value) : z + w = w + z := by
  change mk (z.re + w.re) (z.im + w.im) = mk (w.re + z.re) (w.im + z.im)
  rw [Binary64.add_comm z.re, Binary64.add_comm z.im]

protected theorem mul_comm (z w : Value) : z * w = w * z := by
  change mk (z.re * w.re - z.im * w.im) (z.im * w.re + z.re * w.im) =
    mk (w.re * z.re - w.im * z.im) (w.im * z.re + w.re * z.im)
  rw [Binary64.add_comm (w.im * z.re), Binary64.mul_comm w.re, Binary64.mul_comm w.im,
    Binary64.mul_comm w.re, Binary64.mul_comm w.im]

end Complex

namespace BinaryOp

def commutes : BinaryOp → Bool
  | add | mul => true
  | sub | div => false

theorem apply_comm {op : BinaryOp} (commutes : op.commutes) (z w : Value) :
    op.apply z w = op.apply w z := by
  cases op with
  | add => exact Complex.add_comm z w
  | mul => exact Complex.mul_comm z w
  | sub | div => contradiction

end BinaryOp

namespace Formula

inductive Exchanged : Formula → Formula → Prop where
  | const (z : Value) : Exchanged (const z) (const z)
  | var (name : String) : Exchanged (var name) (var name)
  | binary (op : BinaryOp) {left left' right right' : Formula} :
    Exchanged left left' → Exchanged right right' →
      Exchanged (binary op left right) (binary op left' right')
  | exchange {op : BinaryOp} (commutes : op.commutes) {left left' right right' : Formula} :
    Exchanged left left' → Exchanged right right' →
      Exchanged (binary op left right) (binary op right' left')
  | unary (op : UnaryOp) {operand operand' : Formula} :
    Exchanged operand operand' → Exchanged (unary op operand) (unary op operand')

namespace Exchanged

variable {f g : Formula} {ρ : Valuation}

theorem occurrences_perm (exchanged : f.Exchanged g) : f.occurrences.Perm g.occurrences := by
  induction exchanged with
  | const z => exact .nil
  | var name => exact .refl [name]
  | binary op _ _ left right => exact left.append right
  | exchange commutes _ _ left right =>
    exact (left.append right).trans List.perm_append_comm
  | unary op _ operand => exact operand

theorem depth_eq (exchanged : f.Exchanged g) : g.depth = f.depth := by
  induction exchanged with
  | const z | var name => rfl
  | binary op _ _ left right => rw [depth, depth, left, right]
  | exchange commutes _ _ left right => rw [depth, depth, left, right, Nat.max_comm]
  | unary op _ operand => rw [depth, depth, operand]

theorem eval_eq_ok (exchanged : f.Exchanged g) {v : Value} (ok : (f.eval ρ).outcome = .ok v) :
    (g.eval ρ).outcome = .ok v := by
  induction exchanged generalizing v with
  | const z => exact ok
  | var name => exact ok
  | binary op _ _ left right =>
    obtain ⟨z, w, okLeft, okRight, rfl⟩ := eval_binary_eq_ok.1 ok
    exact eval_binary_eq_ok.2 ⟨z, w, left okLeft, right okRight, rfl⟩
  | exchange commutes _ _ left right =>
    obtain ⟨z, w, okLeft, okRight, rfl⟩ := eval_binary_eq_ok.1 ok
    exact eval_binary_eq_ok.2 ⟨w, z, right okRight, left okLeft, BinaryOp.apply_comm commutes w z⟩
  | unary op _ operand =>
    obtain ⟨z, okOperand, rfl⟩ := eval_unary_eq_ok.1 ok
    exact eval_unary_eq_ok.2 ⟨z, operand okOperand, rfl⟩

end Exchanged

theorem eval_exchanged (ρ : Valuation) (f g : Formula) (exchanged : f.Exchanged g) :
    ((∃ v, (f.eval ρ).outcome = .ok v) ↔ ∃ v, (g.eval ρ).outcome = .ok v) ∧
    (∀ v, (f.eval ρ).outcome = .ok v → (g.eval ρ).outcome = .ok v) ∧
    (∀ error, (f.eval ρ).outcome = .error error ∨ (g.eval ρ).outcome = .error error →
      ∃ name, error = .undefinedVariable name ∧ name ∈ f.variableNames ∧ name ∉ ρ) ∧
    g.variableNames = f.variableNames ∧ g.depth = f.depth := by
  have occurs (name : String) : name ∈ f.occurrences ↔ name ∈ g.occurrences :=
    exchanged.occurrences_perm.mem_iff
  have names : g.variableNames = f.variableNames := variableNames_congr fun name => (occurs name).symm
  refine ⟨?_, fun v ok => exchanged.eval_eq_ok ok, ?_, names, exchanged.depth_eq⟩
  · simp only [eval_ok_iff, occurs]
  · rintro error (failed | failed)
    · exact exists_missing_of_error failed
    · exact names ▸ exists_missing_of_error failed

theorem eval_exchanged_other_missing_first :
    let ρ := Valuation.ofBindings [("x", Complex.i), ("y", ⟨-0, 1⟩)]
    let f := binary .add (binary .mul (var "x") (var "y")) (unary .neg (var "z"))
    let g := binary .add (unary .neg (var "z")) (binary .mul (var "y") (var "x"))
    f.Exchanged g ∧
      (f.eval (ρ.erase "x")).outcome = .error (.undefinedVariable "x") ∧
      (g.eval (ρ.erase "x")).outcome = .error (.undefinedVariable "z") ∧
      "z" ∈ f.variableNames ∧ g.variableNames = f.variableNames ∧ g.depth = f.depth ∧
      ∃ v, (f.eval (ρ.insert "z" 1)).outcome = .ok v ∧ (g.eval (ρ.insert "z" 1)).outcome = .ok v := by
  intro ρ f g
  have product : Exchanged (binary .mul (var "x") (var "y")) (binary .mul (var "y") (var "x")) :=
    .exchange rfl (.var "x") (.var "y")
  have exchanged : f.Exchanged g := .exchange rfl product (.unary .neg (.var "z"))
  have failed : (g.eval (ρ.erase "x")).outcome = .error (.undefinedVariable "z") := by rfl
  obtain ⟨-, -, missing, names, depth⟩ := eval_exchanged (ρ.erase "x") f g exchanged
  obtain ⟨name, named, listed, -⟩ := missing _ (.inr failed)
  cases named
  obtain ⟨v, ok⟩ : ∃ v, (f.eval (ρ.insert "z" 1)).outcome = .ok v := eval_ok_iff.2 (by decide)
  have same := (eval_exchanged (ρ.insert "z" 1) f g exchanged).2.1 v ok
  exact ⟨exchanged, by rfl, failed, listed, names, depth, v, ok, same⟩

end Formula

end ComplexFormula

import Mathlib.Logic.Relation
import ComplexFormula.Proofs.Binary64.Arithmetic
import ComplexFormula.Proofs.Formula.Replacement

namespace ComplexFormula

namespace Complex

protected theorem neg_neg (z : Value) : - -z = z := by
  change mk (- -z.re) (- -z.im) = mk z.re z.im
  rw [Binary64.neg_neg, Binary64.neg_neg]

theorem conj_conj (z : Value) : z.conj.conj = z := by
  change mk z.re (- -z.im) = mk z.re z.im
  rw [Binary64.neg_neg]

theorem sub_eq (z w : Value) : z - w = ⟨z.re - w.re, z.im - w.im⟩ := by
  change mk (z.re + -w.re) (z.im + -w.im) = mk (z.re - w.re) (z.im - w.im)
  rw [Binary64.sub_eq_add_neg, Binary64.sub_eq_add_neg]

end Complex

namespace Formula

inductive SignLaw : Formula → Formula → Prop where
  | sub (left right : Formula) :
    SignLaw (binary .sub left right) (binary .add left (unary .neg right))
  | neg_neg (f : Formula) : SignLaw (unary .neg (unary .neg f)) f
  | conj_conj (f : Formula) : SignLaw (unary .conj (unary .conj f)) f
  | neg_conj (f : Formula) : SignLaw (unary .neg (unary .conj f)) (unary .conj (unary .neg f))

/-- A law is used once, in one of its directions, on the part at the end of a path. -/
def RewritesTo (f g : Formula) : Prop :=
  ∃ path part part', f.subformula? path = some part ∧ f.replaceAt? path part' = some g ∧
    (SignLaw part part' ∨ SignLaw part' part)

variable {f g : Formula}

theorem eval_unary_unary (ρ : Valuation) (op op' : UnaryOp) (f : Formula) :
    (unary op (unary op' f)).eval ρ =
      (f.eval ρ).andThen fun z => ⟨.ok (op.apply (op'.apply z)), #[]⟩ := by
  rw [eval_unary, eval_unary, Evaluation.andThen_value_andThen]

theorem SignLaw.eval_eq (law : SignLaw f g) (ρ : Valuation) : g.eval ρ = f.eval ρ := by
  cases law with
  | sub left right =>
    rw [eval_binary, eval_binary, eval_unary]
    simp only [Evaluation.andThen_value_andThen]
    rfl
  | neg_neg =>
    rw [eval_unary_unary]
    simp only [UnaryOp.apply, Complex.neg_neg, Evaluation.andThen_ok]
  | conj_conj =>
    rw [eval_unary_unary]
    simp only [UnaryOp.apply, Complex.conj_conj, Evaluation.andThen_ok]
  | neg_conj f =>
    rw [eval_unary_unary, eval_unary_unary]
    rfl

theorem RewritesTo.eval_eq (step : f.RewritesTo g) (ρ : Valuation) : g.eval ρ = f.eval ρ := by
  obtain ⟨path, part, part', found, replaced, law⟩ := step
  have same : part'.eval ρ = part.eval ρ :=
    law.elim (fun forward => forward.eval_eq ρ) fun backward => (backward.eval_eq ρ).symm
  exact eval_of_replaceAt? found replaced same

theorem eval_rewritten (ρ : Valuation) (f g : Formula)
    (rewritten : Relation.ReflTransGen RewritesTo f g) :
    g.eval ρ = f.eval ρ ∧
    ∀ left right v, ((binary .sub left right).eval ρ).outcome = .ok v ↔
      ∃ z w, (left.eval ρ).outcome = .ok z ∧ (right.eval ρ).outcome = .ok w ∧
        v = ⟨z.re - w.re, z.im - w.im⟩ := by
  constructor
  · induction rewritten with
    | refl => rfl
    | tail _ step ih => rw [step.eval_eq ρ, ih]
  · intro left right v
    rw [eval_binary_eq_ok]
    simp only [BinaryOp.apply, Complex.sub_eq, eq_comm]

theorem eval_rewritten_forth_and_back :
    let ρ := Valuation.ofBindings
      [("x", ⟨.signedZero true, .infinite false⟩), ("y", ⟨.signedZero true, 0⟩)]
    let negated := unary .neg (unary .conj (var "y"))
    let f := binary .sub (var "x") negated
    let g := binary .add (unary .conj (unary .conj (var "x"))) (unary .conj (var "y"))
    Relation.ReflTransGen RewritesTo f g ∧ g.eval ρ = f.eval ρ ∧ (negated.eval ρ).outcome = .ok 0 ∧
      (f.eval ρ).outcome = .ok ⟨.signedZero true - 0, .infinite false - 0⟩ ∧
      Binary64.signedZero true - 0 = .signedZero true ∧
      g.eval (ρ.erase "x") = f.eval (ρ.erase "x") ∧
      (f.eval (ρ.erase "x")).outcome = .error (.undefinedVariable "x") := by
  intro ρ negated f g
  have sum : f.RewritesTo (binary .add (var "x") (unary .neg negated)) :=
    ⟨[], _, _, rfl, rfl, .inl (.sub _ _)⟩
  have cancelled : RewritesTo (binary .add (var "x") (unary .neg negated))
      (binary .add (var "x") (unary .conj (var "y"))) :=
    ⟨[.right], _, _, rfl, rfl, .inl (.neg_neg _)⟩
  have twice : RewritesTo (binary .add (var "x") (unary .conj (var "y"))) g :=
    ⟨[.left], _, _, rfl, rfl, .inr (.conj_conj _)⟩
  have rewritten : Relation.ReflTransGen RewritesTo f g :=
    ((Relation.ReflTransGen.single sum).tail cancelled).tail twice
  have okX : ((var "x").eval ρ).outcome = .ok ⟨.signedZero true, .infinite false⟩ := by rfl
  have okNegated : (negated.eval ρ).outcome = .ok 0 := by rfl
  have difference := ((eval_rewritten ρ f g rewritten).2 (var "x") negated _).2
    ⟨_, _, okX, okNegated, rfl⟩
  exact ⟨rewritten, (eval_rewritten ρ f g rewritten).1, okNegated, difference, by decide +kernel,
    (eval_rewritten (ρ.erase "x") f g rewritten).1, by rfl⟩

end Formula

end ComplexFormula

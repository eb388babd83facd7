import ComplexFormula.Proofs.Formula.Evaluation

namespace ComplexFormula

/-- The error with `replacement` in the place of `name`. -/
def EvalError.rename (name replacement : String) : EvalError → EvalError
  | undefinedVariable missing =>
    undefinedVariable (if missing = name then replacement else missing)

theorem EvalError.rename_self (name replacement : String) :
    EvalError.rename name replacement (undefinedVariable name) = undefinedVariable replacement := by
  simp only [rename, if_true]

theorem EvalError.rename_of_ne {missing name : String} (other : missing ≠ name)
    (replacement : String) :
    EvalError.rename name replacement (undefinedVariable missing) = undefinedVariable missing := by
  simp only [rename, if_neg other]

namespace Formula

/-- The outcome of a formula whose variables have the outcomes that `resolve` tells. -/
def outcomeWith (resolve : String → Except EvalError Value) : Formula → Except EvalError Value
  | const z => .ok z
  | var name => resolve name
  | binary op left right =>
    (left.outcomeWith resolve).bind fun z =>
      (right.outcomeWith resolve).bind fun w => .ok (op.apply z w)
  | unary op operand => (operand.outcomeWith resolve).bind fun z => .ok (op.apply z)

theorem eval_bind_outcome (ρ : Valuation) (assign : String → Formula) (f : Formula) :
    ((f.bind assign).eval ρ).outcome =
      f.outcomeWith fun name => ((assign name).eval ρ).outcome := by
  induction f with
  | const z => rfl
  | var name => rfl
  | binary op left right ihLeft ihRight =>
    rw [bind, eval_binary_outcome, ihLeft, ihRight, outcomeWith]
  | unary op operand ih => rw [bind, eval_unary_outcome, ih, outcomeWith]

theorem bind_var (f : Formula) : f.bind var = f := by
  induction f with
  | const z => rfl
  | var name => rfl
  | binary op left right ihLeft ihRight => rw [bind, ihLeft, ihRight]
  | unary op operand ih => rw [bind, ih]

theorem eval_outcome_eq_outcomeWith (ρ : Valuation) (f : Formula) :
    (f.eval ρ).outcome = f.outcomeWith fun name => ((var name).eval ρ).outcome := by
  rw [← eval_bind_outcome, bind_var]

theorem outcomeWith_mapError (resolve : String → Except EvalError Value)
    (change : EvalError → EvalError) (f : Formula) :
    (f.outcomeWith fun name => (resolve name).mapError change) =
      (f.outcomeWith resolve).mapError change := by
  induction f with
  | const z => rfl
  | var name => rfl
  | binary op left right ihLeft ihRight =>
    rw [outcomeWith, outcomeWith, ihLeft, ihRight]
    cases left.outcomeWith resolve with
    | error error => rfl
    | ok z => cases right.outcomeWith resolve <;> rfl
  | unary op operand ih =>
    rw [outcomeWith, outcomeWith, ih]
    cases operand.outcomeWith resolve <;> rfl

section

variable {ρ : Valuation} {name : String} {replacement : Formula}

theorem eval_substitute_of_ok {v : Value} (ok : (replacement.eval ρ).outcome = .ok v)
    (f : Formula) :
    ((f.substitute name replacement).eval ρ).outcome = (f.eval (ρ.insert name v)).outcome := by
  rw [substitute, eval_bind_outcome, eval_outcome_eq_outcomeWith (ρ.insert name v)]
  congr 1
  funext other
  rw [eval_var_outcome, Std.TreeMap.getElem?_insert]
  by_cases same : other = name
  · simp [same, ok]
  · simp [same, Ne.symm same, eval_var_outcome]

theorem eval_substitute_of_error {missing : String}
    (failed : (replacement.eval ρ).outcome = .error (.undefinedVariable missing)) (f : Formula) :
    ((f.substitute name replacement).eval ρ).outcome =
      (f.eval (ρ.erase name)).outcome.mapError (.rename name missing) := by
  -- The error is renamed where it arises, so that the two sides are compared at one variable.
  rw [substitute, eval_bind_outcome, eval_outcome_eq_outcomeWith (ρ.erase name),
    ← outcomeWith_mapError]
  congr 1
  funext other
  rw [eval_var_outcome, Std.TreeMap.getElem?_erase]
  by_cases same : other = name
  · subst same
    rw [if_pos rfl, if_pos Std.ReflCmp.compare_self, failed]
    exact congrArg Except.error (EvalError.rename_self other missing).symm
  · have kept : compare name other ≠ .eq := by simpa using Ne.symm same
    rw [if_neg same, if_neg kept, eval_var_outcome]
    cases ρ[other]? with
    | some z => rfl
    | none => exact congrArg Except.error (EvalError.rename_of_ne same missing).symm

end

theorem eval_substitute (ρ : Valuation) (f replacement : Formula) (name : String) :
    (∀ v, (replacement.eval ρ).outcome = .ok v →
      ((f.substitute name replacement).eval ρ).outcome = (f.eval (ρ.insert name v)).outcome) ∧
    (∀ missing, (replacement.eval ρ).outcome = .error (.undefinedVariable missing) →
      ((f.substitute name replacement).eval ρ).outcome =
        (f.eval (ρ.erase name)).outcome.mapError (.rename name missing)) :=
  ⟨fun _ ok => eval_substitute_of_ok ok f, fun _ failed => eval_substitute_of_error failed f⟩

theorem eval_substitute_into_itself :
    let ρ := Valuation.ofBindings [("x", ⟨1, 1⟩), ("y", Complex.i)]
    let f := binary .div (binary .mul (var "y") (var "x")) (binary .sub (var "x") (var "z"))
    let conjugate := unary .conj (var "x")
    let unbound := binary .add (var "x") (var "w")
    (conjugate.eval ρ).outcome = .ok ⟨1, -1⟩ ∧
      ((f.substitute "x" conjugate).eval ρ).outcome = (f.eval (ρ.insert "x" ⟨1, -1⟩)).outcome ∧
      (unbound.eval ρ).outcome = .error (.undefinedVariable "w") ∧
      ((f.substitute "x" unbound).eval ρ).outcome =
        (f.eval (ρ.erase "x")).outcome.mapError (.rename "x" "w") ∧
      (f.eval (ρ.erase "x")).outcome = .error (.undefinedVariable "x") := by
  intro ρ f conjugate unbound
  have ok : (conjugate.eval ρ).outcome = .ok ⟨1, -1⟩ := by rfl
  have failed : (unbound.eval ρ).outcome = .error (.undefinedVariable "w") := by rfl
  have substituted := (eval_substitute ρ f conjugate "x").1 _ ok
  have renamed := (eval_substitute ρ f unbound "x").2 _ failed
  exact ⟨ok, substituted, failed, renamed, by rfl⟩

end Formula

end ComplexFormula

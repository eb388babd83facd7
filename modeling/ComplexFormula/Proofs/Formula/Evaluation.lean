import ComplexFormula.Formula.Evaluation

namespace ComplexFormula

namespace Formula.Evaluation

def andThen (e : Evaluation) (next : Value → Evaluation) : Evaluation :=
  match e.outcome with
  | .ok z => ⟨(next z).outcome, e.log ++ (next z).log⟩
  | .error error => ⟨.error error, e.log⟩

variable {e : Evaluation} {next : Value → Evaluation}

theorem andThen_of_ok {z : Value} (ok : e.outcome = .ok z) :
    e.andThen next = ⟨(next z).outcome, e.log ++ (next z).log⟩ := by
  simp only [andThen, ok]

theorem andThen_of_error {error : EvalError} (failed : e.outcome = .error error) :
    e.andThen next = ⟨.error error, e.log⟩ := by
  simp only [andThen, failed]

theorem andThen_outcome :
    (e.andThen next).outcome = e.outcome.bind fun z => (next z).outcome := by
  cases outcome : e.outcome <;> simp [andThen, outcome, Except.bind]

theorem andThen_outcome_eq_ok {v : Value} :
    (e.andThen next).outcome = .ok v ↔ ∃ z, e.outcome = .ok z ∧ (next z).outcome = .ok v := by
  cases outcome : e.outcome <;> simp [andThen, outcome]

@[simp]
theorem andThen_value_log (value : Value → Value) :
    (e.andThen fun z => ⟨.ok (value z), #[]⟩).log = e.log := by
  cases outcome : e.outcome <;> simp [andThen, outcome]

theorem andThen_value_andThen (value : Value → Value) :
    (e.andThen fun z => ⟨.ok (value z), #[]⟩).andThen next = e.andThen fun z => next (value z) := by
  cases outcome : e.outcome <;> simp [andThen, outcome]

theorem andThen_ok (e : Evaluation) : (e.andThen fun z => ⟨.ok z, #[]⟩) = e := by
  obtain ⟨outcome, log⟩ := e
  cases outcome <;> simp [andThen]

end Formula.Evaluation

open Formula (Evaluation)

namespace EvalM

/-- Whatever was recorded before, the run comes out as `e` and adds the records of `e`. -/
def Runs (m : EvalM Value) (e : Evaluation) : Prop :=
  ∀ log, m.run.run log = (e.outcome, log ++ e.log)

theorem runs_pure (z : Value) : Runs (pure z) ⟨.ok z, #[]⟩ := fun log => by
  rw [Array.append_empty]
  rfl

theorem Runs.bind {m : EvalM Value} {next : Value → EvalM Value} {e : Evaluation}
    {after : Value → Evaluation} (first : Runs m e) (rest : ∀ z, Runs (next z) (after z)) :
    Runs (m >>= next) (e.andThen after) := by
  intro log
  change ExceptT.bindCont next (m.run.run log).1 (m.run.run log).2 = _
  rw [first log]
  cases outcome : e.outcome with
  | error error => simp only [Evaluation.andThen_of_error outcome]; rfl
  | ok z =>
    rw [Evaluation.andThen_of_ok outcome, ← Array.append_assoc]
    exact rest z _

end EvalM

namespace Valuation

variable {ρ : Valuation} {name : String}

theorem runs_resolve_of_bound {z : Value} (bound : ρ[name]? = some z) :
    EvalM.Runs (ρ.resolve name) ⟨.ok z, #[.resolved name z]⟩ := by
  rw [resolve, bound]
  exact fun log => rfl

theorem runs_resolve_of_unbound (unbound : ρ[name]? = none) :
    EvalM.Runs (ρ.resolve name) ⟨.error (.undefinedVariable name), #[.missing name ρ.size]⟩ := by
  rw [resolve, unbound]
  exact fun log => rfl

end Valuation

namespace Formula

variable {ρ : Valuation}

theorem eval_of_runs {f : Formula} {e : Evaluation} (runs : EvalM.Runs (f.evalM ρ) e) :
    f.eval ρ = e := by
  have run := runs #[]
  rw [Array.empty_append] at run
  simp only [eval, run]

theorem exists_runs_evalM (f : Formula) : ∃ e, EvalM.Runs (f.evalM ρ) e := by
  induction f with
  | const z => exact ⟨_, EvalM.runs_pure z⟩
  | var name =>
    cases found : ρ[name]? with
    | some z => exact ⟨_, Valuation.runs_resolve_of_bound found⟩
    | none => exact ⟨_, Valuation.runs_resolve_of_unbound found⟩
  | binary op left right ihLeft ihRight =>
    obtain ⟨eLeft, runsLeft⟩ := ihLeft
    obtain ⟨eRight, runsRight⟩ := ihRight
    exact ⟨_, runsLeft.bind fun z => runsRight.bind fun w => EvalM.runs_pure (op.apply z w)⟩
  | unary op operand ih =>
    obtain ⟨e, runs⟩ := ih
    exact ⟨_, runs.bind fun z => EvalM.runs_pure (op.apply z)⟩

theorem runs_evalM (f : Formula) : EvalM.Runs (f.evalM ρ) (f.eval ρ) := by
  obtain ⟨e, runs⟩ := exists_runs_evalM f
  rwa [eval_of_runs runs]

@[simp]
theorem eval_const (z : Value) : (const z).eval ρ = ⟨.ok z, #[]⟩ := rfl

theorem eval_var_of_bound {name : String} {z : Value} (bound : ρ[name]? = some z) :
    (var name).eval ρ = ⟨.ok z, #[.resolved name z]⟩ :=
  eval_of_runs (Valuation.runs_resolve_of_bound bound)

theorem eval_var_of_unbound {name : String} (unbound : ρ[name]? = none) :
    (var name).eval ρ = ⟨.error (.undefinedVariable name), #[.missing name ρ.size]⟩ :=
  eval_of_runs (Valuation.runs_resolve_of_unbound unbound)

theorem eval_binary (op : BinaryOp) (left right : Formula) :
    (binary op left right).eval ρ = (left.eval ρ).andThen fun z =>
      (right.eval ρ).andThen fun w => ⟨.ok (op.apply z w), #[]⟩ :=
  eval_of_runs ((runs_evalM left).bind fun _ => (runs_evalM right).bind fun _ => EvalM.runs_pure _)

theorem eval_unary (op : UnaryOp) (operand : Formula) :
    (unary op operand).eval ρ = (operand.eval ρ).andThen fun z => ⟨.ok (op.apply z), #[]⟩ :=
  eval_of_runs ((runs_evalM operand).bind fun _ => EvalM.runs_pure _)

theorem eval_var_outcome (name : String) :
    ((var name).eval ρ).outcome = (ρ[name]?).elim (.error (.undefinedVariable name)) .ok := by
  cases found : ρ[name]? with
  | some z => rw [eval_var_of_bound found, Option.elim_some]
  | none => rw [eval_var_of_unbound found, Option.elim_none]

theorem eval_binary_outcome (op : BinaryOp) (left right : Formula) :
    ((binary op left right).eval ρ).outcome = (left.eval ρ).outcome.bind fun z =>
      (right.eval ρ).outcome.bind fun w => .ok (op.apply z w) := by
  simp only [eval_binary, Evaluation.andThen_outcome]

theorem eval_unary_outcome (op : UnaryOp) (operand : Formula) :
    ((unary op operand).eval ρ).outcome =
      (operand.eval ρ).outcome.bind fun z => .ok (op.apply z) := by
  simp only [eval_unary, Evaluation.andThen_outcome]

theorem eval_var_eq_ok {name : String} {v : Value} :
    ((var name).eval ρ).outcome = .ok v ↔ ρ[name]? = some v := by
  cases found : ρ[name]? with
  | some z => simp [eval_var_of_bound found]
  | none => simp [eval_var_of_unbound found]

theorem eval_binary_eq_ok {op : BinaryOp} {left right : Formula} {v : Value} :
    ((binary op left right).eval ρ).outcome = .ok v ↔
      ∃ z w, (left.eval ρ).outcome = .ok z ∧ (right.eval ρ).outcome = .ok w ∧ op.apply z w = v := by
  simp [eval_binary, Evaluation.andThen_outcome_eq_ok]

theorem eval_unary_eq_ok {op : UnaryOp} {operand : Formula} {v : Value} :
    ((unary op operand).eval ρ).outcome = .ok v ↔
      ∃ z, (operand.eval ρ).outcome = .ok z ∧ op.apply z = v := by
  simp [eval_unary, Evaluation.andThen_outcome_eq_ok]

end Formula

end ComplexFormula

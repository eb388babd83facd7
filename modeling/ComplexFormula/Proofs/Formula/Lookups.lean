import Mathlib.Data.List.Forall2
import ComplexFormula.Formula.Variables
import ComplexFormula.Proofs.Formula.Evaluation

namespace ComplexFormula

namespace Valuation

variable {ρ : Valuation} {name : String} {names : List String}

def lookups (ρ : Valuation) : List String → List LookupRecord
  | [] => []
  | name :: names =>
    match ρ[name]? with
    | some z => .resolved name z :: ρ.lookups names
    | none => [.missing name ρ.size]

def firstMissing? (ρ : Valuation) (names : List String) : Option String :=
  names.find? (· ∉ ρ)

def Resolves (ρ : Valuation) (name : String) (entry : LookupRecord) : Prop :=
  ∃ z, ρ[name]? = some z ∧ entry = .resolved name z ∧ entry.level.name = "TRACE" ∧
    entry.message = "resolved variable '" ++ name ++ "' to " ++ z.text

def Misses (ρ : Valuation) (name : String) (entry : LookupRecord) : Prop :=
  name ∉ ρ ∧ entry = .missing name ρ.size ∧ entry.level.name = "DEBUG" ∧
    entry.message =
      "variable '" ++ name ++ "' is missing from a binding of " ++ ρ.size.repr ++ " names"

theorem exists_value_of_mem (bound : name ∈ ρ) : ∃ z, ρ[name]? = some z :=
  Option.isSome_iff_exists.1 (Std.TreeMap.mem_iff_isSome_getElem?.1 bound)

theorem firstMissing?_eq_none : ρ.firstMissing? names = none ↔ ∀ name ∈ names, name ∈ ρ := by
  simp [firstMissing?]

theorem firstMissing?_eq_some : ρ.firstMissing? names = some name ↔ name ∉ ρ ∧
    ∃ before after, names = before ++ name :: after ∧ ∀ earlier ∈ before, earlier ∈ ρ := by
  simp [firstMissing?, List.find?_eq_some_iff_append]

theorem mem_of_firstMissing? (missing : ρ.firstMissing? names = some name) : name ∈ names :=
  List.mem_of_find?_eq_some missing

theorem firstMissing?_append (more : List String) :
    ρ.firstMissing? (names ++ more) = (ρ.firstMissing? names).or (ρ.firstMissing? more) :=
  List.find?_append

theorem lookups_cons_of_bound {z : Value} (bound : ρ[name]? = some z) :
    ρ.lookups (name :: names) = .resolved name z :: ρ.lookups names := by
  simp only [lookups, bound]

theorem lookups_cons_of_unbound (unbound : name ∉ ρ) :
    ρ.lookups (name :: names) = [.missing name ρ.size] := by
  simp only [lookups, Std.TreeMap.getElem?_eq_none unbound]

theorem lookups_append_of_bound (bound : ∀ name ∈ names, name ∈ ρ) (more : List String) :
    ρ.lookups (names ++ more) = ρ.lookups names ++ ρ.lookups more := by
  induction names with
  | nil => rfl
  | cons name names ih =>
    obtain ⟨first, rest⟩ := List.forall_mem_cons.1 bound
    obtain ⟨z, found⟩ := exists_value_of_mem first
    rw [List.cons_append, lookups_cons_of_bound found, lookups_cons_of_bound found, ih rest,
      List.cons_append]

theorem lookups_append_of_unbound (mem : name ∈ names) (unbound : name ∉ ρ) (more : List String) :
    ρ.lookups (names ++ more) = ρ.lookups names := by
  induction names with
  | nil => contradiction
  | cons first names ih =>
    rw [List.cons_append]
    by_cases bound : first ∈ ρ
    · obtain ⟨z, found⟩ := exists_value_of_mem bound
      have later : name ∈ names := (List.mem_cons.1 mem).resolve_left fun same => unbound (same ▸ bound)
      rw [lookups_cons_of_bound found, lookups_cons_of_bound found, ih later]
    · rw [lookups_cons_of_unbound bound, lookups_cons_of_unbound bound]

theorem forall₂_lookups (bound : ∀ name ∈ names, name ∈ ρ) :
    List.Forall₂ ρ.Resolves names (ρ.lookups names) := by
  induction names with
  | nil => exact .nil
  | cons name names ih =>
    obtain ⟨first, rest⟩ := List.forall_mem_cons.1 bound
    obtain ⟨z, found⟩ := exists_value_of_mem first
    rw [lookups_cons_of_bound found]
    exact .cons ⟨z, found, rfl, rfl, rfl⟩ (ih rest)

theorem misses_of_unbound (unbound : name ∉ ρ) : ρ.Misses name (.missing name ρ.size) :=
  ⟨unbound, rfl, rfl, rfl⟩

end Valuation

namespace Formula

variable {ρ : Valuation}

theorem eval_outcome (f : Formula) :
    (ρ.firstMissing? f.occurrences = none ∧ ∃ v, (f.eval ρ).outcome = .ok v) ∨
      ∃ name, ρ.firstMissing? f.occurrences = some name ∧
        (f.eval ρ).outcome = .error (.undefinedVariable name) := by
  induction f with
  | const z => exact .inl ⟨rfl, z, rfl⟩
  | var name =>
    by_cases bound : name ∈ ρ
    · obtain ⟨z, found⟩ := Valuation.exists_value_of_mem bound
      rw [eval_var_of_bound found]
      exact .inl ⟨by simpa [Valuation.firstMissing?, occurrences] using bound, z, rfl⟩
    · rw [eval_var_of_unbound (Std.TreeMap.getElem?_eq_none bound)]
      exact .inr ⟨name, by simpa [Valuation.firstMissing?, occurrences] using bound, rfl⟩
  | binary op left right ihLeft ihRight =>
    rw [eval_binary, occurrences, Valuation.firstMissing?_append]
    rcases ihLeft with ⟨noneLeft, z, okLeft⟩ | ⟨name, missing, failed⟩
    · rw [Evaluation.andThen_of_ok okLeft, noneLeft, Option.none_or]
      rcases ihRight with ⟨noneRight, w, okRight⟩ | ⟨name, missing, failed⟩
      · rw [Evaluation.andThen_of_ok okRight]
        exact .inl ⟨noneRight, _, rfl⟩
      · rw [Evaluation.andThen_of_error failed]
        exact .inr ⟨name, missing, rfl⟩
    · rw [Evaluation.andThen_of_error failed, missing, Option.some_or]
      exact .inr ⟨name, rfl, rfl⟩
  | unary op operand ih =>
    rw [eval_unary, occurrences]
    rcases ih with ⟨noMissing, z, ok⟩ | ⟨name, missing, failed⟩
    · rw [Evaluation.andThen_of_ok ok]
      exact .inl ⟨noMissing, _, rfl⟩
    · rw [Evaluation.andThen_of_error failed]
      exact .inr ⟨name, missing, rfl⟩

theorem eval_log (f : Formula) : (f.eval ρ).log.toList = ρ.lookups f.occurrences := by
  induction f with
  | const z => rfl
  | var name =>
    by_cases bound : name ∈ ρ
    · obtain ⟨z, found⟩ := Valuation.exists_value_of_mem bound
      rw [eval_var_of_bound found, occurrences, Valuation.lookups_cons_of_bound found]
      rfl
    · rw [eval_var_of_unbound (Std.TreeMap.getElem?_eq_none bound), occurrences,
        Valuation.lookups_cons_of_unbound bound]
  | binary op left right ihLeft ihRight =>
    rw [eval_binary, occurrences]
    rcases eval_outcome (ρ := ρ) left with ⟨noMissing, z, ok⟩ | ⟨name, missing, failed⟩
    · have bound := Valuation.firstMissing?_eq_none.1 noMissing
      rw [Evaluation.andThen_of_ok ok, Evaluation.andThen_value_log, Array.toList_append, ihLeft,
        ihRight, Valuation.lookups_append_of_bound bound]
    · obtain ⟨unbound, -⟩ := Valuation.firstMissing?_eq_some.1 missing
      rw [Evaluation.andThen_of_error failed, ihLeft,
        Valuation.lookups_append_of_unbound (Valuation.mem_of_firstMissing? missing) unbound]
  | unary op operand ih => rw [eval_unary, Evaluation.andThen_value_log, occurrences, ih]

theorem eval_ok_iff {f : Formula} :
    (∃ v, (f.eval ρ).outcome = .ok v) ↔ ∀ name ∈ f.occurrences, name ∈ ρ := by
  rw [← Valuation.firstMissing?_eq_none]
  rcases eval_outcome (ρ := ρ) f with ⟨noMissing, ok⟩ | ⟨name, missing, failed⟩
  · exact iff_of_true ok noMissing
  · simp [missing, failed]

theorem eval_error_iff {f : Formula} {name : String} :
    (f.eval ρ).outcome = .error (.undefinedVariable name) ↔
      ρ.firstMissing? f.occurrences = some name := by
  rcases eval_outcome (ρ := ρ) f with ⟨noMissing, v, ok⟩ | ⟨name, missing, failed⟩
  · simp [noMissing, ok]
  · simp [missing, failed]

theorem exists_missing_of_error {f : Formula} {error : EvalError}
    (failed : (f.eval ρ).outcome = .error error) :
    ∃ name, error = .undefinedVariable name ∧ name ∈ f.variableNames ∧ name ∉ ρ := by
  cases error with
  | undefinedVariable name =>
    have missing := eval_error_iff.1 failed
    have occurs := mem_variableNames.2 (Valuation.mem_of_firstMissing? missing)
    exact ⟨name, rfl, occurs, (Valuation.firstMissing?_eq_some.1 missing).1⟩

/-- The names are looked up from left to right, each bound one with a record of its value. If one is
not bound, the first such name is the error, and its record is the last. -/
theorem eval_in_order (ρ : Valuation) (f : Formula) :
    ((∀ name ∈ f.occurrences, name ∈ ρ) →
      (∃ v, (f.eval ρ).outcome = .ok v) ∧
        List.Forall₂ ρ.Resolves f.occurrences (f.eval ρ).log.toList) ∧
    ((¬ ∀ name ∈ f.occurrences, name ∈ ρ) →
      ∃ before name after records last, f.occurrences = before ++ name :: after ∧
        (∀ earlier ∈ before, earlier ∈ ρ) ∧ name ∉ ρ ∧
        (f.eval ρ).outcome = .error (.undefinedVariable name) ∧
        (EvalError.undefinedVariable name).message = "Undefined variable '" ++ name ++ "'." ∧
        List.Forall₂ ρ.Resolves before records ∧ ρ.Misses name last ∧
        (f.eval ρ).log.toList = records ++ [last]) := by
  rw [eval_log]
  refine ⟨fun bound => ⟨eval_ok_iff.2 bound, Valuation.forall₂_lookups bound⟩, fun unbound => ?_⟩
  rw [← Valuation.firstMissing?_eq_none] at unbound
  obtain ⟨name, missing⟩ := Option.ne_none_iff_exists'.1 unbound
  obtain ⟨unbound, before, after, split, bound⟩ := Valuation.firstMissing?_eq_some.1 missing
  refine ⟨before, name, after, ρ.lookups before, .missing name ρ.size, split, bound, unbound,
    eval_error_iff.2 missing, rfl, Valuation.forall₂_lookups bound,
    Valuation.misses_of_unbound unbound, ?_⟩
  rw [split, Valuation.lookups_append_of_bound bound, Valuation.lookups_cons_of_unbound unbound]

theorem eval_in_order_late_and_repeated_names :
    let ρ := Valuation.ofBindings [("x", 0), ("y", 1), ("x", 1)]
    let f := binary .div (unary .neg (var "y")) (binary .mul (var "x") (var "y"))
    let g := binary .mul (unary .conj (binary .add (var "x") (var "z"))) (binary .sub (var "") f)
    ((∀ name ∈ f.occurrences, name ∈ ρ) ∧ (∃ v, (f.eval ρ).outcome = .ok v) ∧
      List.Forall₂ ρ.Resolves ["y", "x", "y"] (f.eval ρ).log.toList ∧
      (f.eval ρ).log.toList.map LookupRecord.message = ["resolved variable 'y' to (1; 0)",
        "resolved variable 'x' to (1; 0)", "resolved variable 'y' to (1; 0)"]) ∧
    ((¬ ∀ name ∈ g.occurrences, name ∈ ρ) ∧ g.occurrences = ["x"] ++ "z" :: ["", "y", "x", "y"] ∧
      (g.eval ρ).outcome = .error (.undefinedVariable "z") ∧
      ∃ first last, ρ.Resolves "x" first ∧ ρ.Misses "z" last ∧
        (g.eval ρ).log.toList = [first, last] ∧
        first.message = "resolved variable 'x' to (1; 0)" ∧
        last.message = "variable 'z' is missing from a binding of 2 names") := by
  intro ρ f g
  have bound : ∀ name ∈ f.occurrences, name ∈ ρ := by decide
  have unbound : ¬ ∀ name ∈ g.occurrences, name ∈ ρ := by decide
  have messages : (f.eval ρ).log.toList.map LookupRecord.message = ["resolved variable 'y' to (1; 0)",
      "resolved variable 'x' to (1; 0)", "resolved variable 'y' to (1; 0)"] := by decide +kernel
  have messages' : (g.eval ρ).log.toList.map LookupRecord.message =
      ["resolved variable 'x' to (1; 0)", "variable 'z' is missing from a binding of 2 names"] := by
    decide +kernel
  have outcome : (g.eval ρ).outcome = .error (.undefinedVariable "z") := by rfl
  obtain ⟨value, records⟩ := (eval_in_order ρ f).1 bound
  refine ⟨⟨bound, value, records, messages⟩, unbound, rfl, outcome, ?_⟩
  obtain ⟨before, name, after, records, last, split, earlier, missing, failed, -, resolved, missed,
    log⟩ := (eval_in_order ρ g).2 unbound
  cases outcome.symm.trans failed
  have splitOff : before = ["x"] := by
    calc before = g.occurrences.takeWhile (· ∈ ρ) := by
          rw [split, List.takeWhile_append_of_pos (by simpa using earlier),
            List.takeWhile_cons_of_neg (by simpa using missing), List.append_nil]
      _ = ["x"] := by decide
  subst splitOff
  obtain ⟨first, rest, resolves, noMore, rfl⟩ := List.forall₂_cons_left_iff.1 resolved
  cases noMore
  rw [log] at messages'
  obtain ⟨firstMessage, lastMessage⟩ := List.cons.inj messages'
  exact ⟨first, last, resolves, missed, log, firstMessage, (List.cons.inj lastMessage).1⟩

theorem eval_needs_variableNames (ρ : Valuation) (f : Formula) :
    ((∃ v, (f.eval ρ).outcome = .ok v) ↔ ∀ name ∈ f.variableNames, name ∈ ρ) ∧
    ((∀ name ∈ f.variableNames, name ∈ ρ) → ∀ name ∈ f.variableNames,
      (f.eval (ρ.erase name)).outcome = .error (.undefinedVariable name)) := by
  simp only [mem_variableNames]
  refine ⟨eval_ok_iff, fun bound name occurs => ?_⟩
  rw [eval_error_iff]
  have erased : name ∉ ρ.erase name := by simp
  cases missing : Valuation.firstMissing? (ρ.erase name) f.occurrences with
  | none => exact absurd (Valuation.firstMissing?_eq_none.1 missing name occurs) erased
  | some other =>
    obtain ⟨unbound, -⟩ := Valuation.firstMissing?_eq_some.1 missing
    have boundBefore := bound other (Valuation.mem_of_firstMissing? missing)
    have same : name = other := by
      simpa [Std.TreeMap.mem_erase, boundBefore] using unbound
    rw [same]

theorem eval_needs_factor_of_zero :
    let ρ := Valuation.ofBindings [("x", 1), ("y", 0), ("z", 1)]
    let f := binary .add (var "y") (binary .mul (const 0) (unary .neg (var "x")))
    ((∃ v, (f.eval ρ).outcome = .ok v) ↔ ∀ name ∈ f.variableNames, name ∈ ρ) ∧
    (∀ name ∈ f.variableNames, name ∈ ρ) ∧ "x" ∈ f.variableNames ∧
      (f.eval (ρ.erase "x")).outcome = .error (.undefinedVariable "x") := by
  intro ρ f
  have bound : ∀ name ∈ f.variableNames, name ∈ ρ := by decide
  have listed : "x" ∈ f.variableNames := by decide
  have needs := eval_needs_variableNames ρ f
  exact ⟨needs.1, bound, listed, needs.2 bound "x" listed⟩

end Formula

end ComplexFormula

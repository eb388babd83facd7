import ComplexFormula.Workspace

namespace ComplexFormula

/-- The names of the formulas that the edit reads, in the order in which they are looked up. -/
def Edit.names (target : String) : Edit → List String
  | define _ => []
  | copy source => [source]
  | combine _ left right => [left, right]
  | transform _ operand => [operand]
  | replace _ source | chain _ _ source _ => [target, source]
  | setOperator _ _ | wrap _ _ | double _ _ => [target]

def Query.names : Query → List String
  | eval name _ | text name | variableNames name | depth name => [name]
  | close name other => [name, other]

namespace Request

def names : Request → List String
  | edit target change => change.names target
  | query question => question.names

def target? : Request → Option String
  | edit target _ => some target
  | query _ => none

end Request

namespace Workspace

variable {α : Type} {w w' w'' : Workspace} {name first target : String} {names : List String}
  {change : Edit} {question : Query} {request : Request}
  {requests before between after : List Request} {reply : Answer} {replies : List Answer}
  {error : WorkspaceError}

def firstUnknown? (w : Workspace) (names : List String) : Option String :=
  names.find? (· ∉ w)

theorem bind_eq_ok {β : Type} {x : Except WorkspaceError α} {next : α → Except WorkspaceError β}
    {b : β} : (x >>= next) = .ok b ↔ ∃ a, x = .ok a ∧ next a = .ok b := by
  cases x <;> simp [bind, Except.bind]

theorem bind_pure_eq_error {β : Type} {x : Except WorkspaceError α} {value : α → β} :
    (x >>= fun a => pure (value a)) = .error error ↔ x = .error error := by
  cases x <;> simp [bind, Except.bind, pure, Except.pure]

theorem pure_ne_unknownName {a : α} :
    (pure a : Except WorkspaceError α) = .error (.unknownName name) ↔
      w.firstUnknown? [] = some name := by
  simp [pure, Except.pure, firstUnknown?]

theorem atNode_ne_unknownName {path : Path} {f? : Option Formula} :
    edited.atNode path f? = .error (.unknownName name) ↔ w.firstUnknown? [] = some name := by
  cases f? <;> simp [edited.atNode, firstUnknown?]

theorem find_bind_eq_unknownName {next : Formula → Except WorkspaceError α}
    (rest : ∀ f, next f = .error (.unknownName name) ↔ w.firstUnknown? names = some name) :
    (w.find first >>= next) = .error (.unknownName name) ↔
      w.firstUnknown? (first :: names) = some name := by
  by_cases known : first ∈ w
  · obtain ⟨f, found⟩ := Option.isSome_iff_exists.1 (Std.TreeMap.mem_iff_isSome_getElem?.1 known)
    have skipped : w.firstUnknown? (first :: names) = w.firstUnknown? names :=
      List.find?_cons_of_neg (by simpa using known)
    rw [skipped, ← rest f, find, found]
    rfl
  · have stopped : w.firstUnknown? (first :: names) = some first :=
      List.find?_cons_of_pos (by simpa using known)
    rw [stopped, find, Std.TreeMap.getElem?_eq_none known]
    simp [bind, Except.bind]

theorem edited_eq_unknownName :
    w.edited target change = .error (.unknownName name) ↔
      w.firstUnknown? (change.names target) = some name := by
  cases change with
  | define f => exact pure_ne_unknownName
  | copy source =>
    rw [← bind_pure (w.edited target (.copy source))]
    exact find_bind_eq_unknownName fun f => pure_ne_unknownName
  | combine op left right =>
    exact find_bind_eq_unknownName fun f => find_bind_eq_unknownName fun g => pure_ne_unknownName
  | transform op operand => exact find_bind_eq_unknownName fun f => pure_ne_unknownName
  | replace path source =>
    exact find_bind_eq_unknownName fun f => find_bind_eq_unknownName fun g => atNode_ne_unknownName
  | setOperator path op => exact find_bind_eq_unknownName fun f => atNode_ne_unknownName
  | wrap op times => exact find_bind_eq_unknownName fun f => pure_ne_unknownName
  | chain op side source times =>
    exact find_bind_eq_unknownName fun f => find_bind_eq_unknownName fun g => pure_ne_unknownName
  | double op times => exact find_bind_eq_unknownName fun f => pure_ne_unknownName

theorem answer_eq_unknownName :
    w.answer question = .error (.unknownName name) ↔ w.firstUnknown? question.names = some name := by
  cases question with
  | eval other ρ => exact find_bind_eq_unknownName fun f => pure_ne_unknownName
  | text other | variableNames other | depth other =>
    exact find_bind_eq_unknownName fun f => pure_ne_unknownName
  | close other another =>
    exact find_bind_eq_unknownName fun f => find_bind_eq_unknownName fun g => pure_ne_unknownName

theorem handle_eq_unknownName :
    w.handle request = .error (.unknownName name) ↔ w.firstUnknown? request.names = some name := by
  cases request with
  | edit target change => exact bind_pure_eq_error.trans edited_eq_unknownName
  | query question => exact bind_pure_eq_error.trans answer_eq_unknownName

theorem find_congr (same : w[name]? = w'[name]?) : w.find name = w'.find name := by
  rw [find, find, same]

theorem answer_congr (same : ∀ name ∈ question.names, w[name]? = w'[name]?) :
    w.answer question = w'.answer question := by
  cases question with
  | eval name _ | text name | variableNames name | depth name =>
    simp only [Workspace.answer, find_congr (same name List.mem_cons_self)]
  | close name other =>
    have sameOther := same other (List.mem_cons_of_mem name List.mem_cons_self)
    simp only [Workspace.answer, find_congr (same name List.mem_cons_self), find_congr sameOther]

theorem handle_cases (handled : w.handle request = .ok (reply, w')) :
    (∃ target change f, request = .edit target change ∧ w.edited target change = .ok f ∧
      reply = .summary f.summary ∧ w' = w.insert target f) ∨
    (∃ question, request = .query question ∧ w.answer question = .ok reply ∧ w' = w) := by
  cases request with
  | edit target change =>
    obtain ⟨f, edited, done⟩ := bind_eq_ok.1 handled
    cases done
    exact .inl ⟨target, change, f, rfl, edited, rfl, rfl⟩
  | query question =>
    obtain ⟨answer, answered, done⟩ := bind_eq_ok.1 handled
    cases done
    exact .inr ⟨question, rfl, answered, rfl⟩

theorem getElem?_of_handle (handled : w.handle request = .ok (reply, w'))
    (untouched : request.target? ≠ some name) : w'[name]? = w[name]? := by
  obtain ⟨target, change, f, rfl, -, -, rfl⟩ | ⟨question, rfl, -, rfl⟩ := handle_cases handled
  · have other : target ≠ name := fun same => untouched (congrArg some same)
    rw [Std.TreeMap.getElem?_insert, if_neg (mt Std.LawfulEqCmp.eq_of_compare other)]
  · rfl

theorem mem_of_handle (handled : w.handle request = .ok (reply, w')) :
    name ∈ w' ↔ name ∈ w ∨ request.target? = some name := by
  obtain ⟨target, change, f, rfl, -, -, rfl⟩ | ⟨question, rfl, -, rfl⟩ := handle_cases handled
  · rw [Std.TreeMap.mem_insert, Std.LawfulEqCmp.compare_eq_iff_eq, or_comm, Request.target?,
      Option.some.injEq]
  · simp [Request.target?]

inductive Runs : Workspace → List Request → List Answer → Workspace → Prop where
  | nil {w : Workspace} : Runs w [] [] w
  | cons {w w' w'' : Workspace} {request : Request} {requests : List Request} {reply : Answer}
    {replies : List Answer} : w.handle request = .ok (reply, w') → Runs w' requests replies w'' →
      Runs w (request :: requests) (reply :: replies) w''

namespace Runs

theorem getElem?_eq (runs : Runs w requests replies w')
    (untouched : ∀ request ∈ requests, request.target? ≠ some name) : w'[name]? = w[name]? := by
  induction runs with
  | nil => rfl
  | cons handled _ ih =>
    obtain ⟨here, later⟩ := List.forall_mem_cons.1 untouched
    rw [ih later, getElem?_of_handle handled here]

theorem mem_iff (runs : Runs w requests replies w') :
    name ∈ w' ↔ name ∈ w ∨ ∃ request ∈ requests, request.target? = some name := by
  induction runs with
  | nil => simp
  | cons handled _ ih =>
    simp only [ih, mem_of_handle handled, List.mem_cons, exists_eq_or_imp, or_assoc]

theorem split (runs : Runs w (before ++ after) replies w'') :
    ∃ replies₁ replies₂ w', replies = replies₁ ++ replies₂ ∧ replies₁.length = before.length ∧
      Runs w before replies₁ w' ∧ Runs w' after replies₂ w'' := by
  induction before generalizing w replies with
  | nil => exact ⟨[], replies, w, rfl, rfl, .nil, runs⟩
  | cons request before ih =>
    cases runs with
    | @cons _ w' _ _ _ reply replies handled rest =>
      obtain ⟨replies₁, replies₂, w₁, rfl, length, first, second⟩ := ih rest
      exact ⟨reply :: replies₁, replies₂, w₁, rfl, congrArg (· + 1) length, .cons handled first,
        second⟩

theorem of_query (runs : Runs w (.query question :: after) replies w') :
    ∃ reply rest, replies = reply :: rest ∧ w.answer question = .ok reply ∧
      Runs w after rest w' := by
  cases runs with
  | @cons _ _ _ _ _ reply rest handled runs =>
    obtain ⟨_, _, _, isEdit, -⟩ | ⟨_, ⟨⟩, answered, rfl⟩ := handle_cases handled
    · contradiction
    · exact ⟨reply, rest, rfl, answered, runs⟩

end Runs

theorem go_eq_ok : run.go w requests = .ok replies ↔ ∃ w', Runs w requests replies w' := by
  induction requests generalizing w replies with
  | nil =>
    constructor
    · intro done
      cases done
      exact ⟨w, .nil⟩
    · rintro ⟨w', ⟨⟩⟩
      rfl
  | cons request requests ih =>
    constructor
    · intro ok
      obtain ⟨⟨reply, w'⟩, handled, rest⟩ := bind_eq_ok.1 ok
      obtain ⟨replies, went, done⟩ := bind_eq_ok.1 rest
      cases done
      obtain ⟨w'', runs⟩ := ih.1 went
      exact ⟨w'', .cons handled runs⟩
    · rintro ⟨w'', runs⟩
      cases runs with
      | @cons _ w' _ _ _ reply replies handled runs =>
        exact bind_eq_ok.2 ⟨(reply, w'), handled, bind_eq_ok.2 ⟨replies, ih.2 ⟨w'', runs⟩, rfl⟩⟩

theorem run_eq_ok : run requests = .ok replies ↔ ∃ w, Runs ∅ requests replies w :=
  go_eq_ok

theorem exists_of_go_eq_error (failed : run.go w requests = .error error) :
    ∃ before request after replies w', requests = before ++ request :: after ∧
      Runs w before replies w' ∧ w'.handle request = .error error := by
  induction requests generalizing w with
  | nil => contradiction
  | cons request requests ih =>
    cases handled : w.handle request with
    | error other =>
      have same : run.go w (request :: requests) = .error other := by
        rw [run.go, handled]
        rfl
      cases same.symm.trans failed
      exact ⟨[], request, requests, [], w, rfl, .nil, handled⟩
    | ok result =>
      obtain ⟨reply, w'⟩ := result
      rw [run.go, handled] at failed
      obtain ⟨before, request', after, replies, w'', rfl, runs, stopped⟩ :=
        ih (bind_pure_eq_error.1 failed)
      exact ⟨request :: before, request', after, reply :: replies, w'', rfl, .cons handled runs,
        stopped⟩

/-- A run is ended by a name only if nothing was put under that name before. -/
theorem run_eq_unknownName (failed : run requests = .error (.unknownName name)) :
    ∃ before request after, requests = before ++ request :: after ∧ name ∈ request.names ∧
      ∀ earlier ∈ before, earlier.target? ≠ some name := by
  obtain ⟨before, request, after, replies, w, rfl, runs, stopped⟩ := exists_of_go_eq_error failed
  have unknown := handle_eq_unknownName.1 stopped
  have absent : name ∉ w := by simpa using List.find?_some unknown
  refine ⟨before, request, after, rfl, List.mem_of_find?_eq_some unknown, ?_⟩
  intro earlier member target
  exact absent (runs.mem_iff.2 (.inr ⟨earlier, member, target⟩))

/-- A question asked twice is answered alike unless a formula that it is about was edited. -/
theorem run_asked_again
    (ok : run (before ++ .query question :: (between ++ .query question :: after)) = .ok replies)
    (untouched : ∀ request ∈ between, ∀ name ∈ question.names, request.target? ≠ some name) :
    ∃ first second third reply, replies = first ++ reply :: (second ++ reply :: third) ∧
      first.length = before.length ∧ second.length = between.length := by
  obtain ⟨w, runs⟩ := run_eq_ok.1 ok
  obtain ⟨first, _, w₁, rfl, length, -, runs⟩ := runs.split
  obtain ⟨reply, _, rfl, answered, runs⟩ := runs.of_query
  obtain ⟨second, _, w₂, rfl, length', through, runs⟩ := runs.split
  obtain ⟨reply', third, rfl, answered', -⟩ := runs.of_query
  have kept : w₂.answer question = w₁.answer question := answer_congr fun name read =>
    through.getElem?_eq fun request member => untouched request member name read
  cases answered'.symm.trans (kept.trans answered)
  exact ⟨first, second, third, reply, rfl, length, length'⟩

end Workspace

end ComplexFormula

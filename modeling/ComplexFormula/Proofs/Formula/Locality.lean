import ComplexFormula.Formula.Text
import ComplexFormula.Proofs.Formula.Replacement

namespace ComplexFormula

namespace Path

/-- Neither path leads through the end of the other. -/
def Diverge (path other : Path) : Prop :=
  ¬ path <+: other ∧ ¬ other <+: path

instance (path other : Path) : Decidable (path.Diverge other) :=
  inferInstanceAs (Decidable (_ ∧ _))

variable {path other : Path} {branch branch' : Branch}

theorem not_nil_diverge : ¬ Diverge [] other :=
  fun diverge => diverge.1 List.nil_prefix

theorem not_diverge_nil : ¬ Diverge path [] :=
  fun diverge => diverge.2 List.nil_prefix

theorem cons_diverge_cons :
    Diverge (branch :: path) (branch' :: other) ↔ (branch = branch' → Diverge path other) := by
  by_cases same : branch = branch'
  · simp [Diverge, List.cons_prefix_cons, same]
  · simp [Diverge, List.cons_prefix_cons, same, Ne.symm same]

end Path

namespace Formula

variable {path other : Path} {f g g' part : Formula} {change change' : Formula → Option Formula}

theorem exists_text_around (found : f.subformula? path = some part) :
    ∃ before after : String, ∀ part', ∃ g,
      f.replaceAt? path part' = some g ∧ g.text = before ++ part'.text ++ after := by
  fun_induction subformula? path f with
  | case1 f => exact ⟨"", "", fun part' => ⟨part', rfl, by simp⟩⟩
  | case2 path op left right ih =>
    obtain ⟨before, after, around⟩ := ih found
    refine ⟨"(" ++ before, after ++ " " ++ op.symbol ++ " " ++ right.text ++ ")", fun part' => ?_⟩
    obtain ⟨left', replaced, text_eq⟩ := around part'
    refine ⟨binary op left' right, modifyAt?_left replaced, ?_⟩
    simp only [text, text_eq, String.append_assoc]
  | case3 path op left right ih =>
    obtain ⟨before, after, around⟩ := ih found
    refine ⟨"(" ++ left.text ++ " " ++ op.symbol ++ " " ++ before, after ++ ")", fun part' => ?_⟩
    obtain ⟨right', replaced, text_eq⟩ := around part'
    refine ⟨binary op left right', modifyAt?_right replaced, ?_⟩
    simp only [text, text_eq, String.append_assoc]
  | case4 path op operand ih =>
    obtain ⟨before, after, around⟩ := ih found
    refine ⟨"(" ++ op.symbol ++ before, after ++ ")", fun part' => ?_⟩
    obtain ⟨operand', replaced, text_eq⟩ := around part'
    refine ⟨unary op operand', modifyAt?_operand replaced, ?_⟩
    simp only [text, text_eq, String.append_assoc]
  | case5 => contradiction

theorem exists_replaceAt? (found : f.subformula? path = some part) (part' : Formula) :
    ∃ g, f.replaceAt? path part' = some g := by
  obtain ⟨before, after, around⟩ := exists_text_around found
  obtain ⟨g, replaced, -⟩ := around part'
  exact ⟨g, replaced⟩

-- Neither change meets what the other one leaves behind, so each can still be made, as before.
theorem modifyAt?_confluent (diverge : path.Diverge other)
    (modified : f.modifyAt? change path = some g) (modified' : f.modifyAt? change' other = some g') :
    ∃ h, g.modifyAt? change' other = some h ∧ g'.modifyAt? change path = some h := by
  induction path, f using modifyAt?.induct generalizing other g g' with
  | case1 f => exact absurd diverge Path.not_nil_diverge
  | case2 path op left right ih =>
    obtain ⟨left', modifiedLeft, rfl⟩ := Option.map_eq_some_iff.1 modified
    cases other with
    | nil => exact absurd diverge Path.not_diverge_nil
    | cons branch other =>
      cases branch with
      | left =>
        obtain ⟨left'', modifiedLeft', rfl⟩ := Option.map_eq_some_iff.1 modified'
        have within := Path.cons_diverge_cons.1 diverge rfl
        obtain ⟨h, first, second⟩ := ih within modifiedLeft modifiedLeft'
        exact ⟨binary op h right, modifyAt?_left first, modifyAt?_left second⟩
      | right =>
        obtain ⟨right', modifiedRight, rfl⟩ := Option.map_eq_some_iff.1 modified'
        exact ⟨binary op left' right', modifyAt?_right modifiedRight, modifyAt?_left modifiedLeft⟩
      | operand => contradiction
  | case3 path op left right ih =>
    obtain ⟨right', modifiedRight, rfl⟩ := Option.map_eq_some_iff.1 modified
    cases other with
    | nil => exact absurd diverge Path.not_diverge_nil
    | cons branch other =>
      cases branch with
      | left =>
        obtain ⟨left', modifiedLeft, rfl⟩ := Option.map_eq_some_iff.1 modified'
        exact ⟨binary op left' right', modifyAt?_left modifiedLeft, modifyAt?_right modifiedRight⟩
      | right =>
        obtain ⟨right'', modifiedRight', rfl⟩ := Option.map_eq_some_iff.1 modified'
        have within := Path.cons_diverge_cons.1 diverge rfl
        obtain ⟨h, first, second⟩ := ih within modifiedRight modifiedRight'
        exact ⟨binary op left h, modifyAt?_right first, modifyAt?_right second⟩
      | operand => contradiction
  | case4 path op operand ih =>
    obtain ⟨operand', modifiedOperand, rfl⟩ := Option.map_eq_some_iff.1 modified
    cases other with
    | nil => exact absurd diverge Path.not_diverge_nil
    | cons branch other =>
      cases branch with
      | left | right => contradiction
      | operand =>
        obtain ⟨operand'', modifiedOperand', rfl⟩ := Option.map_eq_some_iff.1 modified'
        have within := Path.cons_diverge_cons.1 diverge rfl
        obtain ⟨h, first, second⟩ := ih within modifiedOperand modifiedOperand'
        exact ⟨unary op h, modifyAt?_operand first, modifyAt?_operand second⟩
  | case5 branch path f noLeft noRight noOperand =>
    simp only [modifyAt?] at modified
    contradiction

theorem replaceAt?_local (found : f.subformula? path = some part) :
    (∃ before after : String, ∀ part', ∃ g,
      f.replaceAt? path part' = some g ∧ g.text = before ++ part'.text ++ after) ∧
    (∀ ρ part' part'', part'.eval ρ = part''.eval ρ → ∃ g g',
      f.replaceAt? path part' = some g ∧ f.replaceAt? path part'' = some g' ∧
        g.eval ρ = g'.eval ρ) ∧
    (∀ other otherPart, f.subformula? other = some otherPart → path.Diverge other →
      ∀ part' otherPart', ∃ h,
        (f.replaceAt? path part').bind (·.replaceAt? other otherPart') = some h ∧
        (f.replaceAt? other otherPart').bind (·.replaceAt? path part') = some h) := by
  refine ⟨exists_text_around found, fun ρ part' part'' same => ?_,
    fun other otherPart foundOther diverge part' otherPart' => ?_⟩
  · obtain ⟨g, replaced⟩ := exists_replaceAt? found part'
    obtain ⟨g', replaced'⟩ := exists_replaceAt? found part''
    have parts := map_eval_replaceAt? path f same
    rw [replaced, replaced'] at parts
    exact ⟨g, g', replaced, replaced', Option.some.inj parts⟩
  · obtain ⟨g, replaced⟩ := exists_replaceAt? found part'
    obtain ⟨g', replaced'⟩ := exists_replaceAt? foundOther otherPart'
    rw [replaced, replaced', Option.bind_some, Option.bind_some]
    exact modifyAt?_confluent diverge replaced replaced'

theorem replaceAt?_local_of_missing :
    let ρ := Valuation.ofBindings [("x", 1)]
    let f := binary .div (binary .add (var "x") (unary .neg (var "y"))) (var "z")
    let path : Path := [.left, .right, .operand]
    let part := var "u"
    let part' := unary .conj (var "u")
    (f.subformula? path = some (var "y") ∧ part.eval ρ = part'.eval ρ ∧
      f.subformula? [.right] = some (var "z") ∧ path.Diverge [.right]) ∧
    (∃ before after : String,
      (∃ g, f.replaceAt? path part = some g ∧ g.text = before ++ "u" ++ after) ∧
      ∃ g, f.replaceAt? path part' = some g ∧ g.text = before ++ "(~u)" ++ after) ∧
    (∃ g g', f.replaceAt? path part = some g ∧ f.replaceAt? path part' = some g' ∧
      g.eval ρ = g'.eval ρ) ∧
    ∃ h, (f.replaceAt? path part).bind (·.replaceAt? [.right] part') = some h ∧
      (f.replaceAt? [.right] part').bind (·.replaceAt? path part) = some h := by
  intro ρ f path part part'
  have found : f.subformula? path = some (var "y") := rfl
  have foundOther : f.subformula? [.right] = some (var "z") := rfl
  have same : part.eval ρ = part'.eval ρ := by rfl
  have diverge : path.Diverge [.right] := by decide
  obtain ⟨⟨before, after, around⟩, alike, anyOrder⟩ := replaceAt?_local found
  exact ⟨⟨found, same, foundOther, diverge⟩, ⟨before, after, around part, around part'⟩,
    alike ρ part part' same, anyOrder [.right] (var "z") foundOther diverge part part'⟩

end Formula

end ComplexFormula

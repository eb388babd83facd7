import ComplexFormula.Formula.Variables
import ComplexFormula.Proofs.Formula.Replacement
import ComplexFormula.Proofs.TextOrder

namespace ComplexFormula.Formula

def HasVariable (f : Formula) (name : String) : Prop :=
  ∃ path, f.subformula? path = some (var name)

variable {f g : Formula} {name : String}

theorem hasVariable_of_mem_occurrences (occurs : name ∈ f.occurrences) : f.HasVariable name := by
  induction f with
  | const z => contradiction
  | var other => exact ⟨[], by rw [List.mem_singleton.1 occurs]; rfl⟩
  | binary op left right ihLeft ihRight =>
    rcases List.mem_append.1 occurs with inLeft | inRight
    · obtain ⟨path, found⟩ := ihLeft inLeft
      exact ⟨.left :: path, found⟩
    · obtain ⟨path, found⟩ := ihRight inRight
      exact ⟨.right :: path, found⟩
  | unary op operand ih =>
    obtain ⟨path, found⟩ := ih occurs
    exact ⟨.operand :: path, found⟩

theorem mem_occurrences : name ∈ f.occurrences ↔ f.HasVariable name := by
  refine ⟨hasVariable_of_mem_occurrences, fun ⟨path, found⟩ => ?_⟩
  exact mem_occurrences_of_subformula? found (List.mem_singleton_self name)

theorem mem_variableNames_iff : name ∈ f.variableNames ↔ f.HasVariable name :=
  mem_variableNames.trans mem_occurrences

theorem pairwise_variableNames (f : Formula) : f.variableNames.Pairwise (· < ·) := by
  have ordered := Std.TreeSet.ordered_toList (t := f.collectNames ∅)
  exact ordered.imp compareOfLessAndEq_eq_lt.1

theorem variableNames_eq_iff :
    f.variableNames = g.variableNames ↔ ∀ name, f.HasVariable name ↔ g.HasVariable name := by
  constructor
  · intro same name
    rw [← mem_variableNames_iff, same, mem_variableNames_iff]
  · intro same
    exact variableNames_congr fun name => by rw [mem_occurrences, mem_occurrences, same]

theorem variableNames_eq_sorted_leaves (f : Formula) :
    (∀ name, name ∈ f.variableNames ↔ f.HasVariable name) ∧
    f.variableNames.Pairwise (fun x y => utf8Bytes x < utf8Bytes y) ∧
    (∀ x y, utf8Bytes x < utf8Bytes y ↔ codePoints x < codePoints y) ∧
    f.variableNames.Nodup ∧
    ∀ g : Formula, f.variableNames = g.variableNames ↔
      ∀ name, f.HasVariable name ↔ g.HasVariable name := by
  have increasing := pairwise_variableNames f
  refine ⟨fun _ => mem_variableNames_iff, ?_, ?_, ?_, fun _ => variableNames_eq_iff⟩
  · exact increasing.imp utf8Bytes_lt_iff.2
  · exact fun x y => utf8Bytes_lt_iff.trans codePoints_lt_iff.symm
  · exact increasing.imp String.ne_of_lt

end ComplexFormula.Formula

import Std.Data.TreeSet
import ComplexFormula.Formula.Basic

namespace ComplexFormula.Formula

def collectNames : Formula → Std.TreeSet String → Std.TreeSet String
  | const _, names => names
  | var name, names => names.insert name
  | binary _ left right, names => right.collectNames (left.collectNames names)
  | unary _ operand, names => operand.collectNames names

def variableNames (f : Formula) : List String :=
  (f.collectNames ∅).toList

theorem mem_collectNames {f : Formula} {names : Std.TreeSet String} {name : String} :
    name ∈ f.collectNames names ↔ name ∈ names ∨ name ∈ f.occurrences := by
  induction f generalizing names with
  | const _ => simp [collectNames, occurrences]
  | var other =>
    rw [collectNames, Std.TreeSet.mem_insert, Std.LawfulEqCmp.compare_eq_iff_eq, or_comm,
      eq_comm, occurrences, List.mem_singleton]
  | binary _ left right ihLeft ihRight =>
    simp [collectNames, occurrences, ihLeft, ihRight, or_assoc]
  | unary _ operand ih => exact ih

theorem mem_variableNames {f : Formula} {name : String} :
    name ∈ f.variableNames ↔ name ∈ f.occurrences := by
  simp [variableNames, Std.TreeSet.mem_toList, mem_collectNames]

theorem variableNames_congr {f g : Formula}
    (same : ∀ name, name ∈ f.occurrences ↔ name ∈ g.occurrences) :
    f.variableNames = g.variableNames := by
  have equivalent : (f.collectNames ∅).Equiv (g.collectNames ∅) :=
    .of_forall_mem_iff fun name => by simp [mem_collectNames, same]
  exact equivalent.toList_eq

end ComplexFormula.Formula

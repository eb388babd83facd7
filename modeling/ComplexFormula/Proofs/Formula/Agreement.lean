import Mathlib.Data.Finset.Card
import Mathlib.Data.Finset.Dedup
import Mathlib.Data.List.Induction
import ComplexFormula.Formula.Variables
import ComplexFormula.Proofs.Formula.Evaluation

namespace ComplexFormula

namespace Valuation

end Valuation

namespace Formula

/-- The same outcome with the same records, but for the number of bound names that the record of a
missing one tells. -/
inductive Evaluation.SameButCount (count count' : Nat) : Evaluation → Evaluation → Prop where
  | ok (v : Value) (records : Array LookupRecord) :
    SameButCount count count' ⟨.ok v, records⟩ ⟨.ok v, records⟩
  | missing (name : String) (records : Array LookupRecord) :
    SameButCount count count'
      ⟨.error (.undefinedVariable name), records.push (.missing name count)⟩
      ⟨.error (.undefinedVariable name), records.push (.missing name count')⟩

namespace Evaluation.SameButCount

variable {count count' : Nat} {e e' : Evaluation} {next next' : Value → Evaluation}

theorem after (records : Array LookupRecord) (same : SameButCount count count' e e') :
    SameButCount count count' ⟨e.outcome, records ++ e.log⟩ ⟨e'.outcome, records ++ e'.log⟩ := by
  cases same with
  | ok v more => exact .ok v (records ++ more)
  | missing name more =>
    rw [Array.append_push, Array.append_push]
    exact .missing name (records ++ more)

theorem andThen (first : SameButCount count count' e e')
    (rest : ∀ z, SameButCount count count' (next z) (next' z)) :
    SameButCount count count' (e.andThen next) (e'.andThen next') := by
  cases first with
  | ok z records => exact (rest z).after records
  | missing name records => exact .missing name records

end Evaluation.SameButCount

open Evaluation (SameButCount)

variable {ρ ρ' : Valuation}

end Formula

end ComplexFormula

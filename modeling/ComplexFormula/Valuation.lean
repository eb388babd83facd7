import Std.Data.TreeMap
import ComplexFormula.Complex.Value

namespace ComplexFormula

abbrev Valuation := Std.TreeMap String Value

/-- The valuation after the bindings are made one by one: a later one replaces an earlier one of
the same name. -/
def Valuation.ofBindings (bindings : List (String × Value)) : Valuation :=
  bindings.foldl (fun ρ binding => ρ.insert binding.1 binding.2) ∅

end ComplexFormula

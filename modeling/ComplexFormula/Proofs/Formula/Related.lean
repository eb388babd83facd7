import ComplexFormula.Proofs.Formula.Evaluation

namespace ComplexFormula

variable {r : Value → Value → Prop}

inductive OutcomeRel (r : Value → Value → Prop) :
    Except EvalError Value → Except EvalError Value → Prop where
  | ok {z w : Value} (related : r z w) : OutcomeRel r (.ok z) (.ok w)
  | error (error : EvalError) : OutcomeRel r (.error error) (.error error)

theorem OutcomeRel.bind {x y : Except EvalError Value}
    {next next' : Value → Except EvalError Value} (first : OutcomeRel r x y)
    (rest : ∀ {z w}, r z w → OutcomeRel r (next z) (next' w)) :
    OutcomeRel r (x.bind next) (y.bind next') := by
  cases first with
  | ok related => exact rest related
  | error error => exact .error error

structure KeptByOperators (r : Value → Value → Prop) : Prop where
  binary (op : BinaryOp) {z z' w w' : Value} : r z z' → r w w' → r (op.apply z w) (op.apply z' w')
  unary (op : UnaryOp) {z z' : Value} : r z z' → r (op.apply z) (op.apply z')

def Valuation.Related (r : Value → Value → Prop) (ρ ρ' : Valuation) : Prop :=
  ∀ name : String, Option.Rel r ρ[name]? ρ'[name]?

namespace Valuation.Related

variable {ρ ρ' : Valuation}

theorem empty : Valuation.Related r ∅ ∅ := by
  intro name
  rw [Std.TreeMap.getElem?_emptyc]
  exact .none

theorem insert (related : ρ.Related r ρ') {z w : Value} (value : r z w) (name : String) :
    Valuation.Related r (ρ.insert name z) (ρ'.insert name w) := by
  intro other
  rw [Std.TreeMap.getElem?_insert, Std.TreeMap.getElem?_insert]
  split
  · exact .some value
  · exact related other

theorem map {value : Value → Value} (each : ∀ z, r z (value z)) (ρ : Valuation) :
    Valuation.Related r ρ (ρ.map fun _ z => value z) := by
  intro name
  rw [Std.TreeMap.getElem?_map]
  cases ρ[name]? with
  | none => exact .none
  | some z => exact .some (each z)

end Valuation.Related

namespace Formula

/-- The same tree but for the constants, which are related. -/
inductive Related (r : Value → Value → Prop) : Formula → Formula → Prop where
  | const {z w : Value} (related : r z w) : Related r (const z) (const w)
  | var (name : String) : Related r (var name) (var name)
  | binary (op : BinaryOp) {left left' right right' : Formula} :
    Related r left left' → Related r right right' →
      Related r (binary op left right) (binary op left' right')
  | unary (op : UnaryOp) {operand operand' : Formula} :
    Related r operand operand' → Related r (unary op operand) (unary op operand')

def mapConstants (value : Value → Value) : Formula → Formula
  | const z => const (value z)
  | var name => var name
  | binary op left right => binary op (left.mapConstants value) (right.mapConstants value)
  | unary op operand => unary op (operand.mapConstants value)

theorem related_mapConstants {value : Value → Value} (each : ∀ z, r z (value z)) (f : Formula) :
    Related r f (f.mapConstants value) := by
  induction f with
  | const z => exact .const (each z)
  | var name => exact .var name
  | binary op left right ihLeft ihRight => exact .binary op ihLeft ihRight
  | unary op operand ih => exact .unary op ih

namespace Related

variable {f f' : Formula}

theorem symm {s : Value → Value → Prop} (symmetric : ∀ {z w}, r z w → s w z)
    (formulas : Related r f f') : Related s f' f := by
  induction formulas with
  | const related => exact .const (symmetric related)
  | var name => exact .var name
  | binary op _ _ ihLeft ihRight => exact .binary op ihLeft ihRight
  | unary op _ ih => exact .unary op ih

theorem occurrences_eq (formulas : Related r f f') : f'.occurrences = f.occurrences := by
  induction formulas with
  | const _ | var _ => rfl
  | binary op _ _ ihLeft ihRight => rw [occurrences, occurrences, ihLeft, ihRight]
  | unary op _ ih => rw [occurrences, occurrences, ih]

theorem depth_eq (formulas : Related r f f') : f'.depth = f.depth := by
  induction formulas with
  | const _ | var _ => rfl
  | binary op _ _ ihLeft ihRight => rw [depth, depth, ihLeft, ihRight]
  | unary op _ ih => rw [depth, depth, ih]

theorem outcome {ρ ρ' : Valuation} (formulas : Related r f f')
    (kept : KeptByOperators r) (bindings : ρ.Related r ρ') :
    OutcomeRel r (f.eval ρ).outcome (f'.eval ρ').outcome := by
  induction formulas with
  | const related => exact .ok related
  | var name =>
    have bound := bindings name
    rw [eval_var_outcome, eval_var_outcome]
    generalize ρ[name]? = found, ρ'[name]? = found' at bound ⊢
    cases bound with
    | none => exact .error _
    | some related => exact .ok related
  | binary op _ _ ihLeft ihRight =>
    rw [eval_binary_outcome, eval_binary_outcome]
    exact ihLeft.bind fun left => ihRight.bind fun right => .ok (kept.binary op left right)
  | unary op _ ih =>
    rw [eval_unary_outcome, eval_unary_outcome]
    exact ih.bind fun operand => .ok (kept.unary op operand)

end Related

end Formula

end ComplexFormula

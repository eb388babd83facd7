import ComplexFormula.Proofs.Complex.Division
import ComplexFormula.Proofs.Formula.Evaluation

namespace ComplexFormula

/-- A property that passes from an operand to the result, the divisor left out. -/
structure Sticky (p : Binary64 → Prop) : Prop where
  neg {x : Binary64} : p x → p (-x)
  add_left {x y : Binary64} : p x → p (x + y)
  mul_left {x y : Binary64} : p x → p (x * y)
  dividend {x y : Binary64} : p x → p (x / y)

namespace Sticky

variable {p : Binary64 → Prop} {x y : Binary64}

theorem add_right (sticky : Sticky p) (holds : p y) : p (x + y) := by
  rw [Binary64.add_comm]
  exact sticky.add_left holds

theorem sub_left (sticky : Sticky p) (holds : p x) : p (x - y) := by
  rw [Binary64.sub_eq_add_neg]
  exact sticky.add_left holds

theorem sub_right (sticky : Sticky p) (holds : p y) : p (x - y) := by
  rw [Binary64.sub_eq_add_neg]
  exact sticky.add_right (sticky.neg holds)

theorem mul_right (sticky : Sticky p) (holds : p y) : p (x * y) := by
  rw [Binary64.mul_comm]
  exact sticky.mul_left holds

end Sticky

namespace Binary64

theorem isNaN_divisor {x y : Binary64} (isNaN : y.isNaN) : (x / y).isNaN := by
  rw [eq_nan_of_isNaN isNaN, div_nan]
  rfl

theorem sticky_isNaN : Sticky (·.isNaN) where
  neg isNaN := by rw [eq_nan_of_isNaN isNaN]; rfl
  add_left isNaN := by rw [eq_nan_of_isNaN isNaN]; rfl
  mul_left isNaN := by rw [eq_nan_of_isNaN isNaN]; rfl
  dividend isNaN := by rw [eq_nan_of_isNaN isNaN]; rfl

theorem eq_nan_or_infinite {x : Binary64} (notFinite : x.isFinite = false) :
    x = nan ∨ ∃ negative, x = infinite negative := by
  cases x with
  | nan => exact .inl rfl
  | infinite negative => exact .inr ⟨negative, rfl⟩
  | finite _ _ _ => contradiction

theorem infinite_add_isFinite (a : Bool) (y : Binary64) : (infinite a + y).isFinite = false := by
  cases y with
  | infinite b => cases a <;> cases b <;> rfl
  | nan | finite _ _ _ => rfl

theorem infinite_mul_isFinite (a : Bool) (y : Binary64) : (infinite a * y).isFinite = false := by
  cases y with
  | nan | infinite _ => rfl
  | finite b n _ =>
    rw [infinite_mul_finite]
    split <;> rfl

theorem infinite_div_isFinite (a : Bool) (y : Binary64) : (infinite a / y).isFinite = false := by
  cases y <;> rfl

theorem sticky_not_isFinite : Sticky (·.isFinite = false) where
  neg notFinite := by
    rcases eq_nan_or_infinite notFinite with rfl | ⟨a, rfl⟩ <;> rfl
  add_left {_ y} notFinite := by
    rcases eq_nan_or_infinite notFinite with rfl | ⟨a, rfl⟩
    · rfl
    · exact infinite_add_isFinite a y
  mul_left {_ y} notFinite := by
    rcases eq_nan_or_infinite notFinite with rfl | ⟨a, rfl⟩
    · rfl
    · exact infinite_mul_isFinite a y
  dividend {_ y} notFinite := by
    rcases eq_nan_or_infinite notFinite with rfl | ⟨a, rfl⟩
    · rfl
    · exact infinite_div_isFinite a y

end Binary64

namespace Complex

def Any (p : Binary64 → Prop) (z : Value) : Prop :=
  p z.re ∨ p z.im

variable {p : Binary64 → Prop} {z w : Value}

theorem isNaN_iff_any : z.isNaN ↔ z.Any (·.isNaN) := by
  simp [isNaN, Any]

theorem isFinite_eq_false_iff_any : z.isFinite = false ↔ z.Any (·.isFinite = false) := by
  simp only [isFinite, Any, Bool.and_eq_false_iff]

theorem any_neg (sticky : Sticky p) (any : z.Any p) : (-z).Any p :=
  any.imp sticky.neg sticky.neg

theorem any_conj (sticky : Sticky p) (any : z.Any p) : z.conj.Any p :=
  any.imp_right sticky.neg

theorem any_add_left (sticky : Sticky p) (any : z.Any p) : (z + w).Any p :=
  any.imp sticky.add_left sticky.add_left

theorem any_add_right (sticky : Sticky p) (any : w.Any p) : (z + w).Any p :=
  any.imp sticky.add_right sticky.add_right

theorem any_mul_left (sticky : Sticky p) (any : z.Any p) : (z * w).Any p := by
  left
  rcases any with re | im
  · exact sticky.sub_left (sticky.mul_left re)
  · exact sticky.sub_right (sticky.mul_left im)

theorem any_mul_right (sticky : Sticky p) (any : w.Any p) : (z * w).Any p := by
  left
  rcases any with re | im
  · exact sticky.sub_left (sticky.mul_right re)
  · exact sticky.sub_right (sticky.mul_right im)

theorem any_dividend (sticky : Sticky p) (any : z.Any p) : (z / w).Any p := by
  rw [div_eq]
  split
  · left
    rcases any with re | im
    · exact sticky.dividend (sticky.add_left re)
    · exact sticky.dividend (sticky.add_right (sticky.mul_left im))
  · left
    rcases any with re | im
    · exact sticky.dividend (sticky.add_left (sticky.mul_left re))
    · exact sticky.dividend (sticky.add_right im)

theorem any_divisor (sticky : Sticky p) (divisor : ∀ {x y}, p y → p (x / y)) (any : w.Any p) :
    (z / w).Any p := by
  rw [div_eq]
  split
  · have ratio : p (w.im / w.re) := any.elim divisor sticky.dividend
    exact .inl (divisor (sticky.add_right (sticky.mul_right ratio)))
  · have ratio : p (w.re / w.im) := any.elim sticky.dividend divisor
    exact .inl (divisor (sticky.add_right (sticky.mul_right ratio)))

end Complex

section Operators

variable {p : Binary64 → Prop} {z w : Value}

theorem BinaryOp.any_left (op : BinaryOp) (sticky : Sticky p) (any : z.Any p) :
    (op.apply z w).Any p := by
  cases op with
  | add | sub => exact Complex.any_add_left sticky any
  | mul => exact Complex.any_mul_left sticky any
  | div => exact Complex.any_dividend sticky any

theorem BinaryOp.any_right {op : BinaryOp} (noDivisor : op ≠ .div) (sticky : Sticky p)
    (any : w.Any p) : (op.apply z w).Any p := by
  cases op with
  | add => exact Complex.any_add_right sticky any
  | sub => exact Complex.any_add_right sticky (Complex.any_neg sticky any)
  | mul => exact Complex.any_mul_right sticky any
  | div => contradiction

theorem UnaryOp.any_operand (op : UnaryOp) (sticky : Sticky p) (any : z.Any p) :
    (op.apply z).Any p := by
  cases op with
  | neg => exact Complex.any_neg sticky any
  | conj => exact Complex.any_conj sticky any

end Operators

namespace Formula

variable {ρ : Valuation}

/-- The values of the leaves, without those in right operands that are not to be entered. -/
def leafValues (ρ : Valuation) (enters : BinaryOp → Bool) : Formula → List Value
  | const z => [z]
  | var name => ρ[name]?.toList
  | binary op left right =>
    left.leafValues ρ enters ++ if enters op then right.leafValues ρ enters else []
  | unary _ operand => operand.leafValues ρ enters

theorem any_of_leafValues {p : Binary64 → Prop} {enters : BinaryOp → Bool} (sticky : Sticky p)
    (entered : ∀ {op z w}, enters op → w.Any p → (op.apply z w).Any p) {f : Formula} {v z : Value}
    (ok : (f.eval ρ).outcome = .ok v) (leaf : z ∈ f.leafValues ρ enters) (any : z.Any p) :
    v.Any p := by
  induction f generalizing v with
  | const constant =>
    cases List.mem_singleton.1 leaf
    cases ok
    exact any
  | var name =>
    rw [eval_var_eq_ok] at ok
    rw [leafValues, Option.mem_toList, ok] at leaf
    cases leaf
    exact any
  | binary op left right ihLeft ihRight =>
    obtain ⟨zLeft, zRight, okLeft, okRight, rfl⟩ := eval_binary_eq_ok.1 ok
    rcases List.mem_append.1 leaf with inLeft | inRight
    · exact op.any_left sticky (ihLeft okLeft inLeft)
    · split at inRight
      case isTrue enter => exact entered enter (ihRight okRight inRight)
      case isFalse => contradiction
  | unary op operand ih =>
    obtain ⟨zOperand, okOperand, rfl⟩ := eval_unary_eq_ok.1 ok
    exact op.any_operand sticky (ih okOperand leaf)

theorem leafValues_not_lost (ρ : Valuation) (f : Formula) (v : Value)
    (ok : (f.eval ρ).outcome = .ok v) :
    ((∃ z ∈ f.leafValues ρ fun _ => true, z.isNaN) → v.isNaN) ∧
    ((∃ z ∈ f.leafValues ρ fun op => op ≠ .div, z.isFinite = false) → v.isFinite = false) := by
  constructor
  · rintro ⟨z, leaf, isNaN⟩
    rw [Complex.isNaN_iff_any] at isNaN ⊢
    refine any_of_leafValues Binary64.sticky_isNaN (fun {op _ _} _ any => ?_) ok leaf isNaN
    by_cases division : op = .div
    · subst division
      exact Complex.any_divisor Binary64.sticky_isNaN Binary64.isNaN_divisor any
    · exact BinaryOp.any_right division Binary64.sticky_isNaN any
  · rintro ⟨z, leaf, notFinite⟩
    rw [Complex.isFinite_eq_false_iff_any] at notFinite ⊢
    refine any_of_leafValues Binary64.sticky_not_isFinite (fun noDivisor any => ?_) ok leaf notFinite
    exact BinaryOp.any_right (of_decide_eq_true noDivisor) Binary64.sticky_not_isFinite any

theorem leafValues_not_lost_below_divisor :
    let ρ := Valuation.ofBindings [("x", ⟨.infinite true, 0⟩), ("y", ⟨0, .nan⟩)]
    let f := binary .mul (unary .conj (var "x")) (binary .div (const 0) (var "y"))
    (f.eval ρ).outcome = .ok ⟨.nan, .nan⟩ ∧
      (∃ z ∈ f.leafValues ρ fun _ => true, z.isNaN) ∧
      (∃ z ∈ f.leafValues ρ fun op => op ≠ .div, z.isFinite = false) ∧
      Complex.isNaN ⟨.nan, .nan⟩ ∧ Complex.isFinite ⟨.nan, .nan⟩ = false := by
  intro ρ f
  have ok : (f.eval ρ).outcome = .ok ⟨.nan, .nan⟩ := by rfl
  have leafNaN : ∃ z ∈ f.leafValues ρ fun _ => true, z.isNaN := by decide
  have leafInfinite : ∃ z ∈ f.leafValues ρ fun op => op ≠ .div, z.isFinite = false := by decide
  have kept := leafValues_not_lost ρ f _ ok
  exact ⟨ok, leafNaN, leafInfinite, kept.1 leafNaN, kept.2 leafInfinite⟩

end Formula

end ComplexFormula

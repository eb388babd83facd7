import ComplexFormula.Proofs.Binary64.Arithmetic
import ComplexFormula.Proofs.Rounding

namespace ComplexFormula.Binary64

def isZero : Binary64 → Bool
  | finite _ units _ => units = 0
  | nan | infinite _ => false

/-- The number has the given sign or is "not a number". -/
def HasSign (negative : Bool) : Binary64 → Prop
  | nan => True
  | infinite sign | finite sign _ _ => sign = negative

theorem exists_eq_signedZero {x : Binary64} (zero : x.isZero) :
    ∃ negative, x = signedZero negative := by
  cases x with
  | nan | infinite _ => contradiction
  | finite negative units _ =>
    cases of_decide_eq_true zero
    exact ⟨negative, rfl⟩

theorem isZero_neg (x : Binary64) : (-x).isZero = x.isZero := by
  cases x <;> rfl

theorem exists_hasSign (x : Binary64) : ∃ negative, x.HasSign negative := by
  cases x with
  | nan => exact ⟨false, trivial⟩
  | infinite negative | finite negative _ _ => exact ⟨negative, rfl⟩

theorem unitsLimit_pos : 0 < unitsLimit :=
  Nat.zero_lt_of_lt unitsPerOne_lt_unitsLimit

section

-- The limit of the format is never computed.
attribute [local irreducible] unitsLimit

theorem isZero_ofUnits {negative : Bool} {num den : Nat} :
    (ofUnits negative num den).isZero ↔ roundBits significandBits num den = 0 := by
  simp only [ofUnits]
  split
  case isTrue => exact decide_eq_true_iff
  case isFalse overflow =>
    have limitPos := unitsLimit_pos
    exact iff_of_false Bool.false_ne_true (by omega)

theorem isNaN_ofUnits (negative : Bool) (num den : Nat) :
    (ofUnits negative num den).isNaN = false := by
  simp only [ofUnits]
  split
  case isTrue => rfl
  case isFalse => rfl

theorem hasSign_ofUnits (negative : Bool) (num den : Nat) :
    (ofUnits negative num den).HasSign negative := by
  simp only [ofUnits]
  split
  case isTrue => rfl
  case isFalse => rfl

end

attribute [local irreducible] ofUnits

theorem isZero_ofUnits_zero (negative : Bool) (den : Nat) : (ofUnits negative 0 den).isZero :=
  isZero_ofUnits.2 (roundBits_zero significandBits den)

theorem ofTotal_of_ne_zero (negativeZero : Bool) {total : Int} (nonzero : total ≠ 0) :
    ofTotal negativeZero total = ofUnits (total < 0) total.natAbs 1 := by
  simp only [ofTotal, if_neg nonzero]

theorem isZero_ofTotal {negativeZero : Bool} {total : Int} :
    (ofTotal negativeZero total).isZero ↔ total = 0 := by
  by_cases zero : total = 0
  · subst zero
    exact iff_of_true (isZero_ofUnits_zero _ 1) rfl
  · have rounded := roundBits_pos (by decide : 0 < significandBits) Nat.one_pos (Int.natAbs_pos.2 zero)
    rw [ofTotal_of_ne_zero negativeZero zero, isZero_ofUnits]
    omega

namespace HasSign

variable {x y : Binary64} {a b : Bool}

theorem ite_nan (c : Prop) [Decidable c] (sign : x.HasSign a) :
    (if c then nan else x).HasSign a := by
  split
  · trivial
  · exact sign

theorem mul (left : x.HasSign a) (right : y.HasSign b) : (x * y).HasSign (a ^^ b) := by
  cases x with
  | nan => trivial
  | infinite _ =>
    cases left
    cases y with
    | nan => trivial
    | infinite _ => cases right; rfl
    | finite _ n _ => cases right; exact ite_nan (n = 0) rfl
  | finite _ m _ =>
    cases left
    cases y with
    | nan => trivial
    | infinite _ => cases right; exact ite_nan (m = 0) rfl
    | finite _ n _ => cases right; exact hasSign_ofUnits _ _ _

theorem div (left : x.HasSign a) (right : y.HasSign b) : (x / y).HasSign (a ^^ b) := by
  cases x with
  | nan => trivial
  | infinite _ =>
    cases left
    cases y with
    | nan | infinite _ => trivial
    | finite _ _ _ => cases right; rfl
  | finite _ m _ =>
    cases left
    cases y with
    | nan => trivial
    | infinite _ => cases right; rfl
    | finite _ n _ =>
      cases right
      rw [finite_div_finite]
      split
      · exact ite_nan (m = 0) rfl
      · exact hasSign_ofUnits _ _ _

theorem add_ne_zero (left : x.HasSign a) (right : y.HasSign a) (nonzero : ¬ x.isZero) :
    ¬ (x + y).isZero := by
  cases x with
  | nan => exact Bool.false_ne_true
  | infinite _ =>
    cases left
    cases y with
    | nan | finite _ _ _ => exact Bool.false_ne_true
    | infinite _ =>
      cases right
      cases a <;> exact Bool.false_ne_true
  | finite _ m _ =>
    cases left
    cases y with
    | nan | infinite _ => exact Bool.false_ne_true
    | finite _ n _ =>
      cases right
      have unitsNe : m ≠ 0 := fun zero => nonzero (decide_eq_true zero)
      rw [finite_add_finite, isZero_ofTotal]
      cases a <;> simp only [withSign] <;> grind

theorem mul_self (x : Binary64) : (x * x).HasSign false := by
  obtain ⟨negative, sign⟩ := x.exists_hasSign
  have product := sign.mul sign
  rwa [Bool.xor_self] at product

theorem isZero_add_iff (left : x.HasSign a) (right : y.HasSign a) :
    (x + y).isZero ↔ x.isZero ∧ y.isZero := by
  constructor
  · intro zero
    have swapped := zero
    rw [Binary64.add_comm] at swapped
    exact ⟨Decidable.byContradiction fun nonzero => left.add_ne_zero right nonzero zero,
      Decidable.byContradiction fun nonzero => right.add_ne_zero left nonzero swapped⟩
  · rintro ⟨zero, zero'⟩
    obtain ⟨b, rfl⟩ := exists_eq_signedZero zero
    obtain ⟨c, rfl⟩ := exists_eq_signedZero zero'
    rw [signedZero, signedZero, finite_add_finite, isZero_ofTotal]
    cases b <;> cases c <;> rfl

theorem isNaN_add_eq_false (left : x.HasSign a) (right : y.HasSign a) (notNaN : x.isNaN = false)
    (notNaN' : y.isNaN = false) : (x + y).isNaN = false := by
  cases x with
  | nan => contradiction
  | infinite _ =>
    cases left
    cases y with
    | nan => contradiction
    | infinite _ =>
      cases right
      cases a <;> rfl
    | finite _ _ _ => rfl
  | finite _ _ _ =>
    cases y with
    | nan => contradiction
    | infinite _ => rfl
    | finite _ _ _ => exact isNaN_ofUnits _ _ _

end HasSign

end ComplexFormula.Binary64

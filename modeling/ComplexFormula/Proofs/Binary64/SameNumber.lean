import ComplexFormula.Proofs.Binary64.Sign

namespace ComplexFormula.Binary64

def SameNumber (x y : Binary64) : Prop :=
  x = y ∨ x.isZero ∧ y.isZero

instance (x y : Binary64) : Decidable (x.SameNumber y) :=
  inferInstanceAs (Decidable (_ ∨ _))

namespace SameNumber

variable {x x' y y' z : Binary64}

theorem refl (x : Binary64) : x.SameNumber x := .inl rfl

theorem of_isZero (zero : x.isZero) (zero' : y.isZero) : x.SameNumber y := .inr ⟨zero, zero'⟩

theorem symm (same : x.SameNumber y) : y.SameNumber x :=
  same.imp Eq.symm And.symm

theorem isZero_eq (same : x.SameNumber y) : x.isZero = y.isZero := by
  rcases same with rfl | ⟨zero, zero'⟩
  · rfl
  · rw [zero, zero']

theorem trans (first : x.SameNumber y) (second : y.SameNumber z) : x.SameNumber z := by
  rcases first with rfl | ⟨zero, zero'⟩
  · exact second
  · exact of_isZero zero (second.isZero_eq ▸ zero')

theorem eq_of_ne_zero (same : x.SameNumber y) (nonzero : ¬ x.isZero) : x = y :=
  same.resolve_right fun zeros => nonzero zeros.1

theorem abs_eq (same : x.SameNumber y) : x.abs = y.abs := by
  rcases same with rfl | ⟨zero, zero'⟩
  · rfl
  · obtain ⟨a, rfl⟩ := exists_eq_signedZero zero
    obtain ⟨b, rfl⟩ := exists_eq_signedZero zero'
    rfl

theorem congr {f : Binary64 → Binary64}
    (zeros : ∀ a b, (f (signedZero a)).SameNumber (f (signedZero b)))
    (same : x.SameNumber y) : (f x).SameNumber (f y) := by
  rcases same with rfl | ⟨zero, zero'⟩
  · exact refl _
  · obtain ⟨a, rfl⟩ := exists_eq_signedZero zero
    obtain ⟨b, rfl⟩ := exists_eq_signedZero zero'
    exact zeros a b

theorem neg (same : x.SameNumber y) : (-x).SameNumber (-y) :=
  same.congr fun _ _ => of_isZero rfl rfl

-- How a result is rounded plays no part.
attribute [local irreducible] ofTotal ofUnits

theorem ofTotal (a b : Bool) (total : Int) :
    (Binary64.ofTotal a total).SameNumber (Binary64.ofTotal b total) := by
  by_cases zero : total = 0
  · exact of_isZero (isZero_ofTotal.2 zero) (isZero_ofTotal.2 zero)
  · rw [ofTotal_of_ne_zero a zero, ofTotal_of_ne_zero b zero]
    exact refl _

theorem add_left (same : x.SameNumber x') (y : Binary64) : (x + y).SameNumber (x' + y) := by
  refine same.congr (f := (· + y)) fun a b => ?_
  cases y with
  | nan | infinite _ => exact refl _
  | finite c n _ =>
    have noUnits : withSign a 0 = withSign b 0 := by cases a <;> cases b <;> rfl
    simp only [signedZero, finite_add_finite, noUnits]
    exact ofTotal _ _ _

theorem mul_left (same : x.SameNumber x') (y : Binary64) : (x * y).SameNumber (x' * y) := by
  refine same.congr (f := (· * y)) fun a b => ?_
  cases y with
  | nan | infinite _ => exact refl _
  | finite c n _ =>
    simp only [signedZero, finite_mul_finite, Nat.zero_mul]
    exact of_isZero (isZero_ofUnits_zero _ _) (isZero_ofUnits_zero _ _)

theorem dividend (same : x.SameNumber x') (y : Binary64) : (x / y).SameNumber (x' / y) := by
  refine same.congr (f := (· / y)) fun a b => ?_
  cases y with
  | nan => exact refl _
  | infinite c => exact of_isZero rfl rfl
  | finite c n _ =>
    simp only [signedZero, finite_div_finite, Nat.zero_mul, if_true]
    split
    case isTrue => exact refl _
    case isFalse => exact of_isZero (isZero_ofUnits_zero _ _) (isZero_ofUnits_zero _ _)

theorem add (sameX : x.SameNumber x') (sameY : y.SameNumber y') :
    (x + y).SameNumber (x' + y') := by
  refine (sameX.add_left y).trans ?_
  rw [Binary64.add_comm x', Binary64.add_comm x']
  exact sameY.add_left x'

theorem sub (sameX : x.SameNumber x') (sameY : y.SameNumber y') :
    (x - y).SameNumber (x' - y') := by
  rw [Binary64.sub_eq_add_neg, Binary64.sub_eq_add_neg]
  exact sameX.add sameY.neg

theorem mul (sameX : x.SameNumber x') (sameY : y.SameNumber y') :
    (x * y).SameNumber (x' * y') := by
  refine (sameX.mul_left y).trans ?_
  rw [Binary64.mul_comm x', Binary64.mul_comm x']
  exact sameY.mul_left x'

theorem div (sameX : x.SameNumber x') (sameY : y.SameNumber y') (nonzero : ¬ y.isZero) :
    (x / y).SameNumber (x' / y') :=
  sameY.eq_of_ne_zero nonzero ▸ sameX.dividend y

end SameNumber

theorem neg_ofTotal (a b : Bool) (total : Int) :
    (-ofTotal a total).SameNumber (ofTotal b (-total)) := by
  by_cases zero : total = 0
  · subst zero
    exact .of_isZero ((isZero_neg _).trans (isZero_ofTotal.2 rfl)) (isZero_ofTotal.2 rfl)
  · have sign : (!decide (total < 0)) = decide (-total < 0) := by grind
    rw [ofTotal_of_ne_zero _ zero, ofTotal_of_ne_zero _ (Int.neg_ne_zero.2 zero),
      Int.natAbs_neg, neg_ofUnits, sign]
    exact .refl _

theorem neg_add (x y : Binary64) : (-(x + y)).SameNumber (-x + -y) := by
  cases x with
  | nan => exact .refl _
  | infinite a =>
    cases y with
    | nan | finite _ _ _ => exact .refl _
    | infinite b => cases a <;> cases b <;> exact .refl _
  | finite a m _ =>
    cases y with
    | nan | infinite _ => exact .refl _
    | finite b n _ =>
      have negated : withSign (!a) m + withSign (!b) n = -(withSign a m + withSign b n) := by
        rw [withSign_not, withSign_not, Int.neg_add]
      simp only [neg_finite, finite_add_finite, negated]
      exact neg_ofTotal _ _ _

end ComplexFormula.Binary64

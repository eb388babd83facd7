import Mathlib.Data.EReal.Operations
import ComplexFormula.Proofs.Binary64.Rational
import ComplexFormula.Proofs.Binary64.SameNumber

namespace ComplexFormula.Binary64

-- Their values, of hundreds of digits, are never needed.
attribute [local irreducible] unitsPerOne unitsLimit

/-- The value among the extended real numbers. Nothing is less than that of "not a number". -/
noncomputable def toEReal : Binary64 → EReal
  | nan => ⊥
  | infinite negative => if negative then ⊥ else ⊤
  | finite negative units isMagnitude => ((finite negative units isMagnitude).toRat : ℝ)

instance : LE Binary64 where
  le x y := x < y ∨ x.isNaN = false ∧ x.SameNumber y

variable {x y z s t : Binary64}

theorem toEReal_of_isFinite (isFinite : x.isFinite) : x.toEReal = (x.toRat : ℝ) := by
  obtain ⟨negative, units, isMagnitude, rfl⟩ := exists_eq_finite isFinite
  rfl

theorem lt_iff_toRat_lt (finiteX : x.isFinite) (finiteY : y.isFinite) :
    x < y ↔ x.toRat < y.toRat := by
  obtain ⟨a, m, hm, rfl⟩ := exists_eq_finite finiteX
  obtain ⟨b, n, hn, rfl⟩ := exists_eq_finite finiteY
  change decide (withSign a m < withSign b n) = true ↔ _
  rw [decide_eq_true_iff, toRat_finite, toRat_finite,
    div_lt_div_iff_of_pos_right unitsPerOne_cast_pos, Int.cast_lt]

theorem lt_iff_toEReal_lt : x < y ↔ x.isNaN = false ∧ x.toEReal < y.toEReal := by
  cases x with
  | nan => exact iff_of_false Bool.false_ne_true (by simp [isNaN])
  | infinite a =>
    cases y with
    | nan => exact iff_of_false Bool.false_ne_true (by simp [toEReal])
    | infinite b =>
      change (a && !b) = true ↔ _
      cases a <;> cases b <;> simp [toEReal, isNaN]
    | finite _ _ _ =>
      change a = true ↔ _
      cases a <;> simp [toEReal, isNaN]
  | finite _ _ _ =>
    cases y with
    | nan => exact iff_of_false Bool.false_ne_true (by simp [toEReal])
    | infinite b =>
      change (!b) = true ↔ _
      cases b <;> simp [toEReal, isNaN]
    | finite _ _ _ =>
      rw [lt_iff_toRat_lt rfl rfl, toEReal, toEReal, EReal.coe_lt_coe_iff, Rat.cast_lt]
      exact (and_iff_right rfl).symm

theorem SameNumber.toEReal_eq (same : x.SameNumber y) : x.toEReal = y.toEReal := by
  rcases same with rfl | ⟨zero, zero'⟩
  · rfl
  · obtain ⟨a, rfl⟩ := exists_eq_signedZero zero
    obtain ⟨b, rfl⟩ := exists_eq_signedZero zero'
    simp [signedZero, toEReal, toRat_finite, withSign]

theorem toEReal_le_of_le (le : x ≤ y) : x.toEReal ≤ y.toEReal := by
  rcases le with less | ⟨-, same⟩
  · exact (lt_iff_toEReal_lt.1 less).2.le
  · exact same.toEReal_eq.le

theorem lt_of_lt_of_le (less : x < y) (le : y ≤ z) : x < z := by
  obtain ⟨notNaN, below⟩ := lt_iff_toEReal_lt.1 less
  exact lt_iff_toEReal_lt.2 ⟨notNaN, below.trans_le (toEReal_le_of_le le)⟩

@[simp]
theorem isFinite_abs (x : Binary64) : x.abs.isFinite = x.isFinite := by
  cases x <;> rfl

@[simp]
theorem toRat_abs (x : Binary64) : x.abs.toRat = |x.toRat| := by
  cases x with
  | nan | infinite _ => simp [abs, toRat, signedUnits]
  | finite _ _ _ =>
    rw [abs_toRat_finite]
    simp [abs, toRat_finite, withSign]

theorem rounds_sub (finiteX : x.isFinite) (finiteY : y.isFinite) :
    (x - y).Rounds (x.toRat - y.toRat) := by
  rw [Binary64.sub_eq_add_neg, sub_eq_add_neg, ← toRat_neg]
  exact rounds_add finiteX ((isFinite_neg y).trans finiteY)

theorem abs_lt_iff (isFinite : x.isFinite) : x.abs < t ↔ ((|x.toRat| : Rat) : ℝ) < t.toEReal := by
  rw [lt_iff_toEReal_lt, toEReal_of_isFinite ((isFinite_abs x).trans isFinite), toRat_abs]
  apply and_iff_right
  obtain ⟨negative, units, isMagnitude, rfl⟩ := exists_eq_finite isFinite
  rfl

theorem isFinite_of_abs_lt (less : x.abs < t) : x.isFinite := by
  cases x with
  | nan => contradiction
  | infinite _ =>
    have above := (lt_iff_toEReal_lt.1 less).2
    exact absurd above not_top_lt
  | finite _ _ _ => rfl

theorem isFinite_of_add (isFinite : (x + y).isFinite) : x.isFinite ∧ y.isFinite := by
  cases x with
  | nan => contradiction
  | infinite a =>
    cases y with
    | nan | finite _ _ _ => contradiction
    | infinite b => cases a <;> cases b <;> contradiction
  | finite _ _ _ =>
    cases y with
    | nan | infinite _ => contradiction
    | finite _ _ _ => exact ⟨rfl, rfl⟩

theorem isFinite_of_sub (isFinite : (x - y).isFinite) : x.isFinite ∧ y.isFinite := by
  rw [Binary64.sub_eq_add_neg] at isFinite
  have terms := isFinite_of_add isFinite
  rwa [isFinite_neg] at terms

theorem eq_infinite_or_isFinite (pos : 0 < t) : t = infinite false ∨ t.isFinite := by
  cases t with
  | nan => contradiction
  | infinite negative =>
    cases negative with
    | false => exact .inl rfl
    | true => contradiction
  | finite _ _ _ => exact .inr rfl

theorem pos_of_abs_lt (less : x.abs < t) : 0 < t := by
  have below := (abs_lt_iff (isFinite_of_abs_lt less)).1 less
  refine lt_iff_toEReal_lt.2 ⟨rfl, lt_of_le_of_lt ?_ below⟩
  rw [toEReal_of_isFinite rfl, toRat_zero]
  exact_mod_cast abs_nonneg x.toRat

theorem sub_error (finiteX : x.isFinite) (finiteY : y.isFinite) (isFinite : (x - y).isFinite) :
    |(x - y).toRat - (x.toRat - y.toRat)| ≤ unitRoundoff * |x.toRat - y.toRat| := by
  rw [Binary64.sub_eq_add_neg] at isFinite ⊢
  have error := add_error finiteX ((isFinite_neg y).trans finiteY) isFinite
  rwa [toRat_neg, ← sub_eq_add_neg] at error

theorem abs_sub_lt (less : (x - y).abs < t) : x.isFinite ∧ y.isFinite ∧ 0 < t ∧
    ((|x.toRat - y.toRat| : Rat) : ℝ) < t.toEReal := by
  have differenceFinite := isFinite_of_abs_lt less
  obtain ⟨finiteX, finiteY⟩ := isFinite_of_sub differenceFinite
  have pos := pos_of_abs_lt less
  refine ⟨finiteX, finiteY, pos, ?_⟩
  rcases eq_infinite_or_isFinite pos with rfl | finiteT
  · exact EReal.coe_lt_top _
  rw [lt_iff_toRat_lt ((isFinite_abs _).trans differenceFinite) finiteT, toRat_abs] at less
  rw [toEReal_of_isFinite finiteT, EReal.coe_lt_coe_iff, Rat.cast_lt]
  -- An exact difference that reached the bound would not be rounded below it.
  by_contra reaches
  have exactGe : |t.toRat| ≤ |x.toRat - y.toRat| := by
    rw [abs_of_pos ((abs_nonneg _).trans_lt less)]
    exact not_lt.1 reaches
  have roundedGe := (rounds_sub finiteX finiteY).le_abs differenceFinite finiteT exactGe
  exact absurd less (not_lt.2 ((le_abs_self _).trans roundedGe))

theorem abs_sub_lt_of_abs_le (finiteX : x.isFinite) (finiteY : y.isFinite) (finiteZ : z.isFinite)
    (le : |x.toRat - y.toRat| ≤ |z.toRat|) (less : z.abs < t) : (x - y).abs < t := by
  obtain ⟨isFinite, roundedLe⟩ := (rounds_sub finiteX finiteY).abs_le finiteZ le
  refine (abs_lt_iff isFinite).2 (lt_of_le_of_lt ?_ ((abs_lt_iff finiteZ).1 less))
  exact EReal.coe_le_coe_iff.2 (Rat.cast_le.2 roundedLe)

end ComplexFormula.Binary64

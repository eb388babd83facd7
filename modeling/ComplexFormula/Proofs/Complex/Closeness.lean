import ComplexFormula.Complex.Value
import ComplexFormula.Proofs.Binary64.SameNumber

namespace ComplexFormula

namespace Binary64

variable {x tolerance : Binary64}

theorem neg_sub (x y : Binary64) : (-(x - y)).SameNumber (y - x) := by
  have negated := neg_add x (-y)
  rw [Binary64.neg_neg, ← Binary64.sub_eq_add_neg, Binary64.add_comm,
    ← Binary64.sub_eq_add_neg] at negated
  exact negated

theorem abs_sub_comm (x y : Binary64) : (x - y).abs = (y - x).abs := by
  rw [← abs_neg (x - y)]
  exact (neg_sub x y).abs_eq

theorem abs_of_isZero (zero : x.isZero) : x.abs = 0 := by
  obtain ⟨negative, rfl⟩ := exists_eq_signedZero zero
  rfl

theorem not_nan_lt (x : Binary64) : ¬ nan < x :=
  Bool.false_ne_true

theorem isZero_sub_self (isFinite : x.isFinite) : (x - x).isZero := by
  cases x with
  | nan | infinite _ => contradiction
  | finite _ _ _ => rw [finite_sub_finite, isZero_ofTotal, Int.sub_self]

theorem sub_self_eq_nan (notFinite : ¬ x.isFinite) : x - x = nan := by
  cases x with
  | nan => rfl
  | infinite negative => exact if_pos rfl
  | finite _ _ _ => exact absurd rfl notFinite

theorem abs_sub_self_lt : (x - x).abs < tolerance ↔ x.isFinite ∧ 0 < tolerance := by
  by_cases isFinite : x.isFinite
  · simp only [abs_of_isZero (isZero_sub_self isFinite), isFinite, true_and]
  · rw [sub_self_eq_nan isFinite]
    exact iff_of_false (not_nan_lt tolerance) fun both => isFinite both.1

end Binary64

namespace Complex

variable {z w : Value} {tolerance : Binary64}

theorem within_comm : z.Within tolerance w ↔ w.Within tolerance z := by
  simp only [Within, Binary64.abs_sub_comm w.re, Binary64.abs_sub_comm w.im]

theorem within_self : z.Within tolerance z ↔ z.isFinite ∧ 0 < tolerance := by
  simp only [Within, Binary64.abs_sub_self_lt, isFinite, Bool.and_eq_true]
  exact and_and_right.symm

theorem zero_lt_epsilon : 0 < epsilon := by
  decide +kernel

theorem close_comm : z.Close w ↔ w.Close z :=
  within_comm

theorem close_self : z.Close z ↔ z.isFinite :=
  within_self.trans (and_iff_left zero_lt_epsilon)

end Complex

end ComplexFormula

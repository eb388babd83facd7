import ComplexFormula.Proofs.Binary64.Order
import ComplexFormula.Proofs.Complex.Closeness
import ComplexFormula.Proofs.Complex.Range

namespace ComplexFormula.Complex

def PartsDifferBelow (bound : EReal) (z w : Value) : Prop :=
  ((|z.exact.re - w.exact.re| : Rat) : ℝ) < bound ∧ ((|z.exact.im - w.exact.im| : Rat) : ℝ) < bound

variable {z w v : Value} {s t : Binary64}

theorem partsDifferBelow_of_within (within : z.Within t w) :
    z.isFinite ∧ w.isFinite ∧ 0 < t ∧ PartsDifferBelow t.toEReal z w := by
  obtain ⟨reZ, reW, pos, re⟩ := Binary64.abs_sub_lt within.1
  obtain ⟨imZ, imW, -, im⟩ := Binary64.abs_sub_lt within.2
  exact ⟨isFinite_iff.2 ⟨reZ, imZ⟩, isFinite_iff.2 ⟨reW, imW⟩, pos, re, im⟩

theorem Within.mono (within : z.Within s w) (le : s ≤ t) : z.Within t w :=
  ⟨Binary64.lt_of_lt_of_le within.1 le, Binary64.lt_of_lt_of_le within.2 le⟩

theorem abs_sub_lt_add {x y z : Rat} {bound bound' : EReal}
    (first : ((|x - y| : Rat) : ℝ) < bound) (second : ((|y - z| : Rat) : ℝ) < bound') :
    ((|x - z| : Rat) : ℝ) < bound + bound' := by
  calc (((|x - z| : Rat) : ℝ) : EReal)
      ≤ ((|x - y| + |y - z| : Rat) : ℝ) :=
        EReal.coe_le_coe_iff.2 (Rat.cast_le.2 (abs_sub_le x y z))
    _ = ((|x - y| : Rat) : ℝ) + ((|y - z| : Rat) : ℝ) := by rw [Rat.cast_add, EReal.coe_add]
    _ < bound + bound' := EReal.add_lt_add first second

theorem PartsDifferBelow.trans {bound bound' : EReal} (first : PartsDifferBelow bound z w)
    (second : PartsDifferBelow bound' w v) : PartsDifferBelow (bound + bound') z v :=
  ⟨abs_sub_lt_add first.1 second.1, abs_sub_lt_add first.2 second.2⟩

theorem within_sound (z w v : Value) (s t : Binary64) :
    (z.Within t w ↔ w.Within t z) ∧
    (z.Within t w → z.isFinite ∧ w.isFinite ∧ 0 < t ∧ PartsDifferBelow t.toEReal z w) ∧
    (z.Within s w → s ≤ t → z.Within t w) ∧
    (z.Within t z ↔ z.isFinite ∧ 0 < t) ∧
    (z.Within s w → w.Within t v → PartsDifferBelow (s.toEReal + t.toEReal) z v) := by
  refine ⟨within_comm, partsDifferBelow_of_within, Within.mono, within_self, ?_⟩
  intro first second
  obtain ⟨-, -, -, below⟩ := partsDifferBelow_of_within first
  obtain ⟨-, -, -, below'⟩ := partsDifferBelow_of_within second
  exact below.trans below'

/-- The tolerance is the number next after one: the rounded difference is one, the exact one lies
between the two. -/
theorem within_sound_of_rounded_difference :
    let t := Binary64.ofRatio (2 ^ 52 + 1) (2 ^ 52)
    let z : Value := 1
    let w : Value := ⟨-Binary64.ofRatio 1 (2 ^ 54), 0⟩
    (z.Within t w ∧ w.Within t (-z) ∧ t ≤ .infinite false) ∧
    (z.re - w.re = 1 ∧ 1 < |z.exact.re - w.exact.re|) ∧
      PartsDifferBelow t.toEReal z w ∧ z.Within (.infinite false) w ∧
      PartsDifferBelow (t.toEReal + t.toEReal) z (-z) := by
  intro t z w
  have first : z.Within t w := by decide +kernel
  have second : w.Within t (-z) := by decide +kernel
  have le : t ≤ .infinite false := .inl (by decide +kernel)
  obtain ⟨-, sound, -, -, chain⟩ := within_sound z w (-z) t t
  obtain ⟨-, -, mono, -, -⟩ := within_sound z w w t (.infinite false)
  exact ⟨⟨first, second, le⟩, ⟨by decide +kernel, by decide +kernel⟩, (sound first).2.2.2,
    mono first le, chain first second⟩

end ComplexFormula.Complex

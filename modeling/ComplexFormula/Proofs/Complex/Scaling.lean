import ComplexFormula.Proofs.Complex.Range
import ComplexFormula.Proofs.Complex.SameNumber

namespace ComplexFormula

namespace Binary64

-- Their values, of hundreds of digits, are never needed.
attribute [local irreducible] unitsPerOne unitsLimit ofTotal ofUnits

variable {x y : Binary64}

theorem ofTotal_withSign (negativeZero a : Bool) {m : Nat} (isMagnitude : IsMagnitude m) :
    (ofTotal negativeZero (withSign a m)).SameNumber (finite a m isMagnitude) := by
  by_cases zero : m = 0
  · subst zero
    exact .of_isZero (isZero_ofTotal.2 (by cases a <;> rfl)) rfl
  · have nonzero : withSign a m ≠ 0 := by
      cases a <;> simp [withSign, zero]
    have sign : decide (withSign a m < 0) = a := by
      cases a <;> simp [withSign, Nat.pos_of_ne_zero zero]
    have exact := ofUnits_of_isMagnitude a isMagnitude Nat.one_pos
    rw [Nat.mul_one] at exact
    rw [ofTotal_of_ne_zero _ nonzero, natAbs_withSign, sign, exact]
    exact .refl _

theorem SameNumber.add_of_isZero (x : Binary64) (zero : y.isZero) : (x + y).SameNumber x := by
  obtain ⟨b, rfl⟩ := exists_eq_signedZero zero
  cases x with
  | nan | infinite _ => exact .refl _
  | finite a m isMagnitude =>
    have total : withSign a m + withSign b 0 = withSign a m := by
      cases b <;> simp [withSign]
    rw [signedZero, finite_add_finite, total]
    exact ofTotal_withSign _ a isMagnitude

theorem SameNumber.sub_of_isZero (x : Binary64) (zero : y.isZero) : (x - y).SameNumber x := by
  rw [Binary64.sub_eq_add_neg]
  exact add_of_isZero x ((isZero_neg y).trans zero)

theorem isZero_mul (isFinite : x.isFinite) (zero : y.isZero) : (x * y).isZero := by
  obtain ⟨a, m, _, rfl⟩ := exists_eq_finite isFinite
  obtain ⟨b, rfl⟩ := exists_eq_signedZero zero
  rw [signedZero, finite_mul_finite, Nat.mul_zero]
  exact isZero_ofUnits_zero _ _

theorem isZero_div (zero : x.isZero) (nonzero : ¬ y.isZero) (notNaN : y.isNaN = false) :
    (x / y).isZero := by
  obtain ⟨a, rfl⟩ := exists_eq_signedZero zero
  cases y with
  | nan => contradiction
  | infinite _ => rfl
  | finite b n _ =>
    have unitsNe : n ≠ 0 := fun unitsZero => nonzero (decide_eq_true unitsZero)
    rw [signedZero, finite_div_finite, if_neg unitsNe, Nat.zero_mul]
    exact isZero_ofUnits_zero _ _

end Binary64

namespace Complex

variable {z : Value} {x : Binary64}

theorem add_real (z : Value) (x : Binary64) : (z + x).SameNumber ⟨z.re + x, z.im⟩ :=
  ⟨.refl _, .add_of_isZero z.im rfl⟩

theorem sub_real (z : Value) (x : Binary64) : (z - x).SameNumber ⟨z.re - x, z.im⟩ := by
  refine ⟨?_, .add_of_isZero z.im rfl⟩
  rw [Binary64.sub_eq_add_neg]
  exact .refl _

theorem mul_real (finiteZ : z.isFinite) (x : Binary64) :
    (z * x).SameNumber ⟨z.re * x, z.im * x⟩ := by
  obtain ⟨re, im⟩ := isFinite_iff.1 finiteZ
  exact ⟨.sub_of_isZero _ (Binary64.isZero_mul im rfl), .add_of_isZero _ (Binary64.isZero_mul re rfl)⟩

section

variable (nonzero : ¬ x.isZero) (notNaN : x.isNaN = false)

include nonzero notNaN

theorem absLt_ofReal : CompareAbs.absLt (ofReal x).im (ofReal x).re = true := by
  cases x with
  | nan => contradiction
  | infinite _ => rfl
  | finite a m _ =>
    have unitsNe : m ≠ 0 := fun unitsZero => nonzero (decide_eq_true unitsZero)
    exact decide_eq_true (Binary64.abs_finite_lt_abs_finite.2 (Nat.pos_of_ne_zero unitsNe))

theorem isZero_ratio_ofReal : (ofReal x).ratio.isZero := by
  rw [ratio_of_absLt (absLt_ofReal nonzero notNaN)]
  exact Binary64.isZero_div rfl nonzero notNaN

theorem numerator_ofReal (finiteZ : z.isFinite) : (z.numerator (ofReal x)).SameNumber z := by
  obtain ⟨re, im⟩ := isFinite_iff.1 finiteZ
  have ratioZero := isZero_ratio_ofReal nonzero notNaN
  rw [numerator_of_absLt z (absLt_ofReal nonzero notNaN)]
  exact ⟨.add_of_isZero _ (Binary64.isZero_mul im ratioZero),
    .sub_of_isZero _ (Binary64.isZero_mul re ratioZero)⟩

end

theorem denominator_ofReal (nonzero : ¬ x.isZero) : (ofReal x).denominator = x := by
  cases isNaN : x.isNaN with
  | true =>
    rw [Binary64.eq_nan_of_isNaN isNaN]
    rfl
  | false =>
    have termZero : ((0 : Binary64) * (ofReal x).ratio).isZero :=
      Binary64.isZero_mul rfl (isZero_ratio_ofReal nonzero isNaN)
    rw [denominator_of_absLt (absLt_ofReal nonzero isNaN)]
    exact ((Binary64.SameNumber.add_of_isZero x termZero).symm.eq_of_ne_zero nonzero).symm

theorem div_real (finiteZ : z.isFinite) (nonzero : ¬ x.isZero) :
    (z / x).SameNumber ⟨z.re / x, z.im / x⟩ := by
  have quotient := div_eq_map_numerator z (ofReal x)
  rw [denominator_ofReal nonzero] at quotient
  change (z / ofReal x).SameNumber (z.map (· / x))
  rw [quotient]
  cases isNaN : x.isNaN with
  -- "Not a number" is not the farther part, yet it is the denominator all the same.
  | true =>
    rw [Binary64.eq_nan_of_isNaN isNaN]
    simp only [map, Binary64.div_nan]
    exact .refl _
  | false => exact (numerator_ofReal nonzero isNaN finiteZ).map_div x

/-- The parts of a quotient by a finite number are the exact ones, rounded once. -/
theorem real_operand_by_parts (z : Value) (x : Binary64) :
    (z + x).SameNumber ⟨z.re + x, z.im⟩ ∧
    (z - x).SameNumber ⟨z.re - x, z.im⟩ ∧
    (z.isFinite → (z * x).SameNumber ⟨z.re * x, z.im * x⟩) ∧
    (z.isFinite → ¬ x.isZero → (z / x).SameNumber ⟨z.re / x, z.im / x⟩ ∧
      (x.isFinite → (z.re / x).Rounds (z.re.toRat / x.toRat) ∧
        (z.im / x).Rounds (z.im.toRat / x.toRat))) := by
  refine ⟨add_real z x, sub_real z x, fun finiteZ => mul_real finiteZ x, fun finiteZ nonzero =>
    ⟨div_real finiteZ nonzero, fun finiteX => ?_⟩⟩
  obtain ⟨re, im⟩ := isFinite_iff.1 finiteZ
  have divisorNe := mt (Binary64.isZero_iff_toRat_eq_zero finiteX).2 nonzero
  exact ⟨Binary64.rounds_div re finiteX divisorNe, Binary64.rounds_div im finiteX divisorNe⟩

theorem real_operand_by_parts_subnormal :
    let z : Value := ⟨Binary64.ofRatio 3 (2 ^ 1074), -0⟩
    let two := Binary64.ofRatio 2 1
    (z.isFinite ∧ two.isFinite ∧ ¬ two.isZero) ∧
      (z / two).SameNumber ⟨z.re / two, z.im / two⟩ ∧
      (z.re / two).Rounds (z.re.toRat / two.toRat) ∧ z.re / two = Binary64.ofRatio 2 (2 ^ 1074) ∧
      (z * Binary64.infinite true).SameNumber ⟨.infinite true, .nan⟩ ∧
      (z / Binary64.infinite true).SameNumber ⟨0, 0⟩ ∧
      (z / Binary64.nan).SameNumber ⟨.nan, .nan⟩ := by
  intro z two
  have finiteZ : z.isFinite := by decide +kernel
  have finiteTwo : two.isFinite := by decide +kernel
  have nonzero : ¬ two.isZero := by decide +kernel
  obtain ⟨-, -, -, quotient⟩ := real_operand_by_parts z two
  obtain ⟨-, -, product, byInfinity⟩ := real_operand_by_parts z (.infinite true)
  obtain ⟨-, -, -, byNaN⟩ := real_operand_by_parts z .nan
  obtain ⟨halves, rounded⟩ := quotient finiteZ nonzero
  have products : SameNumber ⟨z.re * .infinite true, z.im * .infinite true⟩ ⟨.infinite true, .nan⟩ := by
    decide +kernel
  have zeros : SameNumber ⟨z.re / .infinite true, z.im / .infinite true⟩ ⟨0, 0⟩ := by decide +kernel
  have notNumbers : SameNumber ⟨z.re / .nan, z.im / .nan⟩ ⟨.nan, .nan⟩ := by decide +kernel
  exact ⟨⟨finiteZ, finiteTwo, nonzero⟩, halves, (rounded finiteTwo).1, by decide +kernel,
    (product finiteZ).trans products, (byInfinity finiteZ Bool.false_ne_true).1.trans zeros,
    (byNaN finiteZ Bool.false_ne_true).1.trans notNumbers⟩

end Complex

end ComplexFormula

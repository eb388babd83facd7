import ComplexFormula.Binary64.Arithmetic

namespace ComplexFormula

namespace Binary64

theorem withSign_not (negative : Bool) (units : Nat) :
    withSign (!negative) units = -withSign negative units := by
  cases negative <;> simp [withSign]

theorem natAbs_withSign (negative : Bool) (units : Nat) : (withSign negative units).natAbs = units := by
  cases negative <;> simp [withSign]

theorem withSign_mul (negative : Bool) (m n : Nat) :
    withSign negative (m * n) = withSign negative m * n := by
  cases negative <;> grind [withSign]

theorem withSign_xor_mul (a b : Bool) (m n : Nat) :
    withSign (a ^^ b) (m * n) = withSign a m * withSign b n := by
  cases a <;> cases b <;> grind [withSign]

theorem neg_ofUnits (negative : Bool) (num den : Nat) :
    -ofUnits negative num den = ofUnits (!negative) num den := by
  simp only [ofUnits]
  split <;> rfl

-- How a result is rounded plays no part.
attribute [local irreducible] ofTotal ofUnits

theorem eq_nan_of_isNaN {x : Binary64} (isNaN : x.isNaN) : x = nan := by
  cases x with
  | nan => rfl
  | infinite _ => contradiction
  | finite _ _ _ => contradiction

section

variable {a b : Bool} {m n : Nat} {hm : IsMagnitude m} {hn : IsMagnitude n}

@[simp]
theorem neg_nan : -nan = nan := rfl

@[simp]
theorem neg_infinite : -infinite a = infinite (!a) := rfl

@[simp]
theorem neg_finite : -finite a m hm = finite (!a) m hm := rfl

@[simp]
theorem add_nan (x : Binary64) : x + nan = nan := by
  cases x <;> rfl

@[simp]
theorem sub_nan (x : Binary64) : x - nan = nan := by
  cases x <;> rfl

@[simp]
theorem mul_nan (x : Binary64) : x * nan = nan := by
  cases x <;> rfl

@[simp]
theorem div_nan (x : Binary64) : x / nan = nan := by
  cases x <;> rfl

theorem neg_ite (c : Prop) [Decidable c] (x y : Binary64) :
    -(if c then x else y) = if c then -x else -y :=
  apply_ite Neg.neg c x y

theorem finite_add_finite :
    finite a m hm + finite b n hn = ofTotal (a && b) (withSign a m + withSign b n) := rfl

theorem finite_sub_finite :
    finite a m hm - finite b n hn = ofTotal (a && !b) (withSign a m - withSign b n) := rfl

theorem finite_mul_finite :
    finite a m hm * finite b n hn = ofUnits (a ^^ b) (m * n) unitsPerOne := rfl

theorem infinite_mul_finite :
    infinite a * finite b n hn = if n = 0 then nan else infinite (a ^^ b) := rfl

theorem finite_mul_infinite :
    finite a m hm * infinite b = if m = 0 then nan else infinite (a ^^ b) := rfl

theorem finite_div_finite :
    finite a m hm / finite b n hn =
      if n = 0 then if m = 0 then nan else infinite (a ^^ b)
      else ofUnits (a ^^ b) (m * unitsPerOne) n := rfl

theorem abs_finite_lt_abs_finite : (finite a m hm).abs < (finite b n hn).abs ↔ m < n := by
  change decide ((m : Int) < n) = true ↔ m < n
  rw [decide_eq_true_iff, Int.ofNat_lt]

end

protected theorem add_comm (x y : Binary64) : x + y = y + x := by
  cases x with
  | nan => cases y <;> rfl
  | infinite a =>
    cases y with
    | nan | finite _ _ _ => rfl
    | infinite b => cases a <;> cases b <;> rfl
  | finite a m _ =>
    cases y with
    | nan | infinite _ => rfl
    | finite b n _ =>
      rw [finite_add_finite, finite_add_finite, Bool.and_comm, Int.add_comm]

protected theorem sub_eq_add_neg (x y : Binary64) : x - y = x + -y := by
  cases x with
  | nan => rfl
  | infinite a =>
    cases y with
    | nan | finite _ _ _ => rfl
    | infinite b => cases a <;> cases b <;> rfl
  | finite a m _ =>
    cases y with
    | nan | infinite _ => rfl
    | finite b n _ =>
      rw [finite_sub_finite, neg_finite, finite_add_finite, withSign_not, Int.sub_eq_add_neg]

protected theorem mul_comm (x y : Binary64) : x * y = y * x := by
  cases x with
  | nan => cases y <;> rfl
  | infinite a =>
    cases y with
    | nan => rfl
    | infinite b => exact congrArg infinite (Bool.xor_comm a b)
    | finite b n _ => rw [infinite_mul_finite, finite_mul_infinite, Bool.xor_comm]
  | finite a m _ =>
    cases y with
    | nan => rfl
    | infinite b => rw [finite_mul_infinite, infinite_mul_finite, Bool.xor_comm]
    | finite b n _ => rw [finite_mul_finite, finite_mul_finite, Bool.xor_comm, Nat.mul_comm]

protected theorem neg_neg (x : Binary64) : - -x = x := by
  cases x <;> simp

theorem abs_neg (x : Binary64) : (-x).abs = x.abs := by
  cases x <;> rfl

protected theorem neg_mul (x y : Binary64) : -x * y = -(x * y) := by
  cases x with
  | nan => rfl
  | infinite a =>
    cases y with
    | nan => rfl
    | infinite b => exact congrArg infinite (Bool.not_xor a b)
    | finite b n _ => simp only [infinite_mul_finite, neg_infinite, neg_ite, neg_nan, Bool.not_xor]
  | finite a m _ =>
    cases y with
    | nan => rfl
    | infinite b => simp only [neg_finite, finite_mul_infinite, neg_ite, neg_nan, neg_infinite, Bool.not_xor]
    | finite b n _ => simp only [neg_finite, finite_mul_finite, neg_ofUnits, Bool.not_xor]

protected theorem mul_neg (x y : Binary64) : x * -y = -(x * y) := by
  rw [Binary64.mul_comm, Binary64.neg_mul, Binary64.mul_comm]

protected theorem neg_div (x y : Binary64) : -x / y = -(x / y) := by
  cases x with
  | nan => rfl
  | infinite a =>
    cases y with
    | nan | infinite _ => rfl
    | finite b _ _ => exact congrArg infinite (Bool.not_xor a b)
  | finite a m _ =>
    cases y with
    | nan => rfl
    | infinite b => exact congrArg signedZero (Bool.not_xor a b)
    | finite b n _ =>
      simp only [neg_finite, finite_div_finite, neg_ite, neg_nan, neg_infinite, neg_ofUnits, Bool.not_xor]

protected theorem div_neg (x y : Binary64) : x / -y = -(x / y) := by
  cases x with
  | nan => rfl
  | infinite a =>
    cases y with
    | nan | infinite _ => rfl
    | finite b _ _ => exact congrArg infinite (Bool.xor_not a b)
  | finite a m _ =>
    cases y with
    | nan => rfl
    | infinite b => exact congrArg signedZero (Bool.xor_not a b)
    | finite b n _ =>
      simp only [neg_finite, finite_div_finite, neg_ite, neg_nan, neg_infinite, neg_ofUnits, Bool.xor_not]

end Binary64

end ComplexFormula

import AffineArithmetic.Proofs.AffineForm.Basic
import AffineArithmetic.Proofs.Linear.Symmetry

/-!
# Commutative and symmetric forms

Over lawful scalars the sums and products of forms do not depend on the order of the operands: what
is folded into an interval is decided by the symbols alone. Negation passes through every operation,
exchanges the half lines, and is multiplication by -1. Overflow does not disturb any of this, since
settling looks at entries without their signs.
-/

namespace AffineArithmetic.AffineForm

open Scalar

variable {α : Type} [Scalar α]

/-- The state of the opposite form is as linear. -/
@[simp] theorem neg_isActive (x : AffineForm α) : (-x).isActive = x.isActive := by
  cases x <;> rfl

variable [LawfulScalar α] {x y : AffineForm α} {r : Interval α} {n : ℕ}

/-! ### Commutativity -/

/-- A sum does not depend on the order of its operands. -/
theorem addStep_comm (x y : AffineForm α) : x.addStep y = y.addStep x := by
  rcases active_active_or_not x y with ⟨p, q, rfl, rfl⟩ | h
  · rcases Nat.lt_trichotomy p.size q.size with hlt | heq | hgt
    · rw [addStep_of_lt hlt, addStep_of_gt hlt]
    · rw [addStep_of_eq heq, addStep_of_eq heq.symm, Linear.add_comm]
    · rw [addStep_of_gt hgt, addStep_of_lt hgt]
  · rw [addStep_of_not_active h, addStep_of_not_active h.symm, Interval.add_comm]

/-- A sum does not depend on the order of its operands. -/
protected theorem add_comm (x y : AffineForm α) : x + y = y + x :=
  congrArg settle (addStep_comm x y)

/-- A product does not depend on the order of its operands. -/
protected theorem mul_comm (x y : AffineForm α) : x * y = y * x := by
  rcases active_active_or_not x y with ⟨p, q, rfl, rfl⟩ | h
  · rcases Nat.lt_trichotomy p.size q.size with hlt | heq | hgt
    · rw [mul_of_lt hlt, mul_of_gt hlt]
    · rw [mul_of_eq heq, mul_of_eq heq.symm, Linear.mul_comm]
    · rw [mul_of_gt hgt, mul_of_lt hgt]
  · rw [mul_of_not_active h, mul_of_not_active h.symm, Interval.mul_comm]

/-! ### The opposite form -/

/-- Negation is its own inverse. -/
@[simp] protected theorem neg_neg (x : AffineForm α) : - -x = x := by
  cases x with
  | active p => exact congrArg active (Linear.neg_neg p)
  | empty => rfl
  | allReals => rfl
  | boundedBelow b => exact congrArg boundedBelow (LawfulScalar.neg_neg b)
  | boundedAbove b => exact congrArg boundedAbove (LawfulScalar.neg_neg b)

/-- The opposite form encloses the opposite interval. -/
theorem neg_toInterval (x : AffineForm α) : (-x).toInterval = -x.toInterval := by
  cases x with
  | active p => exact Linear.neg_toInterval p
  | empty => exact Interval.neg_empty.symm
  | allReals => exact Interval.neg_univ.symm
  | boundedBelow b => exact (Interval.neg_ofBounds b infinity).symm
  | boundedAbove b =>
    refine Eq.trans ?_ (Interval.neg_ofBounds (-infinity) b).symm
    rw [LawfulScalar.neg_neg]
    rfl

/-- The opposite form settles alike. -/
theorem neg_settle (x : AffineForm α) : (-x).settle = -x.settle := by
  cases x with
  | active p =>
    change (if (-p).isFinite then active (-p) else allReals) = -(if p.isFinite then _ else _)
    rw [Linear.neg_isFinite]
    split <;> rfl
  | _ => rfl

/-- The form of the opposite interval is the opposite form. -/
theorem ofInterval_neg (i : Interval α) : ofInterval (-i) = -ofInterval i := by
  unfold ofInterval
  rw [Interval.neg_isEmpty, Interval.neg_isUnboundedBelow, Interval.neg_isUnboundedAbove,
    Interval.neg_midpoint, Interval.neg_radius]
  cases h : i.isEmpty with
  | true => rfl
  | false =>
    rw [Interval.neg_of_isEmpty_eq_false h]
    cases i.isUnboundedBelow <;> cases i.isUnboundedAbove <;> rfl

/-- The form of the opposite scalar is the opposite form. -/
theorem ofScalar_neg (d : α) : ofScalar (-d) = -ofScalar d := by
  unfold ofScalar
  rw [LawfulScalar.isFinite_neg, LawfulScalar.ite_neg_infinity, apply_ite (-·), apply_ite (-·),
    apply_ite (-·)]
  congr 3
  exact congrArg boundedBelow (LawfulScalar.neg_neg _).symm

/-! ### Steps of an update -/

/-- Multiplication by the opposite scalar gives the opposite form. -/
theorem scaleStep_neg (x : AffineForm α) (a : α) : x.scaleStep (-a) = -x.scaleStep a := by
  have hi : x.toInterval * -a = -(x.toInterval * a) :=
    (congrArg (x.toInterval * ·) (Interval.neg_ofScalar a).symm).trans (Interval.mul_neg _ _)
  rcases active_or_not x (isFinite a) with ⟨p, rfl, ha⟩ | h
  · rw [scaleStep_of_isFinite ha, scaleStep_of_isFinite (by simpa using ha), Linear.scale_neg]
    rfl
  · rw [scaleStep_of_not h, scaleStep_of_not (by simpa using h), hi, ofInterval_neg]

/-- The opposite form moves the opposite way. -/
theorem neg_shiftStep (x : AffineForm α) (b : α) : (-x).shiftStep (-b) = -x.shiftStep b := by
  have hi : -x.toInterval + -b = -(x.toInterval + b) :=
    (congrArg (-x.toInterval + ·) (Interval.neg_ofScalar b).symm).trans (Interval.neg_add _ _).symm
  rcases active_or_not x (isFinite b) with ⟨p, rfl, hb⟩ | h
  · rw [shiftStep_of_isFinite hb]
    exact (shiftStep_of_isFinite (by simpa using hb)).trans (congrArg active (p.neg_shift b))
  · rw [shiftStep_of_not h, shiftStep_of_not (by simpa using h), neg_toInterval, hi,
      ofInterval_neg]

/-- The opposite form is widened alike. -/
theorem neg_widenStep (x : AffineForm α) (d : α) : (-x).widenStep d = -x.widenStep d := by
  rcases active_or_not x (isFinite d) with ⟨p, rfl, hd⟩ | h
  · rw [widenStep_of_isFinite hd]
    exact (widenStep_of_isFinite hd).trans (congrArg active (p.neg_widen d))
  · have hi : -((Interval.noise : Interval α) * d) = (Interval.noise : Interval α) * d :=
      (Interval.neg_mul _ _).symm.trans (congrArg (· * Interval.ofScalar d) Interval.neg_noise)
    rw [widenStep_of_not h, widenStep_of_not (by simpa using h), neg_toInterval,
      ← ofInterval_neg, Interval.neg_add, hi]

/-- The sum of the opposites is the opposite sum with an interval. -/
theorem neg_addInterval (x : AffineForm α) (r : Interval α) :
    (-x).addInterval (-r) = -x.addInterval r := by
  rcases active_or_not x r.isBounded with ⟨p, rfl, hr⟩ | h
  · have hr' : (-r).isBounded = true := (Interval.neg_isBounded r).trans hr
    rw [addInterval_of_isBounded hr, ← neg_settle, ← neg_widenStep, ← neg_shiftStep]
    refine (addInterval_of_isBounded hr').trans ?_
    rw [Interval.neg_midpoint, Interval.neg_radius]
    rfl
  · rw [addInterval_of_not h, addInterval_of_not (by simpa using h), neg_toInterval,
      ← Interval.neg_add, ofInterval_neg, neg_settle]

/-- The sum of the opposites is the opposite sum, before settling. -/
theorem neg_addStep (x y : AffineForm α) : (-x).addStep (-y) = -x.addStep y := by
  rcases active_active_or_not x y with ⟨p, q, rfl, rfl⟩ | h
  · change (active (-p)).addStep (active (-q)) = _
    rcases Nat.lt_trichotomy p.size q.size with hlt | heq | hgt
    · rw [addStep_of_lt hlt, addStep_of_lt (by simpa using hlt), Linear.neg_toInterval]
      exact neg_addInterval (active q) _
    · rw [addStep_of_eq heq, addStep_of_eq (by simpa using heq), ← Linear.neg_add]
      rfl
    · rw [addStep_of_gt hgt, addStep_of_gt (by simpa using hgt), Linear.neg_toInterval]
      exact neg_addInterval (active p) _
  · rw [addStep_of_not_active h, addStep_of_not_active (by simpa using h), neg_toInterval,
      neg_toInterval, ← Interval.neg_add, ofInterval_neg]

/-- The opposite of a sum is the sum of the opposites. -/
protected theorem neg_add (x y : AffineForm α) : -(x + y) = -x + -y := by
  change -(x.addStep y).settle = ((-x).addStep (-y)).settle
  rw [neg_addStep, neg_settle]

/-! ### Products -/

/-- The product of the opposite form with an interval is the opposite product. -/
theorem neg_mulInterval (x : AffineForm α) (r : Interval α) :
    (-x).mulInterval r = -x.mulInterval r := by
  rcases active_or_not x r.isBounded with ⟨p, rfl, hr⟩ | h
  · rw [mulInterval_of_isBounded hr, ← neg_settle]
    refine (mulInterval_of_isBounded hr).trans ?_
    rw [Linear.neg_mulInterval]
    rfl
  · rw [mulInterval_of_not h, mulInterval_of_not (by simpa using h), neg_toInterval,
      Interval.neg_mul, ofInterval_neg]

/-- The product with the opposite interval is the opposite product. -/
theorem mulInterval_neg (x : AffineForm α) (r : Interval α) :
    x.mulInterval (-r) = -x.mulInterval r := by
  rcases active_or_not x r.isBounded with ⟨p, rfl, hr⟩ | h
  · rw [mulInterval_of_isBounded hr, mulInterval_of_isBounded (by simpa using hr),
      Linear.mulInterval_neg, ← neg_settle]
    rfl
  · rw [mulInterval_of_not h, mulInterval_of_not (by simpa using h), Interval.mul_neg,
      ofInterval_neg]

/-- The product with the opposite form is the opposite product. -/
protected theorem neg_mul (x y : AffineForm α) : -x * y = -(x * y) := by
  rcases active_active_or_not x y with ⟨p, q, rfl, rfl⟩ | h
  · change active (-p) * active q = _
    rcases Nat.lt_trichotomy p.size q.size with hlt | heq | hgt
    · rw [mul_of_lt hlt, mul_of_lt (by simpa using hlt), Linear.neg_toInterval, mulInterval_neg]
    · rw [mul_of_eq heq, mul_of_eq (by simpa using heq), Linear.neg_mul, ← neg_settle]
      rfl
    · rw [mul_of_gt hgt, mul_of_gt (by simpa using hgt), ← neg_mulInterval]
      rfl
  · rw [mul_of_not_active h, mul_of_not_active (by simpa using h), neg_toInterval,
      Interval.neg_mul, ofInterval_neg]

/-- The product with the opposite form is the opposite product. -/
protected theorem mul_neg (x y : AffineForm α) : x * -y = -(x * y) := by
  rw [AffineForm.mul_comm, AffineForm.neg_mul, AffineForm.mul_comm]

/-- The product with the opposite scalar is the opposite product. -/
theorem mul_neg_scalar (x : AffineForm α) (d : α) : x * -d = -(x * d) := by
  change (x.scaleStep (-d)).settle = -(x.scaleStep d).settle
  rw [scaleStep_neg, neg_settle]

/-! ### Squares and powers -/

/-- Whether the interval is preferred for squaring does not depend on the sign. -/
@[simp] theorem neg_squaresAsInterval (x : AffineForm α) :
    (-x).squaresAsInterval = x.squaresAsInterval := by
  unfold squaresAsInterval
  rw [neg_toInterval, Interval.neg_isUnbounded, Interval.neg_width]

/-- Squares are even. -/
theorem neg_sqr (x : AffineForm α) : (-x).sqr = x.sqr := by
  rcases active_or_not x (!x.squaresAsInterval) with ⟨p, rfl, hs⟩ | h
  · rw [Bool.not_eq_true'] at hs
    have hs' : (active (-p)).squaresAsInterval = false :=
      (neg_squaresAsInterval (active p)).trans hs
    rw [sqr_of_linear hs]
    refine (sqr_of_linear hs').trans ?_
    rw [Linear.neg_sqr]
  · have hi : (-x).toInterval.pow 2 = x.toInterval.pow 2 := by
      rw [neg_toInterval, Interval.neg_pow_of_even _ rfl]
    rcases h with h | h
    · rw [sqr_of_not_active h, sqr_of_not_active ((neg_isActive x).trans h), hi]
    · rw [Bool.not_eq_false'] at h
      rw [sqr_of_squaresAsInterval h,
        sqr_of_squaresAsInterval ((neg_squaresAsInterval x).trans h), hi]

/-- The product of the opposite form with a power is the opposite product. -/
theorem neg_mulPower (x y : AffineForm α) (n : ℕ) : (-x).mulPower y n = -x.mulPower y n := by
  induction n using Nat.strong_induction_on generalizing x y with
  | _ n ih =>
    have hacc : (if n % 2 = 1 then -x * y else -x) = -(if n % 2 = 1 then x * y else x) := by
      rw [AffineForm.neg_mul]
      split <;> rfl
    by_cases h : n / 2 = 0
    · rw [mulPower_of_lt_two h, mulPower_of_lt_two h, hacc]
    · rw [mulPower_of_two_le h, mulPower_of_two_le h, hacc, ih (n / 2) (by omega)]

/-- Even powers are even. -/
theorem neg_pow_of_even (x : AffineForm α) (h : n % 2 = 0) : (-x).pow n = x.pow n := by
  by_cases h0 : n = 0
  · rw [h0]
    by_cases hx : x = empty
    · rw [hx]
      rfl
    · rw [pow_zero_of_ne_empty hx, pow_zero_of_ne_empty (neg_eq_empty.not.mpr hx)]
  · rw [pow_of_even h0 h, pow_of_even h0 h, neg_sqr]

/-- Odd powers are odd. -/
theorem neg_pow_of_odd (x : AffineForm α) (h : n % 2 = 1) : (-x).pow n = -x.pow n := by
  by_cases h1 : n = 1
  · rw [h1, AffineForm.pow_one, AffineForm.pow_one]
  · rw [pow_of_odd h1 h, pow_of_odd h1 h, neg_sqr, neg_mulPower]

end AffineArithmetic.AffineForm

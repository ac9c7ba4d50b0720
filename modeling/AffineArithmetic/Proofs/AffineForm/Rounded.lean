import AffineArithmetic.Proofs.AffineForm.Invariant
import AffineArithmetic.Proofs.AffineForm.Scalar
import AffineArithmetic.Proofs.Linear.Rounded

/-!
# Forms of rounded numbers

A binary64 form becomes one with rounded numbers in the same state, and every operation on forms can
be carried out on either side. Valid forms are equal as far as comparison can tell if they become
the same form, so that what is to be shown of binary64 results can be shown over lawful scalars.
-/

namespace AffineArithmetic

open Binary64 Scalar

/-- The form in the same state whose numbers are the values of the numbers. -/
def AffineForm.toRounded : AffineForm Float → AffineForm Rounded
  | active p => active p.toRounded
  | empty => empty
  | allReals => allReals
  | boundedBelow b => boundedBelow (Binary64.toRounded b)
  | boundedAbove b => boundedAbove (Binary64.toRounded b)

/-- The same steps with the values of the numbers. -/
def Update.toRounded (u : Update Float) : Update Rounded where
  scale := u.scale.map Binary64.toRounded
  add := u.add.map AffineForm.toRounded
  shift := u.shift.map Binary64.toRounded
  widen := u.widen.map Binary64.toRounded

namespace AffineForm

variable {x y : AffineForm Float} {i r : Interval Float} {d : Float}

/-! ### Conversions -/

/-- The state stays the same. -/
@[simp] theorem state_toRounded (x : AffineForm Float) : x.toRounded.state = x.state := by
  cases x with
  | active p => exact congrArg State.active (Linear.size_toRounded p)
  | _ => rfl

/-- The form is linear as its values are. -/
@[simp] theorem isActive_toRounded (x : AffineForm Float) : x.toRounded.isActive = x.isActive := by
  cases x <;> rfl

/-- Only the empty form becomes empty. -/
theorem toRounded_eq_empty : x.toRounded = empty ↔ x = empty := by
  cases x with
  | empty => exact iff_of_true rfl rfl
  | _ => exact iff_of_false nofun nofun

/-- Only the real line becomes the real line. -/
theorem toRounded_eq_allReals : x.toRounded = allReals ↔ x = allReals := by
  cases x with
  | allReals => exact iff_of_true rfl rfl
  | _ => exact iff_of_false nofun nofun

/-- The form is exactly 0 as its values are. -/
@[simp] theorem isZero_toRounded (x : AffineForm Float) : x.toRounded.isZero = x.isZero := by
  cases x with
  | active p =>
    change (p.toRounded.error == Scalar.zero &&
      p.toRounded.entries.all (· == Scalar.zero)) = (p.error == Scalar.zero && _)
    rw [Linear.entries_toRounded, List.all_map, Linear.error_toRounded, ← toRounded_zero,
      toRounded_beq]
    congr 2
    exact funext fun a ↦ toRounded_beq
  | _ => rfl

/-- The form of an interval. -/
@[simp] theorem toRounded_ofInterval (i : Interval Float) :
    (ofInterval i).toRounded = ofInterval i.toRounded := by
  unfold ofInterval
  rw [Interval.isEmpty_toRounded, Interval.isUnboundedBelow_toRounded,
    Interval.isUnboundedAbove_toRounded, apply_ite toRounded]
  congr 1
  cases i.isUnboundedBelow <;> cases i.isUnboundedAbove
  · rw [← Interval.toRounded_midpoint, ← Interval.toRounded_radius]
    rfl
  · rfl
  · rfl
  · rfl

/-- The form of a scalar. -/
@[simp] theorem toRounded_ofScalar (d : Float) :
    (ofScalar d).toRounded = ofScalar (Binary64.toRounded d) := by
  simp only [ofScalar, apply_ite toRounded, Binary64.isFinite_toRounded, ← toRounded_infinity,
    ← toRounded_maxFinite, ← Binary64.toRounded_neg, toRounded_beq]
  rfl

/-- The interval of the enclosed values. -/
@[simp] theorem toRounded_toInterval (x : AffineForm Float) :
    x.toInterval.toRounded = x.toRounded.toInterval := by
  cases x with
  | active p => exact Linear.toRounded_toInterval p
  | empty => exact Interval.toRounded_empty
  | allReals => exact Interval.toRounded_univ
  | boundedBelow b => exact Interval.toRounded_ofBounds b infinity
  | boundedAbove b =>
    refine (Interval.toRounded_ofBounds (-infinity) b).trans ?_
    rw [Binary64.toRounded_neg]
    rfl

/-- The settled form. -/
@[simp] theorem toRounded_settle (x : AffineForm Float) :
    x.settle.toRounded = x.toRounded.settle := by
  cases x with
  | active p =>
    unfold settle
    rw [apply_ite toRounded]
    simp only [toRounded, Linear.isFinite_toRounded]
  | _ => rfl

/-! ### Linear updates -/

/-- The opposite form. -/
@[simp] theorem toRounded_neg (x : AffineForm Float) : (-x).toRounded = -x.toRounded := by
  cases x with
  | active p => exact congrArg active (Linear.toRounded_neg p)
  | empty => rfl
  | allReals => rfl
  | boundedBelow b => exact congrArg boundedAbove (Binary64.toRounded_neg b)
  | boundedAbove b => exact congrArg boundedBelow (Binary64.toRounded_neg b)

/-- The form multiplied by a scalar. -/
@[simp] theorem toRounded_scaleStep (x : AffineForm Float) (a : Float) :
    (x.scaleStep a).toRounded = x.toRounded.scaleStep (Binary64.toRounded a) := by
  rcases active_or_not x (Scalar.isFinite a) with ⟨p, rfl, ha⟩ | h
  · rw [scaleStep_of_isFinite ha, toRounded, Linear.toRounded_scale]
    exact (scaleStep_of_isFinite (Binary64.isFinite_toRounded.trans ha)).symm
  · rw [scaleStep_of_not h, scaleStep_of_not (by simpa using h), toRounded_ofInterval,
      Interval.toRounded_mul_scalar, toRounded_toInterval]

/-- The form moved by a constant. -/
@[simp] theorem toRounded_shiftStep (x : AffineForm Float) (b : Float) :
    (x.shiftStep b).toRounded = x.toRounded.shiftStep (Binary64.toRounded b) := by
  rcases active_or_not x (Scalar.isFinite b) with ⟨p, rfl, hb⟩ | h
  · rw [shiftStep_of_isFinite hb, toRounded, Linear.toRounded_shift]
    exact (shiftStep_of_isFinite (Binary64.isFinite_toRounded.trans hb)).symm
  · rw [shiftStep_of_not h, shiftStep_of_not (by simpa using h), toRounded_ofInterval,
      Interval.toRounded_add_scalar, toRounded_toInterval]

/-- The form with its error widened. -/
@[simp] theorem toRounded_widenStep (x : AffineForm Float) (d : Float) :
    (x.widenStep d).toRounded = x.toRounded.widenStep (Binary64.toRounded d) := by
  rcases active_or_not x (Scalar.isFinite d) with ⟨p, rfl, hd⟩ | h
  · rw [widenStep_of_isFinite hd, toRounded, Linear.toRounded_widen]
    exact (widenStep_of_isFinite (Binary64.isFinite_toRounded.trans hd)).symm
  · rw [widenStep_of_not h, widenStep_of_not (by simpa using h), toRounded_ofInterval,
      Interval.toRounded_add, Interval.toRounded_mul_scalar, Interval.toRounded_noise,
      toRounded_toInterval]

/-- The sum with an interval. -/
@[simp] theorem toRounded_addInterval (x : AffineForm Float) (r : Interval Float) :
    (x.addInterval r).toRounded = x.toRounded.addInterval r.toRounded := by
  simp only [addInterval, addIntervalSteps, toRounded_settle, apply_ite toRounded,
    toRounded_widenStep, toRounded_shiftStep, Interval.toRounded_midpoint,
    Interval.toRounded_radius, toRounded_ofInterval, Interval.toRounded_add,
    toRounded_toInterval, isActive_toRounded, Interval.isBounded_toRounded]

/-- The sum with another form. -/
@[simp] theorem toRounded_addStep (x y : AffineForm Float) :
    (x.addStep y).toRounded = x.toRounded.addStep y.toRounded := by
  rcases active_active_or_not x y with ⟨p, q, rfl, rfl⟩ | h
  · change _ = (active p.toRounded).addStep (active q.toRounded)
    rcases Nat.lt_trichotomy p.size q.size with hlt | heq | hgt
    · rw [addStep_of_lt hlt, addStep_of_lt (by simpa using hlt), toRounded_addInterval,
        Linear.toRounded_toInterval]
      rfl
    · rw [addStep_of_eq heq, addStep_of_eq (by simpa using heq), ← Linear.toRounded_add]
      rfl
    · rw [addStep_of_gt hgt, addStep_of_gt (by simpa using hgt), toRounded_addInterval,
        Linear.toRounded_toInterval]
      rfl
  · rw [addStep_of_not_active h, addStep_of_not_active (by simpa using h), toRounded_ofInterval,
      Interval.toRounded_add, toRounded_toInterval, toRounded_toInterval]

private theorem toRounded_elim {β γ : Type} {o : Option β} {x : AffineForm Float}
    {f : AffineForm Float → β → AffineForm Float}
    {g : AffineForm Rounded → γ → AffineForm Rounded} {φ : β → γ}
    (h : ∀ x b, (f x b).toRounded = g x.toRounded (φ b)) :
    (o.elim x (f x)).toRounded = (o.map φ).elim x.toRounded (g x.toRounded) := by
  cases o with
  | none => rfl
  | some b => exact h x b

/-- A linear update. -/
@[simp] theorem toRounded_update (x : AffineForm Float) (u : Update Float) :
    (x.update u).toRounded = x.toRounded.update u.toRounded := by
  unfold update applySteps
  rw [toRounded_settle, toRounded_elim toRounded_widenStep, toRounded_elim toRounded_shiftStep,
    toRounded_elim toRounded_addStep, toRounded_elim toRounded_scaleStep]
  rfl

/-! ### Products -/

/-- The product with an interval. -/
@[simp] theorem toRounded_mulInterval (x : AffineForm Float) (r : Interval Float) :
    (x.mulInterval r).toRounded = x.toRounded.mulInterval r.toRounded := by
  rcases active_or_not x r.isBounded with ⟨p, rfl, hr⟩ | h
  · rw [mulInterval_of_isBounded hr, toRounded_settle, toRounded, Linear.toRounded_mulInterval]
    exact (mulInterval_of_isBounded ((Interval.isBounded_toRounded r).trans hr)).symm
  · rw [mulInterval_of_not h, mulInterval_of_not (by simpa using h), toRounded_ofInterval,
      Interval.toRounded_mul, toRounded_toInterval]

/-- The product of two forms. -/
@[simp] theorem toRounded_mul (x y : AffineForm Float) :
    (x * y).toRounded = x.toRounded * y.toRounded := by
  rcases active_active_or_not x y with ⟨p, q, rfl, rfl⟩ | h
  · change _ = active p.toRounded * active q.toRounded
    rcases Nat.lt_trichotomy p.size q.size with hlt | heq | hgt
    · rw [mul_of_lt hlt, mul_of_lt (by simpa using hlt), toRounded_mulInterval,
        Linear.toRounded_toInterval]
      rfl
    · rw [mul_of_eq heq, mul_of_eq (by simpa using heq), toRounded_settle,
        ← Linear.toRounded_mul]
      rfl
    · rw [mul_of_gt hgt, mul_of_gt (by simpa using hgt), toRounded_mulInterval,
        Linear.toRounded_toInterval]
      rfl
  · rw [mul_of_not_active h, mul_of_not_active (by simpa using h), toRounded_ofInterval,
      Interval.toRounded_mul, toRounded_toInterval, toRounded_toInterval]

/-- The interval is preferred for squaring on both sides. -/
@[simp] theorem squaresAsInterval_toRounded (x : AffineForm Float) :
    x.toRounded.squaresAsInterval = x.squaresAsInterval := by
  have hw : (squareWidth : Rounded) = Binary64.toRounded squareWidth :=
    (toRounded_power half (show 55 ≤ maxSquaringExponent by decide)).symm
  unfold squaresAsInterval
  rw [← toRounded_toInterval, Interval.isUnbounded_toRounded, ← Interval.toRounded_width, hw]
  simp only [toRounded_lt]

/-- The square of a form. -/
@[simp] theorem toRounded_sqr (x : AffineForm Float) : x.sqr.toRounded = x.toRounded.sqr := by
  cases hs : x.squaresAsInterval with
  | true =>
    rw [sqr_of_squaresAsInterval hs, sqr_of_squaresAsInterval (by simpa using hs),
      toRounded_ofInterval, Interval.toRounded_pow _ (show 2 ≤ maxSquaringExponent by decide),
      toRounded_toInterval]
  | false =>
    cases x with
    | active p =>
      have hs' : (active p.toRounded).squaresAsInterval = false :=
        (squaresAsInterval_toRounded (active p)).trans hs
      rw [sqr_of_linear hs, toRounded_settle]
      exact ((congrArg (fun l ↦ (active l).settle) (Linear.toRounded_sqr p))).trans
        (sqr_of_linear hs').symm
    | _ =>
      rw [sqr_of_not_active rfl, sqr_of_not_active rfl, toRounded_ofInterval,
        Interval.toRounded_pow _ (show 2 ≤ maxSquaringExponent by decide), toRounded_toInterval]

/-- The product with a power. -/
theorem toRounded_mulPower (x y : AffineForm Float) (n : ℕ) :
    (x.mulPower y n).toRounded = x.toRounded.mulPower y.toRounded n := by
  induction n using Nat.strong_induction_on generalizing x y with
  | _ n ih =>
    have hacc : (if n % 2 = 1 then x * y else x).toRounded =
        if n % 2 = 1 then x.toRounded * y.toRounded else x.toRounded := by
      rw [apply_ite toRounded, toRounded_mul]
    by_cases h : n / 2 = 0
    · rw [mulPower_of_lt_two h, mulPower_of_lt_two h, hacc]
    · rw [mulPower_of_two_le h, mulPower_of_two_le h, ih (n / 2) (by omega), hacc, toRounded_sqr]

/-- The power of a form. -/
@[simp] theorem toRounded_pow (x : AffineForm Float) (n : ℕ) :
    (x.pow n).toRounded = x.toRounded.pow n := by
  induction n using Nat.strong_induction_on generalizing x with
  | _ n ih =>
    rcases Nat.eq_zero_or_pos n with rfl | h0
    · by_cases hx : x = empty
      · rw [hx, empty_pow_zero]
        exact empty_pow_zero.symm
      · rw [pow_zero_of_ne_empty hx, pow_zero_of_ne_empty (toRounded_eq_empty.not.mpr hx)]
        exact toRounded_ofScalar Scalar.one
    by_cases h1 : n = 1
    · rw [h1, AffineForm.pow_one, AffineForm.pow_one]
    rcases Nat.mod_two_eq_zero_or_one n with h2 | h2
    · rw [pow_of_even h0.ne' h2, pow_of_even h0.ne' h2, ih (n / 2) (by omega), toRounded_sqr]
    · rw [pow_of_odd h1 h2, pow_of_odd h1 h2, toRounded_mulPower, toRounded_sqr]

/-! ### Operators -/

/-- The sum of two forms. -/
@[simp] theorem toRounded_add (x y : AffineForm Float) :
    (x + y).toRounded = x.toRounded + y.toRounded :=
  toRounded_update x { add := some y }

/-- The difference of two forms. -/
@[simp] theorem toRounded_sub (x y : AffineForm Float) :
    (x - y).toRounded = x.toRounded - y.toRounded := by
  refine (toRounded_neg _).trans (congrArg (-·) ?_)
  refine (toRounded_update x { scale := some (-Scalar.one), add := some y }).trans ?_
  rw [Update.toRounded, Option.map_some, Binary64.toRounded_neg]
  rfl

/-- The sum with a scalar. -/
@[simp] theorem toRounded_add_scalar (x : AffineForm Float) (d : Float) :
    (x + d).toRounded = x.toRounded + Binary64.toRounded d :=
  toRounded_update x { shift := some d }

/-- The difference with a scalar. -/
@[simp] theorem toRounded_sub_scalar (x : AffineForm Float) (d : Float) :
    (x - d).toRounded = x.toRounded - Binary64.toRounded d := by
  refine (toRounded_update x { shift := some (-d) }).trans ?_
  rw [Update.toRounded, Option.map_some, Binary64.toRounded_neg]
  rfl

/-- The difference from a scalar. -/
@[simp] theorem toRounded_scalar_sub (d : Float) (x : AffineForm Float) :
    (d - x).toRounded = Binary64.toRounded d - x.toRounded := by
  refine (toRounded_add_scalar (-x) d).trans ?_
  rw [toRounded_neg]
  rfl

/-- The product with a scalar. -/
@[simp] theorem toRounded_mul_scalar (x : AffineForm Float) (d : Float) :
    (x * d).toRounded = x.toRounded * Binary64.toRounded d :=
  toRounded_update x { scale := some d }

/-- The sum with an interval. -/
@[simp] theorem toRounded_add_interval (x : AffineForm Float) (r : Interval Float) :
    (x + r).toRounded = x.toRounded + r.toRounded := toRounded_addInterval x r

/-- The difference with an interval. -/
@[simp] theorem toRounded_sub_interval (x : AffineForm Float) (r : Interval Float) :
    (x - r).toRounded = x.toRounded - r.toRounded := by
  refine (toRounded_addInterval x (-r)).trans ?_
  rw [Interval.toRounded_neg]
  rfl

/-- The difference from an interval. -/
@[simp] theorem toRounded_interval_sub (r : Interval Float) (x : AffineForm Float) :
    (r - x).toRounded = r.toRounded - x.toRounded := by
  refine (toRounded_addInterval (-x) r).trans ?_
  rw [toRounded_neg]
  rfl

/-- The product with an interval. -/
@[simp] theorem toRounded_mul_interval (x : AffineForm Float) (r : Interval Float) :
    (x * r).toRounded = x.toRounded * r.toRounded := toRounded_mulInterval x r

/-! ### Finite forms and their comparison -/

/-- The values of valid forms are finite. -/
theorem Valid.isFinite_toRounded (h : Valid x) : IsFinite x.toRounded := by
  cases x with
  | active p => exact (Linear.isFinite_toRounded p).trans h.1
  | boundedBelow b => exact Binary64.isFinite_toRounded.trans h
  | boundedAbove b => exact Binary64.isFinite_toRounded.trans h
  | _ => trivial

/-- The absolute entries add up as their values do. -/
@[simp] theorem hasFiniteSum_toRounded (x : AffineForm Float) :
    HasFiniteSum x.toRounded ↔ HasFiniteSum x := by
  cases x with
  | active p =>
    change Scalar.isFinite (absSum p.toRounded.entries) = true ↔ _
    rw [Linear.entries_toRounded, ← Linear.toRounded_absSum, Binary64.isFinite_toRounded]
    rfl
  | _ => exact Iff.rfl

/-- Valid forms are equal as scalars compare if their numbers have the same values. -/
theorem Valid.beq_iff (h : Valid x) : (x == y) = true ↔ x.toRounded = y.toRounded := by
  cases x with
  | active p =>
    cases y with
    | active q => exact (Linear.beq_iff h.1).trans (active.injEq _ _).to_iff.symm
    | _ => exact iff_of_false Bool.false_ne_true nofun
  | empty =>
    cases y with
    | empty => exact iff_of_true rfl rfl
    | _ => exact iff_of_false Bool.false_ne_true nofun
  | allReals =>
    cases y with
    | allReals => exact iff_of_true rfl rfl
    | _ => exact iff_of_false Bool.false_ne_true nofun
  | boundedBelow b =>
    cases y with
    | boundedBelow c =>
      exact (Binary64.beq_iff_of_isFinite h).trans (boundedBelow.injEq _ _).to_iff.symm
    | _ => exact iff_of_false Bool.false_ne_true nofun
  | boundedAbove b =>
    cases y with
    | boundedAbove c =>
      exact (Binary64.beq_iff_of_isFinite h).trans (boundedAbove.injEq _ _).to_iff.symm
    | _ => exact iff_of_false Bool.false_ne_true nofun

end AffineForm
end AffineArithmetic

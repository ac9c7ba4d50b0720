import AffineArithmetic.AffineForm.Proper
import AffineArithmetic.Proofs.AffineForm.Scalar
import AffineArithmetic.Proofs.Interval.Range
import AffineArithmetic.Proofs.Linear.Exact

/-!
# Forms of exact numbers

Over exact numbers no entry overflows: the linear part of a proper form has field elements as
entries, settling changes nothing, and the linear formulas are computed in the field. A proper
interval and its form enclose the same points.
-/

namespace AffineArithmetic.AffineForm

open Scalar

variable {K : Type} [Field K] [LinearOrder K] {x : AffineForm (Extended K)}
  {i : Interval (Extended K)} {p q : Linear K} {m ρ : K}

/-! ### Proper forms -/

/-- Proper forms are finite. -/
theorem IsProper.isFinite (h : IsProper x) : IsFinite x := by
  cases x with
  | active l => exact h.1
  | boundedBelow b => exact h
  | boundedAbove b => exact h
  | _ => trivial

/-- Proper forms are settled. -/
theorem IsProper.settle_eq (h : IsProper x) : x.settle = x := settle_of_isFinite h.isFinite

/-- A proper linear form has field elements as entries. -/
theorem IsProper.exists_lift {l : Linear (Extended K)} (h : IsProper (active l)) :
    ∃ p : Linear K, l = p.lift ∧ 0 ≤ p.error := by
  obtain ⟨p, rfl⟩ := Linear.exists_lift h.1
  exact ⟨p, rfl, h.2⟩

/-- A proper form has field elements as entries, or it is not linear. -/
theorem IsProper.lift_or_not (h : IsProper x) :
    (∃ p : Linear K, x = active p.lift ∧ 0 ≤ p.error) ∨ x.isActive = false := by
  cases x with
  | active l =>
    obtain ⟨p, rfl, hp⟩ := h.exists_lift
    exact .inl ⟨p, rfl, hp⟩
  | _ => exact .inr rfl

/-- A form with field elements as entries is proper if its error is not negative. -/
theorem isProper_lift (h : 0 ≤ p.error) : IsProper (active p.lift) := ⟨Linear.isFinite_lift p, h⟩

/-- Linear forms with field elements as entries are settled. -/
theorem settle_lift (p : Linear K) : (active p.lift).settle = active p.lift :=
  if_pos (Linear.isFinite_lift p)

variable [IsStrictOrderedRing K]

/-- Opposites of proper forms are proper. -/
theorem IsProper.neg (h : IsProper x) : IsProper (-x) := by
  cases x with
  | active l => exact ⟨(Linear.neg_isFinite l).trans h.1, h.2⟩
  | boundedBelow b => exact (LawfulScalar.isFinite_neg b).trans h
  | boundedAbove b => exact (LawfulScalar.isFinite_neg b).trans h
  | _ => trivial

/-! ### Forms of intervals -/

/-- The form of a ball has its midpoint as centre and its radius as error. -/
theorem ofInterval_ball (h : 0 ≤ ρ) :
    ofInterval (Interval.ball m ρ) = active (Linear.constant m ρ).lift := by
  rw [ofInterval, Interval.isEmpty_ball h, (Interval.isUnbounded_ball h).1,
    (Interval.isUnbounded_ball h).2, Interval.midpoint_ball h, Interval.radius_ball h]
  rfl

/-- The form of an interval encloses exactly its points. -/
theorem toInterval_ofInterval (hi : i.IsProper) : (ofInterval i).toInterval = i := by
  by_cases hbd : i.isBounded = true
  · obtain ⟨m, ρ, hρ, rfl⟩ := Interval.exists_ball hi hbd
    rw [ofInterval_ball hρ, toInterval, Linear.toInterval_lift hρ]
    exact congrArg (Interval.ball m) (zero_add ρ)
  · exact toInterval_ofInterval_of_not_isBounded hi (Bool.eq_false_iff.mpr hbd)

/-- The form of a proper interval is proper. -/
theorem isProper_ofInterval (hi : i.IsProper) : IsProper (ofInterval i) := by
  rcases ofInterval_cases i with ⟨-, heq⟩ | ⟨he, hends⟩
  · rw [heq]
    trivial
  have ho := hi.inOrder_of_isEmpty he
  rcases hends with ⟨-, -, heq⟩ | ⟨hb, -, heq⟩ | ⟨-, ha, heq⟩ | ⟨hbd, -⟩
  · rw [heq]
    trivial
  · obtain ⟨l, hl⟩ := Interval.exists_lower ho hb
    rw [heq, hl]
    exact Extended.isFinite_finite l
  · obtain ⟨u, hu⟩ := Interval.exists_upper ho ha
    rw [heq, hu]
    exact Extended.isFinite_finite u
  · obtain ⟨m, ρ, hρ, rfl⟩ := Interval.exists_ball hi hbd
    rw [ofInterval_ball hρ]
    exact isProper_lift hρ

/-! ### Linear operations -/

/-- Multiples are computed in the field. -/
theorem scaleStep_lift (p : Linear K) (a : K) :
    (active p.lift).scaleStep (.finite a) = active (p.multiple a).lift := by
  rw [scaleStep_of_isFinite rfl, Linear.scale_lift]

omit [IsStrictOrderedRing K] in
/-- Shifts are computed in the field. -/
theorem shiftStep_lift (p : Linear K) (b : K) :
    (active p.lift).shiftStep (.finite b) = active (p.ballSum b 0).lift := by
  rw [shiftStep_of_isFinite rfl, Linear.shift_lift]

omit [IsStrictOrderedRing K] in
/-- Widening is computed in the field. -/
theorem widenStep_lift (p : Linear K) (d : K) :
    (active p.lift).widenStep (.finite d) = active (p.ballSum 0 |d|).lift := by
  rw [widenStep_of_isFinite rfl, Linear.widen_lift]

/-- The sum with a ball is computed in the field. -/
theorem addInterval_ball (p : Linear K) (h : 0 ≤ ρ) :
    (active p.lift).addInterval (.ball m ρ) = active (p.ballSum m ρ).lift := by
  have hsum : (p.ballSum m 0).ballSum 0 |ρ| = p.ballSum m ρ := by
    simp only [Linear.ballSum, add_zero, abs_of_nonneg h]
  rw [addInterval_of_isBounded (Interval.isBounded_ball h), Interval.midpoint_ball h,
    Interval.radius_ball h, shiftStep_lift, widenStep_lift, hsum, settle_lift]

omit [IsStrictOrderedRing K] in
/-- The sum of forms over the same symbols is computed in the field. -/
theorem addStep_lift_of_eq (h : p.size = q.size) :
    (active p.lift).addStep (active q.lift) = active (p.plus q).lift := by
  rw [addStep_of_eq (by simpa using h), Linear.add_lift]

/-- The sum with a form over fewer symbols is the sum with the ball of its values. -/
theorem addStep_lift_of_gt (h : q.size < p.size) (hq : 0 ≤ q.error) :
    (active p.lift).addStep (active q.lift) =
      active (p.ballSum q.center (Linear.spread q.coeffs + q.error)).lift := by
  rw [addStep_of_gt (by simpa using h), Linear.toInterval_lift hq,
    addInterval_ball p (Linear.radius_nonneg hq)]

/-! ### Products -/

/-- The product with a ball is computed in the field. -/
theorem mul_ball (p : Linear K) (h : 0 ≤ ρ) :
    active p.lift * Interval.ball m ρ = active (p.ballProduct m ρ).lift := by
  refine (mulInterval_of_isBounded (Interval.isBounded_ball h)).trans ?_
  rw [Linear.mulInterval_ball p h, settle_lift]

omit [IsStrictOrderedRing K] in
/-- The product of forms over the same symbols is computed in the field. -/
theorem mul_lift_of_eq (h : p.size = q.size) :
    active p.lift * active q.lift = active (p.product q).lift := by
  rw [mul_of_eq (by simpa using h), Linear.mul_lift, settle_lift]

/-- The product with a form over fewer symbols is the product with the ball of its values. -/
theorem mul_lift_of_gt (h : q.size < p.size) (hq : 0 ≤ q.error) :
    active p.lift * active q.lift =
      active (p.ballProduct q.center (Linear.spread q.coeffs + q.error)).lift := by
  rw [mul_of_gt (by simpa using h), Linear.toInterval_lift hq]
  exact mul_ball p (Linear.radius_nonneg hq)

/-- Whether the interval is preferred for squaring is decided by its width: it is bounded. -/
theorem squaresAsInterval_lift (h : 0 ≤ p.error) : (active p.lift).squaresAsInterval =
    decide ((active p.lift).toInterval.width < squareWidth) := by
  have hbounded := Interval.isUnbounded_ball (m := p.center) (Linear.radius_nonneg h)
  rw [squaresAsInterval, toInterval, Linear.toInterval_lift h, Interval.isUnbounded, hbounded.1,
    hbounded.2]
  rfl

/-- The square of a linear form is the product with itself unless the interval is preferred. -/
theorem sqr_lift (h : (active p.lift).squaresAsInterval = false) :
    (active p.lift).sqr = active (p.product p).lift := by
  rw [sqr_of_linear h, Linear.sqr_lift, settle_lift]

end AffineArithmetic.AffineForm

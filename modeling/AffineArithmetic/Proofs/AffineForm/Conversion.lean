import AffineArithmetic.AffineForm.Assign
import AffineArithmetic.Proofs.AffineForm.Exact
import AffineArithmetic.Proofs.AffineForm.Reachable
import AffineArithmetic.Proofs.AffineForm.Rounded

/-!
# Conversions between scalars, intervals and forms

A scalar and the interval that holds it make the same form, and the form encloses that interval.
Intervals without a midpoint and a radius to round, which are the empty one, those with an infinite
end and the points, come back from their forms, and so do forms that are not linear from the
intervals they enclose. All of this needs no exact arithmetic: the midpoint of a point is the point
also where the sum of its bounds overflows. An assigned form does not depend on what it was before.
-/

namespace AffineArithmetic

open Scalar

/-! ### Scalars and points -/

section Ordered

variable {α : Type} [Scalar α] [OrderedScalar α] {d : α} {i : Interval α}

/-- Only finite numbers are bounds of a point. -/
theorem Interval.isFinite_of_inOrder_self (h : InOrder d d) : isFinite d = true := by
  obtain ⟨hle, hpos, hneg⟩ := inOrder_iff_ne.mp h
  by_contra hd
  have hd' : isFinite d = false := Bool.eq_false_iff.mpr hd
  rcases OrderedScalar.eq_infinity (LawfulScalar.ne_nan_of_le hle).1 hd' with h | h
  · exact hpos h
  · exact hneg h

/-- A proper interval with equal bounds holds one finite scalar. -/
theorem Interval.IsProper.eq_ofScalar (h : i.IsProper) (heq : i.lower = i.upper) :
    i = ofScalar i.lower := by
  have ho : InOrder i.lower i.lower := by
    rcases h with rfl | h
    · exact absurd heq LawfulScalar.infinity_ne_neg_infinity
    · rwa [← heq] at h
  rw [ofScalar_of_isFinite (isFinite_of_inOrder_self ho)]
  exact congrArg (Interval.mk i.lower) heq.symm

namespace AffineForm

/-- The numbers of the form of a scalar are finite. -/
theorem isFinite_ofScalar (d : α) : IsFinite (ofScalar d) := by
  have hmax : isFinite (maxFinite : α) = true := OrderedScalar.isFinite_maxFinite
  unfold ofScalar
  split
  · next hd => exact Linear.isFinite_iff.mpr ⟨LawfulScalar.isFinite_zero, hd, nofun⟩
  split
  · exact hmax
  split
  · exact (LawfulScalar.isFinite_neg _).trans hmax
  · trivial

/-- The interval of a scalar and the scalar make the same form. -/
theorem ofInterval_interval_ofScalar (d : α) :
    ofInterval (Interval.ofScalar d) = ofScalar d := by
  by_cases hd : isFinite d = true
  · exact (ofInterval_ofScalar hd).trans (if_pos hd).symm
  · have hna : (ofScalar d).isActive = false :=
      (isActive_ofScalar d).trans (Bool.eq_false_iff.mpr hd)
    rw [← toInterval_ofScalar, ofInterval_toInterval (isFinite_ofScalar d) hna]

/-- The form of a point encloses just the point. -/
theorem toInterval_ofInterval_point (hi : i.IsProper) (heq : i.lower = i.upper) :
    (ofInterval i).toInterval = i := by
  rw [hi.eq_ofScalar heq, ofInterval_interval_ofScalar, toInterval_ofScalar]

end AffineForm

end Ordered

namespace AffineForm

/-! ### Binary64 -/

variable {limit : ℕ} {x : AffineForm Float} {d : Float} {i : Interval Float}

/-- A scalar and its interval make the same form, which encloses the interval. -/
theorem ofScalar_beq (d : Float) : (ofScalar d == ofInterval (Interval.ofScalar d)) = true ∧
    ((ofScalar d).toInterval == Interval.ofScalar d) = true := by
  constructor
  · apply (valid_ofScalar d).beq_iff.mpr
    rw [toRounded_ofInterval, Interval.toRounded_ofScalar, toRounded_ofScalar,
      ofInterval_interval_ofScalar]
  · apply (isProper_toInterval (ofScalar d)).beq_iff.mpr
    rw [toRounded_toInterval, toRounded_ofScalar, Interval.toRounded_ofScalar,
      toInterval_ofScalar]

/-- An interval that is empty, has an infinite end or is a point comes back from its form. -/
theorem toInterval_ofInterval_beq (hi : i.IsProper)
    (h : i.isEmpty = true ∨ i.isUnbounded = true ∨ (i.lower == i.upper) = true) :
    ((ofInterval i).toInterval == i) = true := by
  have hr : i.toRounded.IsProper := Interval.isProper_toRounded hi
  apply (isProper_toInterval (ofInterval i)).beq_iff.mpr
  rw [toRounded_toInterval, toRounded_ofInterval]
  rcases h with he | hub | hpt
  · apply toInterval_ofInterval_of_not_isBounded hr
    rw [Interval.isBounded_toRounded, Interval.isBounded, he]
    rfl
  · apply toInterval_ofInterval_of_not_isBounded hr
    rw [Interval.isBounded_toRounded, Interval.isBounded, hub, Bool.not_true, Bool.and_false]
  · have heq : i.toRounded.lower = i.toRounded.upper := by
      rw [← Binary64.toRounded_beq, LawfulScalar.beq_iff] at hpt
      exact hpt.1
    exact toInterval_ofInterval_point hr heq

/-- A form that is not linear comes back from the interval it encloses. -/
theorem Valid.ofInterval_toInterval_beq (h : Valid x) (hx : x.isActive = false) :
    (ofInterval x.toInterval == x) = true := by
  rw [h.ofInterval_toInterval hx]
  exact h.beq_iff.mpr rfl

/-- The conversions agree. Every scalar, also an infinite or undefined one, makes the form of its
interval. Intervals that are empty, have an infinite end or are a point come back from their forms,
and reachable forms that are not linear come back from their intervals. What is assigned to a form
of any state is what the conversions make. -/
theorem reachable_conversions :
    (∀ d : Float, (ofScalar d == ofInterval (Interval.ofScalar d)) = true ∧
      ((ofScalar d).toInterval == Interval.ofScalar d) = true) ∧
    (∀ i : Interval Float, i.Reachable →
      i.isEmpty = true ∨ i.isUnbounded = true ∨ (i.lower == i.upper) = true →
      ((ofInterval i).toInterval == i) = true) ∧
    (∀ limit (x : AffineForm Float), Reachable limit x → x.isActive = false →
      (ofInterval x.toInterval == x) = true) ∧
    (∀ (x : AffineForm Float) (i : Interval Float), x.assignInterval i = ofInterval i) ∧
    ∀ (x : AffineForm Float) (d : Float), x.assignScalar d = ofScalar d :=
  ⟨ofScalar_beq, fun _ hi ↦ toInterval_ofInterval_beq hi.isProper,
    fun _ _ hx ↦ hx.valid.ofInterval_toInterval_beq, assignInterval_eq, assignScalar_eq⟩

/-- The undefined scalar, two half lines, the point at the largest finite number, whose bounds add
up to infinity, and a scalar assigned to a form over a noise symbol. -/
theorem conversions_of_largest :
    (ofScalar (nan : Float) == ofInterval (Interval.ofScalar nan)) = true ∧
      ((ofInterval (.ofBounds (-infinity) (0.1 : Float))).toInterval ==
        .ofBounds (-infinity) 0.1) = true ∧
      ((ofInterval (.ofBounds maxFinite (maxFinite : Float))).toInterval ==
        .ofBounds maxFinite maxFinite) = true ∧
      (ofInterval (ofScalar (infinity : Float)).toInterval == ofScalar infinity) = true ∧
      (onSymbol 1 1 (.ofBounds 1.0 2.0)).assignScalar (0.5 : Float) = active ⟨0.5, [], 0.0⟩ := by
  obtain ⟨hscalar, hinterval, hform, -, hassign⟩ := reachable_conversions
  refine ⟨(hscalar nan).1, hinterval _ (.ofBounds _ _) (.inr (.inl (by decide +kernel))),
    hinterval _ (.ofBounds _ _) (.inr (.inr (by decide +kernel))),
    hform 0 _ (.ofScalar infinity) (by decide +kernel), ?_⟩
  rw [hassign]
  decide +kernel

end AffineForm
end AffineArithmetic

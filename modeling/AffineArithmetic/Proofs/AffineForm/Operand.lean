import AffineArithmetic.Proofs.AffineForm.Exact

/-!
# Intervals as operands

Over exact numbers an interval and the form of the interval are the same operand. An operation with
the interval uses its midpoint, radius and magnitude. An operation with the form uses the same
numbers: either it takes the form as an interval again, or the other form has no noise symbols
either, and then the formulas for two linear forms agree with those for a form and an interval.
-/

namespace AffineArithmetic.AffineForm

open Scalar

variable {K : Type} [Field K] [LinearOrder K] [IsStrictOrderedRing K]
  {x : AffineForm (Extended K)} {r : Interval (Extended K)}

/-- The sum with the form of an interval is the sum with the interval. -/
theorem add_ofInterval (hx : IsProper x) (hr : r.IsProper) : x + ofInterval r = x + r := by
  change (x.addStep (ofInterval r)).settle = x.addInterval r
  rcases active_or_not x r.isBounded with ⟨l, rfl, hb⟩ | h
  · obtain ⟨p, rfl, -⟩ := hx.exists_lift
    obtain ⟨m, ρ, hρ, rfl⟩ := Interval.exists_ball hr hb
    rw [ofInterval_ball hρ, addInterval_ball p hρ]
    rcases Nat.eq_zero_or_pos p.size with hsize | hsize
    · rw [addStep_lift_of_eq hsize, Linear.plus_constant hsize, settle_lift]
    · rw [addStep_lift_of_gt (q := .constant m ρ) hsize hρ, settle_lift]
      exact congrArg (fun σ ↦ active (p.ballSum m σ).lift) (zero_add ρ)
  · rw [addStep_of_not_active (by rwa [isActive_ofInterval]), toInterval_ofInterval hr,
      addInterval_of_not h]

/-- The product with the form of an interval is the product with the interval. -/
theorem mul_ofInterval (hx : IsProper x) (hr : r.IsProper) : x * ofInterval r = x * r := by
  rcases active_or_not x r.isBounded with ⟨l, rfl, hb⟩ | h
  · obtain ⟨p, rfl, -⟩ := hx.exists_lift
    obtain ⟨m, ρ, hρ, rfl⟩ := Interval.exists_ball hr hb
    rw [ofInterval_ball hρ, mul_ball p hρ]
    rcases Nat.eq_zero_or_pos p.size with hsize | hsize
    · rw [mul_lift_of_eq hsize, Linear.product_constant hsize]
    · rw [mul_lift_of_gt (q := .constant m ρ) hsize hρ]
      exact congrArg (fun σ ↦ active (p.ballProduct m σ).lift) (zero_add ρ)
  · rw [mul_of_not_active (by rwa [isActive_ofInterval]), toInterval_ofInterval hr]
    exact (mulInterval_of_not h).symm

/-- Over exact numbers an interval and its form are interchangeable as operands. Sums, differences
on either side and products of a form in any state with an interval, which may be empty, bounded or
unbounded, are those with the form of the interval. -/
theorem interval_operand_eq (hx : IsProper x) (hr : r.IsProper) :
    x + r = x + ofInterval r ∧ x - r = x - ofInterval r ∧ r - x = ofInterval r - x ∧
      x * r = x * ofInterval r := by
  have hform : IsProper (ofInterval r) := isProper_ofInterval hr
  refine ⟨(add_ofInterval hx hr).symm, ?_, ?_, (mul_ofInterval hx hr).symm⟩
  · rw [AffineForm.sub_eq_add_neg hx.isFinite, ← ofInterval_neg]
    exact (add_ofInterval hx (Interval.isProper_neg hr)).symm
  · rw [AffineForm.sub_eq_add_neg hform.isFinite, AffineForm.add_comm]
    exact (add_ofInterval hx.neg hr).symm

/-- The numbers from -1 to 3, around 1 and without noise symbols. -/
def oneWithinTwo : AffineForm (Extended ℚ) := active (.constant (.finite 1) (.finite 2))

/-- The numbers from -1 to 3, as an interval. -/
def minusOneToThree : Interval (Extended ℚ) := .ofBounds (.finite (-1)) (.finite 3)

/-- The difference between an interval and a form without symbols has the sum of their radii as
error, and their product an error of 8, whether the interval is one or a form. -/
theorem interval_operand_eq_of_constant :
    minusOneToThree - oneWithinTwo = ofInterval minusOneToThree - oneWithinTwo ∧
      minusOneToThree - oneWithinTwo = active (.constant (.finite 0) (.finite 4)) ∧
      oneWithinTwo * minusOneToThree = oneWithinTwo * ofInterval minusOneToThree ∧
      oneWithinTwo * minusOneToThree = active (.constant (.finite 1) (.finite 8)) := by
  have hx : IsProper oneWithinTwo := ⟨by decide, by decide +kernel⟩
  obtain ⟨-, -, hsub, hmul⟩ := interval_operand_eq hx
    (Interval.isProper_ofBounds (.finite (-1)) (.finite 3))
  exact ⟨hsub, by decide +kernel, hmul, by decide +kernel⟩

end AffineArithmetic.AffineForm

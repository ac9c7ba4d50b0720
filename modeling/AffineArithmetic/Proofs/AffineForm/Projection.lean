import AffineArithmetic.Proofs.AffineForm.Reachable

/-!
# The enclosed interval in binary64

The error of a reachable linear form is not negative and its entries are finite, so the rounded
bounds of its values are in order about its centre, also where the radius or a bound overflows. Half
lines and the real line contain their midpoint as well, and nothing but the empty form encloses the
empty set.
-/

namespace AffineArithmetic.AffineForm

open Binary64 Scalar

variable {limit : ℕ} {x : AffineForm Float}

/-- The midpoint of a form that is not empty is finite and one of its values. -/
theorem Valid.contains_midpoint (h : Valid x) (hne : x ≠ empty) :
    Scalar.isFinite x.midpoint = true ∧ x.toInterval.contains x.midpoint = true := by
  have he := h.not_isEmpty_toInterval hne
  have hproper := isProper_toInterval x
  cases x with
  | active p =>
    have hc := (Linear.isFinite_iff.mp h.1).2.1
    exact ⟨hc, (Linear.defined_of_isFinite h.1 h.2).contains_center hc⟩
  | empty => contradiction
  | _ => exact hproper.contains_midpoint he

/-- Only the empty form encloses the empty set. Every other reachable form encloses an interval with
bounds in order that leave room for a real number, and its midpoint is finite and between them,
whatever overflows. -/
theorem reachable_toInterval_contains_midpoint (h : Reachable limit x) :
    (x.toInterval = Interval.empty ↔ x = empty) ∧
    (x ≠ empty → x.toInterval.isEmpty = false ∧
      Interval.InOrder x.toInterval.lower x.toInterval.upper ∧
      Scalar.isFinite x.midpoint = true ∧ x.toInterval.contains x.midpoint = true) := by
  have hproper := isProper_toInterval x
  constructor
  · rw [← hproper.isEmpty_iff, h.valid.isEmpty_toInterval]
  · intro hne
    have he := h.valid.not_isEmpty_toInterval hne
    exact ⟨he, hproper.inOrder he, h.valid.contains_midpoint hne⟩

/-- A form over two noise symbols with the largest coefficients. -/
def widestPair : AffineForm Float :=
  onSymbol 2 1 (.ofBounds (-maxFinite) maxFinite) + onSymbol 2 2 (.ofBounds (-maxFinite) maxFinite)

/-- The coefficients add up to infinity, and the centre is a point of the real line. -/
theorem toInterval_contains_midpoint_of_overflow :
    Reachable 3 widestPair ∧ widestPair = active ⟨0.0, [maxFinite, maxFinite], 0.0⟩ ∧
      widestPair ≠ empty ∧ widestPair.toInterval = .univ ∧
      Interval.InOrder widestPair.toInterval.lower widestPair.toInterval.upper ∧
      widestPair.toInterval.contains widestPair.midpoint = true := by
  have hx : Reachable 3 widestPair :=
    Reachable.add (.onSymbol (by decide) (by decide) (.ofBounds (-maxFinite) maxFinite))
      (.onSymbol (by decide) (by decide) (.ofBounds (-maxFinite) maxFinite))
  have hne : widestPair ≠ empty := by decide +kernel
  obtain ⟨-, ho, -, hm⟩ := (reachable_toInterval_contains_midpoint hx).2 hne
  exact ⟨hx, by decide +kernel, hne, by decide +kernel, ho, hm⟩

end AffineArithmetic.AffineForm

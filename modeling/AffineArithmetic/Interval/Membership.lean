import AffineArithmetic.Interval.Arithmetic
import AffineArithmetic.Scalar.Extended

/-!
# The points of an interval

Intervals with exact bounds as sets of field elements. The infinities and the undefined number are
bounds but never points.
-/

namespace AffineArithmetic.Interval

variable {K : Type} [LinearOrder K]

/-- The points between the bounds. -/
instance : Membership K (Interval (Extended K)) :=
  ⟨fun i x ↦ i.lower ≤ .finite x ∧ .finite x ≤ i.upper⟩

/-- A point is between the bounds. -/
theorem mem_def {i : Interval (Extended K)} {x : K} :
    x ∈ i ↔ i.lower ≤ .finite x ∧ .finite x ≤ i.upper := Iff.rfl

variable [Field K]

/-- The check of the bounds decides membership. -/
theorem contains_iff_mem {i : Interval (Extended K)} {x : K} :
    i.contains (.finite x) = true ↔ x ∈ i := by
  rw [contains, decide_eq_true_iff, mem_def]

/-- The empty set has no points. -/
theorem not_mem_empty (x : K) : x ∉ (empty : Interval (Extended K)) :=
  fun h ↦ absurd ((Extended.posInf_le_iff _).mp h.1) (by simp)

/-- The real line has every point. -/
theorem mem_univ (x : K) : x ∈ (univ : Interval (Extended K)) :=
  ⟨Extended.negInf_le_finite x, Extended.finite_le_posInf x⟩

end AffineArithmetic.Interval

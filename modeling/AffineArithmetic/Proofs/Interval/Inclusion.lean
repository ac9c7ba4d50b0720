import AffineArithmetic.Proofs.Interval.Hull

/-!
# Inclusion of exact intervals

Over exact numbers a proper interval is the hull of its points. So it lies within another one if its
points do, two that lie within each other are the same, and operations are inclusion isotone. Sums
of balls are those of their midpoints and radii, and the multiples of a ball are again balls.
-/

namespace AffineArithmetic.Interval

open Scalar

variable {K : Type} [Field K] [LinearOrder K] {i i' j j' k : Interval (Extended K)}
  {m n ρ σ a x : K}

/-! ### Points -/

/-- The points of an interval lie in every interval around it. -/
theorem mem_of_isSubset (h : i.isSubset j = true) (hx : x ∈ i) : x ∈ j := by
  rw [isSubset, isEmpty_of_mem hx, Bool.false_or, decide_eq_true_iff] at h
  exact ⟨Extended.le_trans h.1 hx.1, Extended.le_trans hx.2 h.2⟩

variable [IsStrictOrderedRing K]

/-- A proper interval is the hull of its points. -/
theorem isHull_points (hi : i.IsProper) : IsHull i i.points := by
  rcases hi with rfl | hi
  · rw [points_empty]
    exact isHull_empty
  have hspans : Spans i i.elements := by
    obtain ⟨hl, hu⟩ := extreme_elements hi
    exact ⟨i.lower, i.upper, hl, hu, (outward_of_inOrder hi).symm⟩
  apply hspans.isHull
  · intro x hx
    exact contains_iff_mem.mpr hx
  · intro a ha
    exact reaches_points hi ha

/-- A proper interval lies within another one if its points do. -/
theorem isSubset_iff (hi : i.IsProper) : i.isSubset j = true ↔ ∀ x ∈ i, x ∈ j := by
  constructor
  · intro h x hx
    exact mem_of_isSubset h hx
  · intro h
    exact (isHull_points hi).isSubset h

/-- What lies within an interval lies within every interval around it. -/
theorem isSubset_trans (hi : i.IsProper) (h : i.isSubset j = true) (h' : j.isSubset k = true) :
    i.isSubset k = true := by
  rw [isSubset_iff hi]
  intro x hx
  exact mem_of_isSubset h' (mem_of_isSubset h hx)

/-- Only the empty interval is a proper interval within the empty one. -/
theorem eq_empty_of_isSubset (hi : i.IsProper) (h : i.isSubset empty = true) : i = empty := by
  apply hi.resolve_right
  intro ho
  obtain ⟨x, hx⟩ := (reaches_points ho (extreme_elements ho).1.1).nonempty
  exact not_mem_empty x (mem_of_isSubset h hx)

/-- Proper intervals that lie within each other are the same. -/
theorem isSubset_antisymm (hi : i.IsProper) (hj : j.IsProper) (h : i.isSubset j = true)
    (h' : j.isSubset i = true) : i = j := by
  rcases hi with rfl | hi
  · exact (eq_empty_of_isSubset hj h').symm
  rcases hj with rfl | hj
  · exact eq_empty_of_isSubset (.inr hi) h
  rw [isSubset, isEmpty_of_le hi.1, Bool.false_or, decide_eq_true_iff] at h
  rw [isSubset, isEmpty_of_le hj.1, Bool.false_or, decide_eq_true_iff] at h'
  obtain ⟨l, u⟩ := i
  exact congrArg₂ mk (LawfulScalar.le_antisymm h'.1 h.1) (LawfulScalar.le_antisymm h.2 h'.2)

/-! ### Isotone operations -/

/-- Sums are inclusion isotone. -/
theorem isSubset_add (hi : i.IsProper) (hj : j.IsProper) (h : i.isSubset i' = true)
    (h' : j.isSubset j' = true) : (i + j).isSubset (i' + j') = true := by
  apply (isHull_add hi hj).isSubset
  rintro _ ⟨x, hx, y, hy, rfl⟩
  exact mem_add (mem_of_isSubset h hx) (mem_of_isSubset h' hy)

/-- Products are inclusion isotone. -/
theorem isSubset_mul (hi : i.IsProper) (hj : j.IsProper) (h : i.isSubset i' = true)
    (h' : j.isSubset j' = true) : (i * j).isSubset (i' * j') = true := by
  apply (isHull_mul hi hj).isSubset
  rintro _ ⟨x, hx, y, hy, rfl⟩
  exact mem_mul (mem_of_isSubset h hx) (mem_of_isSubset h' hy)

/-- Powers are inclusion isotone. -/
theorem isSubset_pow (hi : i.IsProper) (h : i.isSubset j = true) (n : ℕ) :
    (i.pow n).isSubset (j.pow n) = true := by
  apply (isHull_pow hi n).isSubset
  rintro _ ⟨x, hx, rfl⟩
  exact mem_pow (mem_of_isSubset h hx) n

/-! ### Balls -/

/-- Balls are proper. -/
theorem isProper_ball (h : 0 ≤ ρ) : (ball m ρ).IsProper := .inr (inOrder_ball h)

/-- A ball lies within every ball around its midpoint with at least its radius. -/
theorem isSubset_ball (h : 0 ≤ ρ) (hle : ρ ≤ σ) : (ball m ρ).isSubset (ball m σ) = true := by
  rw [isSubset_iff (isProper_ball h)]
  intro x hx
  exact mem_ball.mpr ((mem_ball.mp hx).trans hle)

omit [IsStrictOrderedRing K] in
/-- A finite scalar is the ball of radius 0 around it. -/
theorem ofScalar_eq_ball (a : K) : ofScalar (.finite a) = ball a 0 := by
  rw [ball, sub_zero, add_zero]
  rfl

omit [IsStrictOrderedRing K] in
/-- A noise symbol ranges over the ball of radius 1 around 0. -/
theorem noise_eq_ball : (noise : Interval (Extended K)) = ball 0 1 := by
  rw [ball, zero_sub, zero_add]
  rfl

/-- The sum of balls is a ball. -/
theorem ball_add_ball (h : 0 ≤ ρ) (h' : 0 ≤ σ) : ball m ρ + ball n σ = ball (m + n) (ρ + σ) := by
  have hlow : (ball m ρ).lower + (ball n σ).lower = .finite (m + n - (ρ + σ)) := by
    rw [add_sub_add_comm]
    rfl
  have hupp : (ball m ρ).upper + (ball n σ).upper = .finite (m + n + (ρ + σ)) := by
    rw [add_add_add_comm]
    rfl
  rw [add_of_isEmpty_eq_false (isEmpty_ball h) (isEmpty_ball h'), hlow, hupp]
  exact outward_of_inOrder (inOrder_ball (add_nonneg h h'))

/-- The points of a multiple of a ball are the multiples of its points. -/
theorem exists_mem_ball (h : 0 ≤ ρ) (hx : x ∈ ball (m * a) (ρ * |a|)) :
    ∃ y ∈ ball m ρ, x = y * a := by
  rw [mem_ball] at hx
  by_cases ha : a = 0
  · subst ha
    rw [mul_zero, sub_zero, abs_zero, mul_zero, abs_nonpos_iff] at hx
    exact ⟨m, mem_ball.mpr (by rwa [sub_self, abs_zero]), by rw [hx, mul_zero]⟩
  · refine ⟨x / a, ?_, (div_mul_cancel₀ x ha).symm⟩
    have hdiv : x / a - m = (x - m * a) / a := by rw [sub_div, mul_div_cancel_right₀ m ha]
    rw [mem_ball, hdiv, abs_div]
    exact (div_le_iff₀ (abs_pos.mpr ha)).mpr hx

/-- The product of a ball with a finite scalar is a ball. -/
theorem ball_mul_ofScalar (h : 0 ≤ ρ) (a : K) :
    ball m ρ * ofScalar (.finite a) = ball (m * a) (ρ * |a|) := by
  have hball := isProper_ball (m := m * a) (mul_nonneg h (abs_nonneg a))
  have hmul := isHull_mul (isProper_ball (m := m) h) (isProper_scalar (Extended.isFinite_finite a))
  apply isSubset_antisymm (isProper_mul _ _) hball
  · apply hmul.isSubset
    rintro _ ⟨y, hy, z, hz, rfl⟩
    rw [eq_of_mem_ofScalar hz, mem_ball, ← sub_mul, abs_mul]
    exact mul_le_mul_of_nonneg_right (mem_ball.mp hy) (abs_nonneg a)
  · rw [isSubset_iff hball]
    intro x hx
    obtain ⟨y, hy, rfl⟩ := exists_mem_ball h hx
    exact mem_mul hy (mem_ofScalar a)

/-- The noise interval scaled by a finite scalar is a ball around 0. -/
theorem noise_mul_finite (d : K) :
    (noise : Interval (Extended K)) * (.finite d : Extended K) = ball 0 |d| := by
  change noise * ofScalar (.finite d) = ball 0 |d|
  rw [noise_eq_ball, ball_mul_ofScalar zero_le_one, zero_mul, one_mul]

end AffineArithmetic.Interval

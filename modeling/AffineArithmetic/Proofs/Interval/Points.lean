import AffineArithmetic.Proofs.Interval.Ball
import AffineArithmetic.Proofs.Interval.Range

/-!
# The points of interval results

Over exact numbers the result of an interval operation contains the results of the operation on the
points of the operands: it spans the results on all elements, the infinite bounds among them. The
bounds of an interval with points lie beyond the reals only on their own sides.
-/

namespace AffineArithmetic.Interval

open Scalar

variable {K : Type} [Field K] [LinearOrder K] {i j : Interval (Extended K)} {l u : Extended K}
  {x y : K}

/-! ### Bounds -/

/-- An interval with a point is not empty. -/
theorem isEmpty_of_mem (h : x ∈ i) : i.isEmpty = false := by
  rw [isEmpty, decide_eq_false_iff_not]
  exact Extended.not_lt_of_le (Extended.le_trans h.1 h.2)

/-- Bounds around a number are in order. -/
theorem inOrder_of_le (hl : l ≤ .finite x) (hu : .finite x ≤ u) : InOrder l u := by
  have hn : l ≠ .nan := (Extended.ne_nan_of_le hl).1
  have hn' : u ≠ .nan := (Extended.ne_nan_of_le hu).2
  refine ⟨Extended.le_trans hl hu, ?_, ?_⟩
  · rw [bne, Bool.not_eq_true', ← Bool.not_eq_true, Extended.beq_iff_eq l _ hn]
    rintro rfl
    simp [infinity] at hl
  · rw [bne, Bool.not_eq_true', ← Bool.not_eq_true, Extended.beq_iff_eq u _ hn']
    rintro rfl
    simp [infinity] at hu

/-- Bounds around a point are in order. -/
theorem inOrder_of_mem (h : x ∈ i) : InOrder i.lower i.upper := inOrder_of_le h.1 h.2

/-- Bounds around a number make an interval with this point. -/
theorem mem_ofBounds (hl : l ≤ .finite x) (hu : .finite x ≤ u) : x ∈ ofBounds l u := by
  rw [ofBounds_of_inOrder (inOrder_of_le hl hu)]
  exact ⟨hl, hu⟩

/-- Points of an interval between two bounds lie between them. -/
theorem le_of_mem_ofBounds (h : x ∈ ofBounds l u) : l ≤ .finite x ∧ .finite x ≤ u := by
  by_cases ho : InOrder l u
  · rwa [ofBounds_of_inOrder ho] at h
  · rw [ofBounds_of_not_inOrder ho] at h
    exact absurd h (not_mem_empty x)

/-- The interval of a finite scalar has it as a point. -/
theorem mem_ofScalar (x : K) : x ∈ ofScalar (.finite x : Extended K) := ⟨le_refl x, le_refl x⟩

/-- It has no other point. -/
theorem eq_of_mem_ofScalar (h : x ∈ ofScalar (.finite y : Extended K)) : x = y :=
  le_antisymm h.2 h.1

variable [IsStrictOrderedRing K]

/-! ### Operations -/

/-- Opposite points are points of the opposite interval. -/
theorem mem_neg (h : x ∈ i) : -x ∈ -i :=
  contains_iff_mem.mp
    (isRange_neg.contains (.inr (inOrder_of_mem h)) (contains_iff_mem.mpr h))

/-- Sums of points are sums of elements. -/
theorem add_mem_sums (hx : x ∈ i) (hy : y ∈ j) :
    .finite (x + y) ∈ sums i.elements j.elements := by
  constructor
  · exact ⟨.finite x, contains_iff_mem.mpr hx, .finite y, contains_iff_mem.mpr hy, rfl⟩
  · exact LawfulScalar.ne_nan_of_isFinite rfl

/-- Products of points are products of elements. -/
theorem mul_mem_products (hx : x ∈ i) (hy : y ∈ j) :
    .finite (x * y) ∈ products i.elements j.elements :=
  ⟨.finite x, contains_iff_mem.mpr hx, .finite y, contains_iff_mem.mpr hy,
    mulBounds_of_isFinite rfl rfl⟩

/-- Sums of points are points of the sum. -/
theorem mem_add (hx : x ∈ i) (hy : y ∈ j) : x + y ∈ i + j := by
  have hspans := isRange_add.spans (inOrder_of_mem hx) (inOrder_of_mem hy)
  apply contains_iff_mem.mp
  apply hspans.contains
  exact add_mem_sums hx hy

/-- Products of points are points of the product. -/
theorem mem_mul (hx : x ∈ i) (hy : y ∈ j) : x * y ∈ i * j := by
  have hspans := isRange_mul.spans (inOrder_of_mem hx) (inOrder_of_mem hy)
  apply contains_iff_mem.mp
  apply hspans.contains
  exact mul_mem_products hx hy

/-- Powers of points are points of the power. -/
theorem mem_pow (h : x ∈ i) (n : ℕ) : x ^ n ∈ i.pow n := by
  have hpow := (isRange_pow n).contains (.inr (inOrder_of_mem h)) (contains_iff_mem.mpr h)
  rw [Extended.power_finite] at hpow
  exact contains_iff_mem.mp hpow

/-- Shifts of at most a given size are points of the noise interval scaled by it. -/
theorem mem_noise_mul (h : |x| ≤ |y|) :
    x ∈ (noise : Interval (Extended K)) * (.finite y : Extended K) := by
  change x ∈ (noise : Interval (Extended K)) * ofScalar (.finite y : Extended K)
  by_cases hy : y = 0
  · rw [hy, abs_zero, abs_nonpos_iff] at h
    have h0 : (0 : K) ∈ (noise : Interval (Extended K)) :=
      ⟨neg_nonpos.mpr zero_le_one, zero_le_one (α := K)⟩
    rw [h, hy, ← mul_zero (0 : K)]
    exact mem_mul h0 (by rw [mul_zero]; exact mem_ofScalar 0)
  · have hxy : |x / y| ≤ 1 := by
      rw [abs_div]
      exact div_le_one_of_le₀ h (abs_nonneg y)
    have hmem : x / y ∈ (noise : Interval (Extended K)) := abs_le.mp hxy
    rw [← div_mul_cancel₀ x hy]
    exact mem_mul hmem (mem_ofScalar y)

/-! ### Midpoint and radius -/

/-- The points of a bounded interval are within the radius of the midpoint, and within the magnitude
of 0. -/
theorem exists_midpoint_of_mem (h : x ∈ i) (hb : i.isBounded = true) :
    ∃ m ρ μ, i.midpoint = .finite m ∧ i.radius = .finite ρ ∧ i.magnitude = .finite μ ∧
      |x - m| ≤ ρ ∧ |x| ≤ μ := by
  obtain ⟨m, ρ, hρ, rfl⟩ := exists_ball (.inr (inOrder_of_mem h)) hb
  exact ⟨m, ρ, |m| + ρ, midpoint_ball hρ, radius_ball hρ, magnitude_ball hρ, mem_ball.mp h,
    abs_le_of_mem_ball h⟩

end AffineArithmetic.Interval

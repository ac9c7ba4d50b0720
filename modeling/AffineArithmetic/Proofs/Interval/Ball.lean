import Mathlib.Order.Bounds.Defs
import Mathlib.Tactic.Ring
import AffineArithmetic.Interval.Membership
import AffineArithmetic.Proofs.Interval.Scalar

/-!
# Bounded intervals of exact numbers

Over exact numbers every bounded interval consists of the numbers within its radius of its midpoint,
and its magnitude is the absolute midpoint and the radius together.
-/

namespace AffineArithmetic.Interval

open Scalar

variable {K : Type} [Field K] [LinearOrder K] {i : Interval (Extended K)} {m ρ x : K}

/-- The numbers from `m - ρ` to `m + ρ`. -/
def ball (m ρ : K) : Interval (Extended K) := ⟨.finite (m - ρ), .finite (m + ρ)⟩

variable [IsStrictOrderedRing K]

/-- Finite bounds are those of the ball around their middle. -/
theorem eq_ball (l u : K) : (⟨.finite l, .finite u⟩ : Interval (Extended K)) =
    ball (1 / 2 * (l + u)) (1 / 2 * (u - l)) := by
  rw [ball]
  congr 2 <;> ring

/-- The lower bound of an interval that does not reach down without end is finite. -/
theorem exists_lower (ho : InOrder i.lower i.upper) (hb : i.isUnboundedBelow = false) :
    ∃ l, i.lower = .finite l := by
  obtain ⟨hle, hl, -⟩ := ho
  have hn := (Extended.ne_nan_of_le hle).1
  rw [bne, Bool.not_eq_true', ← Bool.not_eq_true, Extended.beq_iff_eq _ _ hn] at hl
  rw [isUnboundedBelow, isEmpty_of_le hle, Bool.not_false, Bool.true_and, ← Bool.not_eq_true,
    Extended.beq_iff_eq _ _ hn] at hb
  cases h : i.lower with
  | finite l => exact ⟨l, rfl⟩
  | nan => exact absurd h hn
  | posInf => exact absurd h hl
  | negInf => exact absurd h hb

/-- The upper bound of an interval that does not reach up without end is finite. -/
theorem exists_upper (ho : InOrder i.lower i.upper) (hb : i.isUnboundedAbove = false) :
    ∃ u, i.upper = .finite u := by
  have hneg : -i = ⟨-i.upper, -i.lower⟩ := neg_of_isEmpty_eq_false (isEmpty_of_le ho.1)
  rw [← neg_isUnboundedBelow, hneg] at hb
  obtain ⟨l, hl⟩ := exists_lower (inOrder_neg.mpr ho) hb
  exact ⟨-l, LawfulScalar.neg_eq_iff.mp hl⟩

/-- Bounded intervals are balls. -/
theorem exists_ball (hi : i.IsProper) (hb : i.isBounded = true) :
    ∃ m ρ, 0 ≤ ρ ∧ i = ball m ρ := by
  rw [isBounded, isUnbounded, Bool.and_eq_true, Bool.not_eq_true', Bool.not_eq_true',
    Bool.or_eq_false_iff] at hb
  obtain ⟨hne, hlow, hupp⟩ := hb
  have ho : InOrder i.lower i.upper := by
    apply hi.resolve_left
    rintro rfl
    rw [empty_isEmpty] at hne
    contradiction
  obtain ⟨l, hl⟩ := exists_lower ho hlow
  obtain ⟨u, hu⟩ := exists_upper ho hupp
  have hle : l ≤ u := by
    rw [hl, hu] at ho
    exact ho.1
  refine ⟨1 / 2 * (l + u), 1 / 2 * (u - l), by linarith, ?_⟩
  rw [← eq_ball, ← hl, ← hu]

/-! ### Ends -/

private theorem ball_le (h : 0 ≤ ρ) : Extended.finite (m - ρ) ≤ .finite (m + ρ) := by
  change m - ρ ≤ m + ρ
  linarith

/-- The bounds of a ball are in order. -/
theorem inOrder_ball (h : 0 ≤ ρ) : InOrder (ball m ρ).lower (ball m ρ).upper :=
  inOrder_of_isFinite rfl rfl (ball_le h)

/-- The interval between the bounds of a ball is the ball. -/
theorem ofBounds_ball (h : 0 ≤ ρ) :
    ofBounds (.finite (m - ρ) : Extended K) (.finite (m + ρ)) = ball m ρ :=
  ofBounds_of_inOrder (inOrder_ball h)

/-- Balls are not empty. -/
theorem isEmpty_ball (h : 0 ≤ ρ) : (ball m ρ).isEmpty = false := isEmpty_of_le (ball_le h)

/-- Balls have finite ends. -/
theorem isUnbounded_ball (h : 0 ≤ ρ) :
    (ball m ρ).isUnboundedBelow = false ∧ (ball m ρ).isUnboundedAbove = false :=
  ⟨isUnboundedBelow_of_isFinite rfl (ball_le h), isUnboundedAbove_of_isFinite rfl (ball_le h)⟩

/-- Balls are bounded. -/
theorem isBounded_ball (h : 0 ≤ ρ) : (ball m ρ).isBounded = true := by
  rw [isBounded, isUnbounded, isEmpty_ball h, (isUnbounded_ball h).1, (isUnbounded_ball h).2]
  rfl

/-! ### Midpoint, radius and magnitude -/

/-- The midpoint of a ball. -/
theorem midpoint_ball (h : 0 ≤ ρ) : (ball m ρ).midpoint = .finite m := by
  rw [midpoint, isEmpty_ball h, (isUnbounded_ball h).1, (isUnbounded_ball h).2]
  change Extended.finite (1 / 2 * (m - ρ + (m + ρ))) = .finite m
  congr 1
  ring

/-- The radius of a ball. -/
theorem radius_ball (h : 0 ≤ ρ) : (ball m ρ).radius = .finite ρ := by
  have hlow : Extended.finite m - (ball m ρ).lower = .finite ρ := by
    rw [ball, Extended.finite_sub_finite, sub_sub_cancel]
  have hupp : (ball m ρ).upper - Extended.finite m = .finite ρ := by
    rw [ball, Extended.finite_sub_finite, add_sub_cancel_left]
  rw [radius, isEmpty_ball h, isUnbounded, (isUnbounded_ball h).1, (isUnbounded_ball h).2,
    midpoint_ball h, hlow, hupp]
  exact LawfulScalar.max_of_le (le_refl ρ)

/-- The width of a ball. -/
theorem width_ball (h : 0 ≤ ρ) : (ball m ρ).width = .finite (2 * ρ) := by
  rw [width, isEmpty_ball h, if_neg Bool.false_ne_true, ball, Extended.finite_sub_finite]
  congr 1
  ring

/-- The magnitude of a ball. -/
theorem magnitude_ball (h : 0 ≤ ρ) : (ball m ρ).magnitude = .finite (|m| + ρ) := by
  rw [magnitude, isEmpty_ball h, if_neg Bool.false_ne_true]
  change Scalar.max (Extended.finite |m - ρ|) (.finite |m + ρ|) = .finite (|m| + ρ)
  -- the bound on the side of the midpoint is the farther one
  rcases le_total 0 m with hm | hm
  · have hle : |m - ρ| ≤ |m + ρ| := by
      rw [abs_of_nonneg (add_nonneg hm h), abs_le]
      constructor <;> linarith
    rw [LawfulScalar.max_of_le (show Extended.finite |m - ρ| ≤ .finite |m + ρ| from hle),
      abs_of_nonneg (add_nonneg hm h), abs_of_nonneg hm]
  · have hle : |m + ρ| ≤ |m - ρ| := by
      rw [abs_of_nonpos (sub_nonpos.mpr (hm.trans h)), abs_le]
      constructor <;> linarith
    rw [LawfulScalar.max_of_ge (show Extended.finite |m + ρ| ≤ .finite |m - ρ| from hle),
      abs_of_nonpos (sub_nonpos.mpr (hm.trans h)), abs_of_nonpos hm]
    congr 1
    ring

/-- The points of a ball are within its radius of its midpoint. -/
theorem mem_ball : x ∈ ball m ρ ↔ |x - m| ≤ ρ := by
  change m - ρ ≤ x ∧ x ≤ m + ρ ↔ _
  rw [abs_le]
  constructor <;> rintro ⟨h, h'⟩ <;> constructor <;> linarith

/-- The points of a ball deviate from its midpoint by a share of the radius. -/
theorem exists_share_of_mem_ball (h : x ∈ ball m ρ) : ∃ t, |t| ≤ 1 ∧ x - m = ρ * t := by
  have hx := mem_ball.mp h
  by_cases h0 : ρ = 0
  · rw [h0, abs_nonpos_iff] at hx
    exact ⟨0, by rw [abs_zero]; exact zero_le_one, by rw [hx, mul_zero]⟩
  · have hρ : 0 ≤ ρ := (abs_nonneg _).trans hx
    refine ⟨(x - m) / ρ, ?_, (mul_div_cancel₀ _ h0).symm⟩
    rw [abs_div, abs_of_nonneg hρ]
    exact div_le_one_of_le₀ hx hρ

/-- The lower bound of a ball is its least point. -/
theorem isLeast_ball (h : 0 ≤ ρ) : IsLeast {x | x ∈ ball m ρ} (m - ρ) :=
  ⟨⟨le_refl (m - ρ), ball_le h⟩, fun _ hx ↦ hx.1⟩

/-- The upper bound of a ball is its greatest point. -/
theorem isGreatest_ball (h : 0 ≤ ρ) : IsGreatest {x | x ∈ ball m ρ} (m + ρ) :=
  ⟨⟨ball_le h, le_refl (m + ρ)⟩, fun _ hx ↦ hx.2⟩

/-- The points of a ball are within its magnitude of 0. -/
theorem abs_le_of_mem_ball (h : x ∈ ball m ρ) : |x| ≤ |m| + ρ := by
  rw [← add_sub_cancel m x]
  exact (abs_add_le _ _).trans (add_le_add le_rfl (mem_ball.mp h))

end AffineArithmetic.Interval

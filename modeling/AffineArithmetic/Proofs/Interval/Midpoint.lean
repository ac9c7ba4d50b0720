import AffineArithmetic.Proofs.Interval.Range
import AffineArithmetic.Proofs.Interval.Rounded

/-!
# Midpoint and radius in binary64

The midpoint of a bounded interval is computed without overflow: either the sum of the bounds is
finite, or the bounds have one sign and their halves, which are exact then, are added instead. It
lies between the bounds, as rounding does not pass them, and so near to the exact centre that the
distances to the bounds do not overflow either, however wide the interval is.
-/

namespace AffineArithmetic.Interval

open Binary64 Scalar

/-! ### Results within the finite range -/

-- The last place of all is small.
private theorem four_mul_unit_le_one : 4 * (2 : ℚ) ^ (-1074 : ℤ) ≤ 1 := by
  have h : (2 : ℚ) ^ (-1074 : ℤ) ≤ 2 ^ (-2 : ℤ) := zpow_le_zpow_right₀ one_le_two (by norm_num)
  rw [show (2 : ℚ) ^ (-2 : ℤ) = 1 / 4 by norm_num] at h
  linarith

-- One beyond the largest finite number is rounded away.
private theorem abs_nearest_le_largest {q : ℚ} (h : |q| ≤ largest + 1) : |nearest q| ≤ largest := by
  have hsmall : 1 * 2 ^ 54 ≤ largest := by
    have hge : (2 : ℚ) ^ (2 : ℤ) ≤ 2 ^ (971 : ℤ) := zpow_le_zpow_right₀ one_le_two (by norm_num)
    rw [show (2 : ℚ) ^ (2 : ℤ) = 4 by norm_num] at hge
    rw [largest_eq]
    generalize (2 : ℚ) ^ (971 : ℤ) = r at hge ⊢
    linarith
  have hmax : nearest (largest + 1) ≤ largest :=
    nearest_add_le onGrid_largest largest_pos.le zero_le_one hsmall
  rw [abs_le] at h ⊢
  constructor
  · have hm := nearest_mono (show -(largest + 1) ≤ q from h.1)
    rw [nearest_neg] at hm
    linarith
  · exact (nearest_mono h.2).trans hmax

private theorem rounded_of_abs_le {q : ℚ} (h : |q| ≤ largest + 1) :
    rounded (.finite q) = .finite (nearest q) :=
  saturate_of_abs_lt ((abs_nearest_le_largest h).trans_lt largest_lt_bound)

private theorem abs_nearest_le {q r : ℚ} (hr : OnGrid r) (h : |q| ≤ r) : |nearest q| ≤ r := by
  rw [abs_le'] at h ⊢
  exact ⟨hr.nearest_le h.1, nearest_neg q ▸ hr.nearest_le h.2⟩

-- Halving does not overflow.
private theorem value_half_mul {x : Float} {p : ℚ} (h : value x = .finite p) :
    value (half * x) = .finite (nearest (p / 2)) ∧ |nearest (p / 2)| ≤ largest / 2 := by
  have hp : |p / 2| ≤ largest / 2 := by
    rw [abs_div, abs_two]
    linarith [abs_le_largest_of_value h]
  have hl := largest_pos
  refine ⟨?_, abs_nearest_le onGrid_largest_div_two hp⟩
  rw [value_mul, value_half, h, Extended.finite_mul_finite, one_div_mul_eq_div]
  exact rounded_of_abs_le (by linarith)

/-! ### The midpoint -/

-- How far the computed midpoint may be from the exact one.
private def Near (m p q : ℚ) : Prop := |m - (p + q) / 2| ≤ |p + q| / 2 ^ 50 + 2 * 2 ^ (-1074 : ℤ)

private theorem near_of_sum {p q s : ℚ} (hs : |s - (p + q)| ≤ |p + q| / 2 ^ 53) :
    Near (nearest (s / 2)) p q := by
  have h := abs_nearest_sub_le_add (s / 2)
  have hp : (0 : ℚ) < 2 ^ (-1074 : ℤ) := zpow_pos two_pos _
  have hs' : |s / 2| ≤ |p + q| := by
    rw [abs_div, abs_two]
    have := abs_sub_abs_le_abs_sub s (p + q)
    have := abs_nonneg (p + q)
    linarith
  unfold Near
  generalize (2 : ℚ) ^ (-1074 : ℤ) = u at h hp ⊢
  rw [abs_le] at h hs ⊢
  constructor <;> linarith

private theorem near_of_halves {p q : ℚ} (hpq : |p| + |q| = |p + q|) :
    Near (nearest (nearest (p / 2) + nearest (q / 2))) p q := by
  have h1 := abs_nearest_sub_le_add (p / 2)
  have h2 := abs_nearest_sub_le_add (q / 2)
  have h3 := abs_nearest_add_sub_le (onGrid_nearest (p / 2)) (onGrid_nearest (q / 2))
  have hu : (0 : ℚ) < 2 ^ (-1074 : ℤ) := zpow_pos two_pos _
  have hp := abs_le.mp (le_refl |p|)
  have hq := abs_le.mp (le_refl |q|)
  rw [abs_div, abs_two] at h1 h2
  unfold Near
  generalize (2 : ℚ) ^ (-1074 : ℤ) = u at h1 h2 hu ⊢
  have hsum : |nearest (p / 2) + nearest (q / 2)| ≤ |p + q| + u := by
    rw [abs_le] at h1 h2 ⊢
    constructor <;> linarith
  rw [abs_le] at h1 h2 h3 ⊢
  constructor <;> linarith

variable {i : Interval Float} {p q : ℚ}

-- Bounds whose sum overflows have the same sign.
private theorem abs_add_abs_of_largest_lt (hp : |p| ≤ largest) (hq : |q| ≤ largest)
    (h : largest < |p + q|) : |p| + |q| = |p + q| := by
  rcases abs_cases p with ⟨h1, h1'⟩ | ⟨h1, h1'⟩ <;>
    rcases abs_cases q with ⟨h2, h2'⟩ | ⟨h2, h2'⟩ <;>
    rcases abs_cases (p + q) with ⟨h3, h3'⟩ | ⟨h3, h3'⟩ <;> linarith

-- Half of a rounded sum, rounded again, does not pass the bounds: their doubles are on the grid.
private theorem nearest_half_sum_between (hp : OnGrid p) (hq : OnGrid q) (h : p ≤ q) :
    p ≤ nearest (nearest (p + q) / 2) ∧ nearest (nearest (p + q) / 2) ≤ q := by
  have hl : p + p ≤ nearest (p + q) := hp.add_self.le_nearest (by linarith)
  have hu : nearest (p + q) ≤ q + q := hq.add_self.nearest_le (by linarith)
  exact ⟨hp.le_nearest (by linarith), hq.nearest_le (by linarith)⟩

-- Nor does the sum of the halves where the sum overflows: no bound is small then.
private theorem nearest_sum_halves_between (hp : OnGrid p) (hq : OnGrid q) (hp' : |p| ≤ largest)
    (hq' : |q| ≤ largest) (h : p ≤ q) (hbig : largest + 1 < |p + q|) :
    p ≤ nearest (nearest (p / 2) + nearest (q / 2)) ∧
      nearest (nearest (p / 2) + nearest (q / 2)) ≤ q := by
  have hadd := abs_add_le p q
  rw [nearest_of_onGrid (hp.div_two (by linarith)), nearest_of_onGrid (hq.div_two (by linarith))]
  exact ⟨hp.le_nearest (by linarith), hq.nearest_le (by linarith)⟩

-- Between finite bounds the midpoint is computed from them.
private theorem midpoint_of_finite (hl : value i.lower = .finite p)
    (hu : value i.upper = .finite q) (h : p ≤ q) : i.midpoint =
      if Scalar.isFinite (half * (i.lower + i.upper)) then half * (i.lower + i.upper)
      else half * i.lower + half * i.upper := by
  have hne : i.isEmpty = false := by
    rw [← Bool.not_eq_true, isEmpty_iff_lt, hl, hu]
    exact Extended.not_lt_of_le h
  have hb : i.isUnboundedBelow = false := by
    rw [← Bool.not_eq_true, isUnboundedBelow_iff hne, hl]
    simp
  have ha : i.isUnboundedAbove = false := by
    rw [← Bool.not_eq_true, isUnboundedAbove_iff hne, hu]
    simp
  unfold midpoint
  rw [hne, hb, ha]
  rfl

private theorem isFinite_of_half_mul {x : Float} (h : Scalar.isFinite (half * x) = true) :
    Scalar.isFinite x = true := by
  rw [← Binary64.isFinite_toRounded, Binary64.toRounded_mul] at h
  rw [← Binary64.isFinite_toRounded]
  exact (LawfulScalar.isFinite_of_mul h).2

private theorem exists_midpoint (hl : value i.lower = .finite p) (hu : value i.upper = .finite q)
    (h : p ≤ q) : ∃ m, value i.midpoint = .finite m ∧ Near m p q ∧ p ≤ m ∧ m ≤ q := by
  have hp := onGrid_of_value hl
  have hq := onGrid_of_value hu
  have hsum : value (i.lower + i.upper) = rounded (.finite (p + q)) := by
    rw [value_add, hl, hu]
    rfl
  rw [midpoint_of_finite hl hu h]
  by_cases hs : ∃ s, value (i.lower + i.upper) = .finite s
  · obtain ⟨s, hs⟩ := hs
    obtain rfl := eq_nearest_of_rounded (hsum.symm.trans hs)
    obtain ⟨hv, -⟩ := value_half_mul hs
    rw [if_pos (scalar_isFinite_iff.mpr ⟨_, hv⟩)]
    exact ⟨_, hv, near_of_sum (abs_nearest_add_sub_le hp hq), nearest_half_sum_between hp hq h⟩
  · have hp' := abs_le_largest_of_value hl
    have hq' := abs_le_largest_of_value hu
    have hbig : largest + 1 < |p + q| := by
      by_contra hle
      exact hs ⟨_, hsum.trans (rounded_of_abs_le (not_lt.mp hle))⟩
    obtain ⟨hv, hv'⟩ := value_half_mul hl
    obtain ⟨hw, hw'⟩ := value_half_mul hu
    rw [if_neg fun hf ↦ hs (scalar_isFinite_iff.mp (isFinite_of_half_mul hf)), value_add, hv, hw,
      Extended.finite_add_finite]
    have hadd := abs_add_le (nearest (p / 2)) (nearest (q / 2))
    exact ⟨_, rounded_of_abs_le (by linarith),
      near_of_halves (abs_add_abs_of_largest_lt hp' hq' (by linarith)),
      nearest_sum_halves_between hp hq hp' hq' h hbig⟩

/-! ### Bounded intervals -/

-- The exact centre is half the width from both bounds.
private theorem abs_sub_le_of_near {m : ℚ} (hp : |p| ≤ largest) (hq : |q| ≤ largest) (h : p ≤ q)
    (hm : Near m p q) :
    |m - p| ≤ largest + 1 ∧ |q - m| ≤ largest + 1 := by
  unfold Near at hm
  have hu := four_mul_unit_le_one
  generalize (2 : ℚ) ^ (-1074 : ℤ) = u at hm hu
  rw [abs_le] at hm hp hq
  have hs : |p + q| ≤ 2 * largest - (q - p) := by
    rw [abs_le]
    constructor <;> linarith
  have h0 := abs_nonneg (p + q)
  constructor <;> rw [abs_le] <;> constructor <;> linarith

/-- The midpoint and the radius of a bounded interval are finite. -/
theorem IsProper.isFinite_midpoint_radius (h : IsProper i) (hb : i.isBounded = true) :
    Scalar.isFinite i.midpoint = true ∧ Scalar.isFinite i.radius = true := by
  obtain ⟨hne, hub⟩ := isBounded_iff.mp hb
  obtain ⟨p, q, hl, hu, hpq⟩ := h.exists_of_isBounded hb
  obtain ⟨m, hm, hnear, -⟩ := exists_midpoint hl hu hpq
  obtain ⟨h1, h2⟩ := abs_sub_le_of_near (abs_le_largest_of_value hl) (abs_le_largest_of_value hu)
    hpq hnear
  have hv1 : value (i.midpoint - i.lower) = .finite (nearest (m - p)) := by
    rw [value_sub, hm, hl, Extended.finite_sub_finite]
    exact rounded_of_abs_le h1
  have hv2 : value (i.upper - i.midpoint) = .finite (nearest (q - m)) := by
    rw [value_sub, hm, hu, Extended.finite_sub_finite]
    exact rounded_of_abs_le h2
  refine ⟨scalar_isFinite_iff.mpr ⟨m, hm⟩, scalar_isFinite_iff.mpr ?_⟩
  unfold radius
  rw [hne, hub, if_neg Bool.false_ne_true, if_neg Bool.false_ne_true]
  unfold Scalar.max
  split
  · exact ⟨_, hv2⟩
  · split
    · exact ⟨_, hv1⟩
    · exact ⟨_, hv2⟩

/-- The radius of a proper interval is not negative. -/
theorem IsProper.notNegative_radius (h : IsProper i) : NotNegative i.radius := by
  by_cases hne : i.isEmpty = true
  · rw [radius, if_pos hne]
    exact notNegative_of_le (by rw [value_zero]; exact le_refl (0 : ℚ))
  by_cases hub : i.isUnbounded = true
  · rw [radius, if_neg hne, if_pos hub]
    exact notNegative_of_le (by simp)
  rw [radius, if_neg hne, if_neg hub]
  rw [Bool.not_eq_true] at hne hub
  obtain ⟨p, q, hl, hu, hpq⟩ := h.exists_of_isBounded (isBounded_iff.mpr ⟨hne, hub⟩)
  obtain ⟨m, hm, -, hpm, -⟩ := exists_midpoint hl hu hpq
  have h0 : .finite 0 ≤ value (i.midpoint - i.lower) := by
    rw [value_sub, hm, hl, Extended.finite_sub_finite]
    exact rounded_nonneg (a := .finite _) (sub_nonneg.mpr hpm)
  refine notNegative_of_le (Extended.le_trans h0 ?_)
  rw [value_max]
  exact LawfulScalar.le_max_left (Extended.ne_nan_of_le h0).2

-- No finite bound is beyond the largest finite number.
private theorem maxFinite_between {x : Float} (hn : value x ≠ .nan) :
    (value x ≠ .posInf → value x ≤ value maxFinite) ∧
      (value x ≠ .negInf → value (-maxFinite) ≤ value x) := by
  rw [value_neg, value_maxFinite, Extended.neg_finite]
  cases hv : value x with
  | nan => exact absurd hv hn
  | negInf => simp
  | posInf => simp
  | finite q =>
    obtain ⟨hl, hu⟩ := abs_le.mp (abs_le_largest_of_value hv)
    exact ⟨fun _ ↦ hu, fun _ ↦ hl⟩

/-- The midpoint of an interval with an infinite end is finite and a point of it. -/
theorem IsProper.contains_midpoint_of_isUnbounded (h : IsProper i) (hne : i.isEmpty = false)
    (hub : i.isUnbounded = true) :
    Scalar.isFinite i.midpoint = true ∧ i.contains i.midpoint = true := by
  obtain ⟨hle, hl, hu⟩ := inOrder_iff.mp (h.inOrder hne)
  obtain ⟨hln, hun⟩ := Extended.ne_nan_of_le hle
  rw [contains, decide_eq_true_iff, le_iff, le_iff, scalar_isFinite_iff, midpoint, hne,
    if_neg Bool.false_ne_true]
  cases hb : i.isUnboundedBelow with
  | true =>
    have hlower := (isUnboundedBelow_iff hne).mp hb
    rw [hlower]
    cases ha : i.isUnboundedAbove with
    | true =>
      rw [(isUnboundedAbove_iff hne).mp ha]
      simp
    | false =>
      refine ⟨⟨-largest, by simp⟩, by simp, ?_⟩
      exact (maxFinite_between hun).2 hu
  | false =>
    cases ha : i.isUnboundedAbove with
    | true =>
      rw [(isUnboundedAbove_iff hne).mp ha]
      refine ⟨⟨largest, by simp⟩, ?_, by simp⟩
      exact (maxFinite_between hln).1 hl
    | false =>
      rw [isUnbounded, hb, ha] at hub
      contradiction

/-- The midpoint of an interval that is not empty is finite and a point of it. -/
theorem IsProper.contains_midpoint (h : IsProper i) (hne : i.isEmpty = false) :
    Scalar.isFinite i.midpoint = true ∧ i.contains i.midpoint = true := by
  cases hub : i.isUnbounded with
  | true => exact h.contains_midpoint_of_isUnbounded hne hub
  | false =>
    obtain ⟨p, q, hl, hu, hpq⟩ := h.exists_of_isBounded (isBounded_iff.mpr ⟨hne, hub⟩)
    obtain ⟨m, hm, -, hpm, hmq⟩ := exists_midpoint hl hu hpq
    rw [contains, decide_eq_true_iff, le_iff, le_iff, hl, hu, hm]
    exact ⟨scalar_isFinite_iff.mpr ⟨m, hm⟩, hpm, hmq⟩

/-- Only the empty interval has no midpoint. -/
theorem IsProper.midpoint_ne_nan (h : IsProper i) (hne : i.isEmpty = false) :
    value i.midpoint ≠ .nan := by
  obtain ⟨m, hm⟩ := scalar_isFinite_iff.mp (h.contains_midpoint hne).1
  simp [hm]

/-! ### Absolute values -/

/-- The largest absolute value is not negative. -/
theorem notNegative_magnitude (i : Interval Float) : NotNegative i.magnitude := by
  unfold magnitude
  split
  · exact .inl rfl
  · exact (notNegative_abs i.lower).max (notNegative_abs i.upper)

/-- The smallest absolute value is not negative and not above the largest. -/
theorem IsProper.mignitude_le_magnitude (h : IsProper i) (hne : i.isEmpty = false) :
    Scalar.zero ≤ i.mignitude ∧ i.mignitude ≤ i.magnitude := by
  have ho := inOrder_toRounded.mpr (h.inOrder hne)
  rw [← toRounded_le, ← toRounded_le, toRounded_zero, toRounded_mignitude, toRounded_magnitude]
  exact ⟨mignitude_nonneg ho, (isLeast_mignitude ho).2 (isGreatest_magnitude ho).1⟩

/-! ### Reachable intervals -/

/-- The midpoint of a reachable interval that is not empty is finite and between the bounds, also
where their sum overflows or is rounded to a place that halving loses, and where a bound is
infinite. The radius of a bounded one is finite and not negative, however wide the interval is, and
the smallest absolute value lies between 0 and the largest. -/
theorem reachable_midpoint_radius (h : Reachable i) (hne : i.isEmpty = false) :
    (Scalar.isFinite i.midpoint = true ∧ i.contains i.midpoint = true) ∧
      (i.isBounded = true → Scalar.isFinite i.radius = true ∧ Scalar.zero ≤ i.radius) ∧
      Scalar.zero ≤ i.mignitude ∧ i.mignitude ≤ i.magnitude := by
  have hproper := h.isProper
  refine ⟨hproper.contains_midpoint hne, fun hb ↦ ?_, hproper.mignitude_le_magnitude hne⟩
  have hr := (hproper.isFinite_midpoint_radius hb).2
  exact ⟨hr, hproper.notNegative_radius.resolve_left
    (Bool.eq_false_iff.mp (isNaN_of_isFinite hr))⟩

/-- The sum of half the largest finite number and that number overflows. The midpoint of the
interval between them is a point of it, and the radius is finite. -/
theorem midpoint_radius_of_overflow :
    let i : Interval Float := ofBounds (half * maxFinite) maxFinite
    Reachable i ∧ i.isEmpty = false ∧ i.isBounded = true ∧
      Scalar.isFinite (i.lower + i.upper) = false ∧
      i.contains i.midpoint = true ∧ Scalar.isFinite i.radius = true := by
  intro i
  have h : Reachable i := .ofBounds _ _
  have hne : i.isEmpty = false := by decide +kernel
  have hb : i.isBounded = true := by decide +kernel
  obtain ⟨⟨-, hm⟩, hr, -⟩ := reachable_midpoint_radius h hne
  exact ⟨h, hne, hb, by decide +kernel, hm, (hr hb).1⟩

end AffineArithmetic.Interval

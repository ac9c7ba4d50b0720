import AffineArithmetic.Proofs.Binary64.Sum
import AffineArithmetic.Proofs.Interval.Midpoint
import AffineArithmetic.Proofs.Linear.Basic

/-!
# The error terms of rounded products

The error term of a product or of a square subtracts one half of the rounded diagonal from the
rounded product of the radii. The bound on rounded sums of products keeps the result from falling
below 0; it may be undefined where both overflow.
-/

namespace AffineArithmetic.Linear

open Binary64 Scalar

variable {x y : Linear Float}

/-! ### Sums -/

/-- A sum is not negative if no summand is. -/
theorem notNegative_foldl {xs : List Float} {s : Float} (hs : NotNegative s)
    (h : ∀ a ∈ xs, NotNegative a) : NotNegative (xs.foldl (· + ·) s) := by
  induction xs generalizing s with
  | nil => exact hs
  | cons a xs ih =>
    exact ih (hs.add (h a List.mem_cons_self)) fun b hb ↦ h b (List.mem_cons_of_mem a hb)

private theorem notNegative_map_abs (xs : List Float) : ∀ a ∈ xs.map Scalar.abs, NotNegative a := by
  intro a ha
  obtain ⟨b, -, rfl⟩ := List.mem_map.mp ha
  exact notNegative_abs b

/-- Absolute sums that start at the negative zero are not negative either. -/
theorem notNegative_absSum (xs : List Float) : NotNegative (absSum xs) := by
  refine notNegative_foldl (notNegative_of_le ?_) (notNegative_map_abs xs)
  rw [value_neg, value_zero, Extended.neg_finite, neg_zero]
  exact le_refl (0 : ℚ)

/-- Absolute sums of numbers are numbers from 0 on. -/
theorem nonneg_absSum {xs : List Float} (h : ∀ a ∈ xs, value a ≠ .nan) :
    .finite 0 ≤ value (absSum xs) := by
  have main : ∀ s : Float, .finite 0 ≤ value s →
      .finite 0 ≤ value ((xs.map Scalar.abs).foldl (· + ·) s) := by
    induction xs with
    | nil => exact fun _ hs ↦ hs
    | cons a xs ih =>
      intro s hs
      have ha : .finite 0 ≤ value (Scalar.abs a) := by
        rw [value_scalar_abs]
        exact Extended.abs_nonneg (h a List.mem_cons_self)
      exact ih (fun b hb ↦ h b (List.mem_cons_of_mem a hb)) _ (nonneg_value_add hs ha)
  refine main (-zero) ?_
  rw [value_neg, value_zero, Extended.neg_finite, neg_zero]
  exact le_refl (0 : ℚ)

/-! ### Enclosed intervals -/

/-- The entries are numbers, and the error is at least 0. -/
structure Defined (x : Linear Float) : Prop where
  center : value x.center ≠ .nan
  coeffs : ∀ a ∈ x.coeffs, value a ≠ .nan
  error : .finite 0 ≤ value x.error

/-- The entries of a finite form are numbers, and its error is at least 0 if it is not negative. -/
theorem defined_of_isFinite (h : x.isFinite = true) (he : NotNegative x.error) : x.Defined := by
  have hne : ∀ a : Float, Scalar.isFinite a = true → value a ≠ .nan := by
    intro a ha
    obtain ⟨q, hq⟩ := scalar_isFinite_iff.mp ha
    simp [hq]
  obtain ⟨he', hc, hcs⟩ := isFinite_iff.mp h
  exact ⟨hne _ hc, fun a ha ↦ hne a (hcs a ha), he.le_value (hne _ he')⟩

/-- The radius is at least 0. -/
theorem Defined.nonneg_radius (h : x.Defined) : .finite 0 ≤ value x.radius :=
  nonneg_value_add (nonneg_absSum h.coeffs) h.error

/-- A finite centre is between the bounds of the values, also if the radius is infinite. -/
theorem Defined.center_between (h : x.Defined) (hf : Scalar.isFinite x.center = true) :
    value (x.center - x.radius) ≤ value x.center ∧
      value x.center ≤ value (x.center + x.radius) := by
  obtain ⟨c, hc⟩ := scalar_isFinite_iff.mp hf
  have hr := h.nonneg_radius
  constructor
  · refine value_sub_le hr ?_
    rw [hc, Extended.sub_eq_add_neg]
    cases hv : value x.radius <;> simp [hv] at hr ⊢
  · refine le_value_add hr ?_
    rw [hc]
    cases hv : value x.radius <;> simp [hv] at hr ⊢

/-- The bounds of the values are in order about a finite centre. -/
theorem Defined.inOrder_of_center (h : x.Defined) (hf : Scalar.isFinite x.center = true) :
    Interval.InOrder (x.center - x.radius) (x.center + x.radius) := by
  obtain ⟨c, hc⟩ := scalar_isFinite_iff.mp hf
  obtain ⟨hl, hu⟩ := h.center_between hf
  rw [Interval.inOrder_iff]
  refine ⟨Extended.le_trans hl hu, fun hi ↦ ?_, fun hi ↦ ?_⟩
  · rw [hi, hc] at hl
    simp at hl
  · rw [hi, hc] at hu
    simp at hu

/-- A finite centre is one of the values. -/
theorem Defined.contains_center (h : x.Defined) (hf : Scalar.isFinite x.center = true) :
    x.toInterval.contains x.center = true := by
  obtain ⟨-, hl, hu⟩ := Interval.ofBounds_eq_of_inOrder (h.inOrder_of_center hf)
  rw [toInterval, Interval.contains, decide_eq_true_iff, hl, hu, le_iff, le_iff]
  exact h.center_between hf

/-! ### Half of the diagonal -/

-- One half of a number that is not negative is at most the number.
private theorem half_mul_le {t : Float} (h : .finite 0 ≤ value t) :
    value (half * t) ≤ value t := by
  rw [value_mul, value_half]
  nth_rewrite 2 [← rounded_value t]
  refine rounded_mono ?_
  cases ht : value t with
  | finite q =>
    rw [ht] at h
    have hq : 0 ≤ q := h
    rw [Extended.finite_mul_finite]
    change 1 / 2 * q ≤ q
    linarith
  | posInf =>
    rw [Extended.finite_mul_posInf, Extended.infinityTimes_of_pos (by norm_num)]
    exact Extended.le_rfl (by simp)
  | negInf => simp [ht] at h
  | nan => simp [ht] at h

-- The diagonal of a square consists of absolute values already.
private theorem value_total_squares (xs : List Float) :
    value (total (xs.map fun a ↦ a * a)) = value (absTotal (List.zipWith (· * ·) xs xs)) := by
  have main : ∀ s t : Float, value s = value t →
      value ((xs.map fun a ↦ a * a).foldl (· + ·) s) =
        value (((List.zipWith (· * ·) xs xs).map Scalar.abs).foldl (· + ·) t) := by
    induction xs with
    | nil => exact fun _ _ h ↦ h
    | cons a xs ih =>
      intro s t h
      refine ih _ _ ?_
      rw [value_add, value_add, h, value_scalar_abs, value_mul, ← rounded_abs,
        Extended.abs_mul_self]
  exact main zero zero rfl

/-! ### Products -/

-- The radius is at least its part on the noise symbols.
private theorem value_absTotal_le (h : x.isFinite = true) (he : NotNegative x.error)
    (hn : .finite 0 ≤ value (absTotal x.coeffs)) :
    value (absTotal x.coeffs) ≤ value (x.error + absTotal x.coeffs) := by
  have he' := (defined_of_isFinite h he).error
  have hsum := (Extended.ne_nan_of_le (Extended.add_nonneg hn he')).2
  rw [value_add, Extended.add_comm, ← value_add]
  exact le_value_add he' hsum

/-- The error term of a product of finite forms is not negative. -/
theorem notNegative_error_mul (hx : x.isFinite = true) (hy : y.isFinite = true)
    (hs : x.size = y.size) (hex : NotNegative x.error) (hey : NotNegative y.error) :
    NotNegative (x * y).error := by
  have hb := productBound_absTotal (isFinite_iff.mp hx).2.2 (isFinite_iff.mp hy).2.2 hs
  have hb' := hb.mono (value_absTotal_le hx hex hb.left_nonneg)
    (value_absTotal_le hy hey hb.right_nonneg)
  have hcenters : NotNegative (Scalar.abs y.center * x.error + Scalar.abs x.center * y.error) :=
    ((notNegative_abs _).mul hex).add ((notNegative_abs _).mul hey)
  refine hcenters.add_sub fun hn ↦ Extended.le_trans (half_mul_le hb.nonneg) (hb'.le ?_)
  rwa [value_mul, Ne, rounded_eq_nan] at hn

/-- The error term of the square of a finite form is not negative. -/
theorem notNegative_error_sqr (hx : x.isFinite = true) (he : NotNegative x.error) :
    NotNegative x.sqr.error := by
  have hb := productBound_absTotal (isFinite_iff.mp hx).2.2 (isFinite_iff.mp hx).2.2 rfl
  have hle := value_absTotal_le hx he hb.left_nonneg
  have hb' := hb.mono hle hle
  have hcenter : NotNegative (two * Scalar.abs x.center * x.error) :=
    ((notNegative_of_le (by rw [value_two]; exact zero_le_two (α := ℚ))).mul
      (notNegative_abs _)).mul he
  refine hcenter.sub_add ?_
  have hdiag := hb.nonneg
  rw [← value_total_squares] at hdiag
  rw [value_power_two, ← value_mul]
  refine Extended.le_trans (half_mul_le hdiag) ?_
  rw [value_total_squares]
  exact hb'.le (Extended.mul_self_ne_nan hb'.left_nonneg)

/-- The error term of a product with an interval is not negative. -/
theorem notNegative_error_mulInterval {r : Interval Float} (he : NotNegative x.error)
    (hr : r.IsProper) : NotNegative (x.mulInterval r).error :=
  (he.mul (Interval.notNegative_magnitude r)).add
    (hr.notNegative_radius.mul (notNegative_absSum x.entries))

end AffineArithmetic.Linear

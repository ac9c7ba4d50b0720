import AffineArithmetic.Proofs.Binary64.Arithmetic

/-!
# Binary64 scalars

What the constants and operations of the scalar interface do to values. Rounding is monotone and
fixes the values of the format, which is all that is needed to see that sums and products of numbers
that are not negative are not negative either, unless they are undefined.
-/

namespace AffineArithmetic.Binary64

open Scalar

/-! ### Constants -/

private theorem value_of_unpack {x : Float} {u : Float.Model.UnpackedFloat}
    (h : x.toModel.unpack = u) : value x = unpackedValue u := congrArg unpackedValue h

/-- The value of the scalar 0. -/
@[simp] theorem value_zero : value zero = .finite 0 :=
  value_of_unpack (u := .zero .positive) rfl

/-- The value of the scalar 1. -/
@[simp] theorem value_one : value one = .finite 1 := by
  rw [value_of_unpack (u := .finite .positive (2 ^ 52) (-52) (by norm_num)) rfl,
    unpackedValue_positive]
  norm_num

/-- The value of the scalar one half. -/
@[simp] theorem value_half : value half = .finite (1 / 2) := by
  rw [value_of_unpack (u := .finite .positive (2 ^ 52) (-53) (by norm_num)) rfl,
    unpackedValue_positive]
  norm_num

/-- The value of the scalar 2. -/
@[simp] theorem value_two : value two = .finite 2 := by
  rw [value_of_unpack (u := .finite .positive (2 ^ 52) (-51) (by norm_num)) rfl,
    unpackedValue_positive]
  norm_num

/-- The value of the scalar infinity. -/
@[simp] theorem value_infinity : value infinity = .posInf :=
  value_of_unpack (u := .infinity .positive) rfl

/-- The value of the undefined scalar. -/
@[simp] theorem value_nan : value nan = .nan :=
  value_of_unpack (u := .notANumber) rfl

/-- The value of the largest finite scalar. -/
@[simp] theorem value_maxFinite : value maxFinite = .finite largest := by
  rw [value_of_unpack (u := .finite .positive (2 ^ 53 - 1) 971 (by norm_num)) rfl,
    unpackedValue_positive, largest_eq]
  generalize (2 : ℚ) ^ (971 : ℤ) = p
  norm_num

/-- The largest finite number is on the grid. -/
theorem onGrid_largest : OnGrid largest := onGrid_of_value value_maxFinite

/-- The largest finite number is positive. -/
theorem largest_pos : 0 < largest := by
  rw [largest_eq]
  exact mul_pos (by norm_num) (zpow_pos two_pos _)

/-- The largest finite number is within the bound. -/
theorem largest_lt_bound : largest < bound :=
  lt_of_le_of_lt (le_abs_self _) (abs_lt_bound_of_value value_maxFinite)

/-- Half of the largest finite number is on the grid. -/
theorem onGrid_largest_div_two : OnGrid (largest / 2) := by
  refine ⟨2 ^ 53 - 1, 970, by norm_num, by norm_num, ?_⟩
  have h : (2 : ℚ) ^ (971 : ℤ) = 2 ^ (970 : ℤ) * 2 := zpow_add_one₀ two_ne_zero 970
  rw [largest_eq, h]
  generalize (2 : ℚ) ^ (970 : ℤ) = p
  push_cast
  ring

/-! ### Tests and absolute values -/

/-- The finite scalars are those with a rational value. -/
theorem scalar_isFinite_iff {x : Float} : Scalar.isFinite x = true ↔ ∃ q, value x = .finite q :=
  isFinite_iff

/-- Absolute values of scalars are exact. -/
@[simp] theorem value_scalar_abs (x : Float) : value (Scalar.abs x) = (value x).abs :=
  value_abs x

/-- The number 0 is finite. -/
theorem isFinite_zero : Scalar.isFinite (zero : Float) = true :=
  scalar_isFinite_iff.mpr ⟨0, value_zero⟩

/-! ### Comparison with constants -/

/-- The scalar infinity is the one with this value. -/
theorem beq_infinity_iff {x : Float} : (x == infinity) = true ↔ value x = .posInf := by
  rw [beq_iff, value_infinity]
  exact ⟨fun h ↦ h.1, fun h ↦ ⟨h, by simp [h]⟩⟩

/-- The scalar negative infinity is the one with this value. -/
theorem beq_neg_infinity_iff {x : Float} : (x == -infinity) = true ↔ value x = .negInf := by
  rw [beq_iff, value_neg, value_infinity]
  exact ⟨fun h ↦ h.1, fun h ↦ ⟨h, by simp [h]⟩⟩

/-- The scalar 0 is equal to the scalars with this value. -/
theorem beq_zero_iff {x : Float} : (x == zero) = true ↔ value x = .finite 0 := by
  rw [beq_iff, value_zero]
  exact ⟨fun h ↦ h.1, fun h ↦ ⟨h, by simp [h]⟩⟩

/-! ### Rounding -/

variable {a b : Extended ℚ}

/-- Rounding leaves the undefined number alone, and makes no other one undefined. -/
@[simp] theorem rounded_eq_nan : rounded a = .nan ↔ a = .nan := by
  cases a with
  | finite q =>
    simp only [rounded, toGrid, saturate]
    split
    · simp
    · split <;> simp
  | _ => simp [rounded, toGrid, saturate]

/-- Replacing numbers out of range keeps the order. -/
theorem saturate_mono (h : a ≤ b) : saturate a ≤ saturate b := by
  have hb := bound_pos
  cases a <;> cases b <;> simp at h <;> simp only [saturate] <;> try simp
  · split
    · simp
    · split <;> simp
  · next p q =>
    split
    · rw [if_pos (by linarith)]
      exact Extended.le_rfl (by simp)
    · next h1 =>
      split
      · refine Extended.negInf_le ?_
        split
        · simp
        · split <;> simp
      · next h2 =>
        split
        · simp
        · rw [if_neg (by linarith)]
          exact h
  · split
    · simp
    · split <;> simp

/-- A finite result is the nearest number of the grid. -/
theorem eq_nearest_of_rounded {q r : ℚ} (h : rounded (.finite q) = .finite r) : r = nearest q := by
  simp only [rounded, toGrid, saturate] at h
  split at h
  · contradiction
  · split at h
    · contradiction
    · exact (Extended.finite.inj h).symm

/-- Only rational numbers have a finite result. -/
theorem exists_of_rounded {r : ℚ} (h : rounded a = .finite r) : ∃ q, a = .finite q := by
  cases a with
  | finite q => exact ⟨q, rfl⟩
  | _ => contradiction

/-- The result is infinite from the bound of the finite numbers on. -/
theorem rounded_eq_posInf {q : ℚ} : rounded (.finite q) = .posInf ↔ bound ≤ nearest q := by
  simp only [rounded, toGrid, saturate]
  split
  · next h => simp [h]
  · next h =>
    split <;> simp [h]

/-- Rounding keeps the order. -/
theorem rounded_mono (h : a ≤ b) : rounded a ≤ rounded b := by
  refine saturate_mono ?_
  cases a <;> cases b <;> simp [toGrid] at h ⊢
  exact nearest_mono h

/-- Rounding is symmetric about 0. -/
@[simp] theorem rounded_neg (a : Extended ℚ) : rounded (-a) = -rounded a := by
  cases a with
  | finite q =>
    have hb := bound_pos
    simp only [rounded, toGrid, Extended.neg_finite, nearest_neg, saturate]
    split
    · rw [if_neg (by linarith), if_pos (by linarith)]
      rfl
    · split
      · rw [if_pos (by linarith)]
        rfl
      · rw [if_neg (by linarith), if_neg (by linarith)]
        rfl
  | _ => rfl

/-- Values of the format are not rounded. -/
@[simp] theorem rounded_value (x : Float) : rounded (value x) = value x := by
  rw [rounded, value, (canonical_unpack _).toGrid_eq]
  exact saturate_value x

/-- The number 0 is not rounded. -/
@[simp] theorem rounded_zero : rounded (.finite 0) = .finite 0 := by
  rw [← value_zero, rounded_value]

/-- Rounding the absolute value rounds the number. -/
theorem rounded_abs (a : Extended ℚ) : rounded a.abs = (rounded a).abs := by
  cases a with
  | finite q =>
    rcases le_total 0 q with h | h
    · have hr := rounded_mono (a := .finite 0) (b := .finite q) h
      rw [rounded_zero] at hr
      rw [Extended.abs_of_nonneg h, Extended.abs_of_nonneg hr]
    · have hr := rounded_mono (a := .finite q) (b := .finite 0) h
      rw [rounded_zero] at hr
      rw [Extended.abs_of_nonpos h, Extended.abs_of_nonpos hr, rounded_neg]
  | _ => rfl

/-- Numbers that are not negative are rounded to such numbers. -/
theorem rounded_nonneg (h : .finite 0 ≤ a) : .finite 0 ≤ rounded a := by
  have := rounded_mono h
  rwa [rounded_zero] at this

/-! ### Numbers that are not negative -/

variable {x y : Float}

/-- The number is undefined or at least 0. -/
def NotNegative (x : Float) : Prop := x.isNaN = true ∨ zero ≤ x

/-- Numbers are not negative as their values are. -/
theorem notNegative_iff : NotNegative x ↔ value x = .nan ∨ .finite 0 ≤ value x := by
  rw [NotNegative, isNaN_iff, le_iff, value_zero]

/-- Numbers from 0 on are not negative. -/
theorem notNegative_of_le (h : .finite 0 ≤ value x) : NotNegative x :=
  notNegative_iff.mpr (.inr h)

/-- The value of a number that is not negative and not undefined. -/
theorem NotNegative.le_value (h : NotNegative x) (hn : value x ≠ .nan) : .finite 0 ≤ value x :=
  (notNegative_iff.mp h).resolve_left hn

/-- The number 0 is not negative. -/
theorem notNegative_zero : NotNegative (zero : Float) :=
  notNegative_of_le (by rw [value_zero]; exact le_refl (0 : ℚ))

/-- Absolute values are not negative. -/
theorem notNegative_abs (x : Float) : NotNegative x.abs := by
  rw [notNegative_iff, value_abs]
  by_cases h : value x = .nan
  · exact .inl (by simp [h, Extended.abs])
  · exact .inr (Extended.abs_nonneg h)

/-- The absolute value of a finite number is at least 0. -/
theorem nonneg_value_abs (h : x.isFinite = true) : .finite 0 ≤ value x.abs := by
  obtain ⟨q, hq⟩ := isFinite_iff.mp h
  rw [value_abs, hq]
  exact abs_nonneg q

/-- The sum of numbers from 0 on is one. -/
theorem nonneg_value_add (hx : .finite 0 ≤ value x) (hy : .finite 0 ≤ value y) :
    .finite 0 ≤ value (x + y) := by
  rw [value_add]
  exact rounded_nonneg (Extended.add_nonneg hx hy)

/-- Adding a number from 0 on makes no number smaller, as far as the sum is defined. -/
theorem le_value_add (hy : .finite 0 ≤ value y) (hn : value x + value y ≠ .nan) :
    value x ≤ value (x + y) := by
  rw [value_add]
  nth_rewrite 1 [← rounded_value x]
  exact rounded_mono (Extended.le_add_of_nonneg hy hn)

/-- Subtracting a number from 0 on makes no number larger, as far as the difference is defined. -/
theorem value_sub_le (hy : .finite 0 ≤ value y) (hn : value x - value y ≠ .nan) :
    value (x - y) ≤ value x := by
  rw [value_sub]
  nth_rewrite 2 [← rounded_value x]
  exact rounded_mono (Extended.sub_le_of_nonneg hy hn)

/-- The product of finite numbers from 0 on is one, possibly an infinite one. -/
theorem nonneg_value_mul (hx : .finite 0 ≤ value x) (hy : .finite 0 ≤ value y)
    (hn : value x * value y ≠ .nan) : .finite 0 ≤ value (x * y) := by
  rw [value_mul]
  exact rounded_nonneg (Extended.mul_nonneg hx hy hn)

/-- Sums of numbers that are not negative are not negative. -/
theorem NotNegative.add (hx : NotNegative x) (hy : NotNegative y) : NotNegative (x + y) := by
  rw [notNegative_iff] at hx hy
  rcases hx with hx | hx
  · rw [notNegative_iff, value_add, hx, Extended.nan_add]
    exact .inl rfl
  · rcases hy with hy | hy
    · rw [notNegative_iff, value_add, hy, Extended.add_nan]
      exact .inl rfl
    · exact notNegative_of_le (nonneg_value_add hx hy)

/-- Products of numbers that are not negative are not negative. -/
theorem NotNegative.mul (hx : NotNegative x) (hy : NotNegative y) : NotNegative (x * y) := by
  rw [notNegative_iff] at hx hy
  by_cases hn : value x * value y = .nan
  · rw [notNegative_iff, value_mul, hn]
    exact .inl rfl
  · have hx' : value x ≠ .nan := fun h ↦ hn (by rw [h, Extended.nan_mul])
    have hy' : value y ≠ .nan := fun h ↦ hn (by rw [h, Extended.mul_nan])
    exact notNegative_of_le
      (nonneg_value_mul (hx.resolve_left hx') (hy.resolve_left hy') hn)

/-- A sum is not negative if one operand makes up for the other. -/
theorem notNegative_add_of_le {c : Extended ℚ} (h : -c ≤ value x) (h' : c ≤ value y) :
    NotNegative (x + y) := by
  rw [notNegative_iff, value_add, rounded_eq_nan]
  by_cases hn : value x + value y = .nan
  · exact .inl hn
  · exact .inr (rounded_nonneg (Extended.add_nonneg_of_neg_le h h' hn))

/-- A difference in order is not negative. -/
theorem notNegative_sub (h : value y ≤ value x) : NotNegative (x - y) := by
  rw [notNegative_iff, value_sub, rounded_eq_nan]
  by_cases hn : value x - value y = .nan
  · exact .inl hn
  · refine .inr (rounded_nonneg (Extended.add_nonneg_of_neg_le (c := -value y) ?_ ?_ hn))
    · rwa [Extended.neg_neg]
    · exact Extended.le_rfl (by rw [Ne, Extended.neg_eq_nan]; exact (Extended.ne_nan_of_le h).1)

/-- A sum is not negative after a part of one summand was taken away. -/
theorem NotNegative.add_sub {z : Float} (hx : NotNegative x)
    (h : value y ≠ .nan → value z ≤ value y) : NotNegative (x + y - z) := by
  by_cases hn : value x + value y = .nan
  · rw [notNegative_iff, value_sub, value_add, hn]
    exact .inl rfl
  · have hx' := hx.le_value fun h ↦ hn (by rw [h, Extended.nan_add])
    have hyn : value y ≠ .nan := fun h ↦ hn (by rw [h, Extended.add_nan])
    have hle : value y ≤ value (x + y) := by
      rw [value_add, Extended.add_comm, ← value_add]
      exact le_value_add hx' (by rwa [Extended.add_comm])
    exact notNegative_sub (Extended.le_trans (h hyn) hle)

/-- A difference is not negative after what was taken away is added again. -/
theorem NotNegative.sub_add {z : Float} (hx : NotNegative x) (h : value z ≤ value y) :
    NotNegative (x - z + y) := by
  by_cases hn : value x - value z = .nan
  · rw [notNegative_iff, value_add, value_sub, hn]
    exact .inl rfl
  · rw [Extended.sub_eq_add_neg] at hn
    have hx' := hx.le_value fun h ↦ hn (by rw [h, Extended.nan_add])
    rw [Extended.add_comm] at hn
    refine notNegative_add_of_le (c := value z) ?_ h
    calc -value z = rounded (-value z) := by rw [rounded_neg, rounded_value]
      _ ≤ rounded (-value z + value x) := rounded_mono (Extended.le_add_of_nonneg hx' hn)
      _ = value (x - z) := by rw [value_sub, Extended.sub_eq_add_neg, Extended.add_comm]

/-! ### Maxima and squares -/

/-- Maxima are exact. -/
@[simp] theorem value_max (x y : Float) :
    value (Scalar.max x y) = Scalar.max (value x) (value y) := by
  unfold Scalar.max
  simp only [le_iff, beq_iff, Extended.beq_self_iff, true_and]
  split
  · rfl
  · split <;> rfl

/-- Minima are exact. -/
@[simp] theorem value_min (x y : Float) :
    value (Scalar.min x y) = Scalar.min (value x) (value y) := by
  unfold Scalar.min
  simp only [le_iff, beq_iff, Extended.beq_self_iff, true_and]
  split
  · rfl
  · split <;> rfl

/-- A maximum of numbers that are not negative is not negative. -/
theorem NotNegative.max (hx : NotNegative x) (hy : NotNegative y) :
    NotNegative (Scalar.max x y) := by
  rcases Scalar.max_eq_or x y with h | h <;> rw [h]
  · exact hx
  · exact hy

/-- The second power is the rounded square. -/
theorem value_power_two (x : Float) : value (Scalar.power x 2) = rounded (value x * value x) := by
  have h : Scalar.power x 2 = one * (x * x) := by
    change power x 2 = _
    rw [power, if_pos (by decide), Scalar.mulSquares, Scalar.mulSquares]
    rfl
  rw [h, value_mul, value_one, Extended.one_mul, rounded_value, value_mul]

end AffineArithmetic.Binary64

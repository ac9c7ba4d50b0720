import AffineArithmetic.Proofs.Binary64.Value

/-!
# Rounded arithmetic on values

Sums, differences and products of binary64 numbers have the nearest number of the grid to the exact
result as value, or an infinity where that number is out of range. The model of the format drops
digits one by one and keeps two of them as a record; this agrees with rounding in one step.
-/

namespace AffineArithmetic.Binary64

open Float.Model (UnpackedFloat Format)
open Float.Model.UnpackedFloat (Sign ExtendedMantissa)

/-! ### Dropping digits -/

-- The digits that were dropped make up a fraction between the bounds that the two bits stand for.
private def Records (em : ExtendedMantissa) (q : ℚ) : Prop :=
  ∃ f : ℚ, q = em.mantissa + f ∧
    match em.roundBit, em.stickyBit with
    | false, false => f = 0
    | false, true => 0 < f ∧ f < 1 / 2
    | true, false => f = 1 / 2
    | true, true => 1 / 2 < f ∧ f < 1

private theorem records_shiftRightOne {em : ExtendedMantissa} {q : ℚ} (h : Records em q) :
    Records em.shiftRightOne (q / 2) := by
  obtain ⟨m, r, s⟩ := em
  obtain ⟨f, hq, hf⟩ := h
  have hm : (m : ℚ) = 2 * (m / 2 : ℕ) + (m % 2 : ℕ) := by exact_mod_cast (Nat.div_add_mod m 2).symm
  dsimp only at hq hf
  rcases Nat.mod_two_eq_zero_or_one m with h2 | h2
  · refine ⟨f / 2, ?_, ?_⟩
    · dsimp only [ExtendedMantissa.shiftRightOne]
      rw [hq, hm, h2]
      push_cast
      ring
    · simp only [ExtendedMantissa.shiftRightOne, h2]
      cases r <;> cases s <;> simp at hf ⊢ <;> first | exact hf | (constructor <;> linarith)
  · refine ⟨1 / 2 + f / 2, ?_, ?_⟩
    · dsimp only [ExtendedMantissa.shiftRightOne]
      rw [hq, hm, h2]
      push_cast
      ring
    · simp only [ExtendedMantissa.shiftRightOne, h2]
      cases r <;> cases s <;> simp at hf ⊢ <;> first | exact hf | (constructor <;> linarith)

private theorem records_shiftRight {em : ExtendedMantissa} {q : ℚ} (h : Records em q)
    (n : ℕ) : Records (em >>> n) (q / 2 ^ n) := by
  induction n with
  | zero => rwa [pow_zero, div_one]
  | succ n ih =>
    rw [pow_succ, ← div_div]
    exact records_shiftRightOne ih

private theorem roundEven_of_records {em : ExtendedMantissa} {q : ℚ} (h : Records em q) :
    roundEven q = em.roundedMantissa := by
  obtain ⟨m, r, s⟩ := em
  obtain ⟨f, rfl, hf⟩ := h
  rw [roundEven_eq_iff]
  cases r <;> cases s <;> dsimp only at hf
  · left
    change |(m : ℚ) + f - ((m : ℕ) : ℤ)| < 1 / 2
    rw [Int.cast_natCast, add_sub_cancel_left, hf]
    norm_num
  · left
    change |(m : ℚ) + f - ((m : ℕ) : ℤ)| < 1 / 2
    rw [Int.cast_natCast, add_sub_cancel_left, abs_of_pos hf.1]
    exact hf.2
  · right
    change |(m : ℚ) + f - ((m + m % 2 : ℕ) : ℤ)| = 1 / 2 ∧ ((m + m % 2 : ℕ) : ℤ) % 2 = 0
    refine ⟨?_, by omega⟩
    rw [Int.cast_natCast, Nat.cast_add, add_sub_add_left_eq_sub, hf]
    rcases Nat.mod_two_eq_zero_or_one m with h2 | h2 <;> rw [h2] <;> norm_num
  · left
    change |(m : ℚ) + f - ((m + 1 : ℕ) : ℤ)| < 1 / 2
    rw [Int.cast_natCast, Nat.cast_add, add_sub_add_left_eq_sub, Nat.cast_one, abs_lt]
    constructor <;> linarith

private theorem mantissa_shiftRight (em : ExtendedMantissa) (n : ℕ) :
    (em >>> n).mantissa = em.mantissa / 2 ^ n := by
  induction n with
  | zero => exact (Nat.div_one _).symm
  | succ n ih =>
    change (em >>> n).mantissa / 2 = _
    rw [ih, Nat.div_div_eq_div_mul, Nat.pow_succ]

private theorem mantissa_le_roundedMantissa (em : ExtendedMantissa) :
    em.mantissa ≤ em.roundedMantissa := by
  obtain ⟨m, r, s⟩ := em
  cases r <;> cases s
  · exact le_refl m
  · exact le_refl m
  · exact Nat.le_add_right m _
  · exact Nat.le_succ m

/-! ### Rounding to the format -/

private theorem targetExponent_eq (m : ℕ) (e : ℤ) :
    Format.binary64.targetExponent (Float.Model.totalExponent m e) =
      max (m.log2 + e - 52) (-1074) := by
  change max ((m.log2 + 1 + e : ℤ) - (1 + 52)) (3 - 1024 - (1 + 52)) = _
  congr 1
  omega

-- The format's last place is the one of the grid.
private theorem lastPlace_magnitude {m : ℕ} (hm : 0 < m) (e : ℤ) :
    lastPlace (m * 2 ^ e) = max (m.log2 + e - 52) (-1074) := by
  have hz : (0 : ℚ) < 2 ^ e := zpow_pos two_pos e
  have hp : (0 : ℚ) < m * 2 ^ e := mul_pos (by exact_mod_cast hm) hz
  have hl : (2 : ℚ) ^ m.log2 ≤ m := by exact_mod_cast Nat.log2_self_le hm.ne'
  have hu : (m : ℚ) < 2 ^ (m.log2 + 1) := by exact_mod_cast Nat.lt_log2_self
  have hlog : Int.log 2 ((m : ℚ) * 2 ^ e) = m.log2 + e := by
    apply le_antisymm
    · rw [← Int.lt_add_one_iff, ← Int.lt_zpow_iff_log_lt (by norm_num) hp]
      calc (m : ℚ) * 2 ^ e < 2 ^ (m.log2 + 1) * 2 ^ e := mul_lt_mul_of_pos_right hu hz
        _ = ((2 : ℕ) : ℚ) ^ ((m.log2 : ℤ) + e + 1) := by
          rw [← zpow_natCast, ← zpow_add₀ two_ne_zero]
          push_cast
          congr 1
          ring
    · rw [← Int.zpow_le_iff_le_log (by norm_num) hp]
      calc ((2 : ℕ) : ℚ) ^ ((m.log2 : ℤ) + e) = 2 ^ m.log2 * 2 ^ e := by
            rw [← zpow_natCast, ← zpow_add₀ two_ne_zero]
            push_cast
            rfl
        _ ≤ m * 2 ^ e := mul_le_mul_of_nonneg_right hl hz.le
  rw [lastPlace, abs_of_pos hp, hlog]

-- A significand that was rounded up to `2 ^ 53` moves into the next place.
private theorem carry {r : ℕ} {t : ℤ} (hr : r ≤ 2 ^ 53) (ht : -1074 ≤ t)
    (hn : 2 ^ 52 ≤ r ∨ t = -1074) :
    ∃ u f : ℕ, (max (r.log2 + t - 52) (-1074) - t).toNat = u ∧ r / 2 ^ u = f ∧ f < 2 ^ 53 ∧
      (2 ^ 52 ≤ f ∨ t + u = -1074) ∧ (f : ℚ) * 2 ^ (t + u) = r * 2 ^ t := by
  rcases hr.lt_or_eq with hlt | rfl
  · have hlog : r.log2 ≤ 52 := by
      by_cases h0 : r = 0
      · rw [h0]
        decide
      · have := (Nat.log2_lt h0).mpr hlt
        omega
    refine ⟨0, r, by omega, by omega, hlt, by omega, ?_⟩
    rw [Nat.cast_zero, add_zero]
  · refine ⟨1, 2 ^ 52, ?_, by norm_num, by norm_num, .inl le_rfl, ?_⟩
    · rw [Nat.log2_two_pow]
      omega
    · rw [zpow_add₀ two_ne_zero]
      norm_num
      ring

/-- Rounding to the format gives the nearest number of the grid, as long as digits are only
dropped. -/
theorem roundWithAccuracy_exact (s : Sign) {m : ℕ} (hm : 0 < m) {e : ℤ}
    (he : e ≤ max (m.log2 + e - 52) (-1074)) :
    Canonical (UnpackedFloat.roundWithAccuracy Format.binary64 s m e .exact) ∧
      unpackedValue (UnpackedFloat.roundWithAccuracy Format.binary64 s m e .exact) =
        .finite (nearest (s.apply m * 2 ^ e)) := by
  have hl := lastPlace_magnitude hm e
  generalize ht : max ((m.log2 : ℤ) + e - 52) (-1074) = t at he hl
  obtain ⟨k, rfl⟩ := Int.le.dest he
  have hk : (e + k - e).toNat = k := by omega
  generalize hem : ExtendedMantissa.ofMantissaAndAccuracy m .exact >>> k = em
  generalize hr : em.roundedMantissa = r
  have hround : roundEven (m / 2 ^ k) = r := by
    have h0 : Records (ExtendedMantissa.ofMantissaAndAccuracy m .exact) m :=
      ⟨0, (add_zero _).symm, rfl⟩
    rw [← hr, ← hem]
    exact roundEven_of_records (records_shiftRight h0 k)
  have hdiv : (m : ℚ) * 2 ^ e / 2 ^ (e + k) = m / 2 ^ k := by
    rw [zpow_add₀ two_ne_zero, zpow_natCast, mul_comm (2 ^ e : ℚ),
      mul_div_mul_right _ _ (zpow_pos two_pos e).ne']
  have hnear : nearest (m * 2 ^ e) = r * 2 ^ (e + k) := by
    rw [nearest, hl, hdiv, hround, Int.cast_natCast]
  have hr53 : r ≤ 2 ^ 53 := by
    have h := abs_roundEven_div_lastPlace_le (m * 2 ^ e)
    rw [hl, hdiv, hround, Nat.abs_cast] at h
    exact_mod_cast h
  have hr52 : 2 ^ 52 ≤ r ∨ e + k = -1074 := by
    by_cases h : e + k = -1074
    · exact .inr h
    · left
      have hk' : 52 + k = m.log2 := by omega
      have hle : 2 ^ 52 * 2 ^ k ≤ m := by
        rw [← pow_add, hk']
        exact Nat.log2_self_le hm.ne'
      have hm' : em.mantissa = m / 2 ^ k := by
        rw [← hem, mantissa_shiftRight]
        rfl
      calc 2 ^ 52 ≤ m / 2 ^ k := (Nat.le_div_iff_mul_le (by positivity)).mpr hle
        _ = em.mantissa := hm'.symm
        _ ≤ r := hr ▸ mantissa_le_roundedMantissa em
  obtain ⟨u, f, hu, hf, hlt, hn, hval⟩ := carry hr53 (by omega) hr52
  have hfinal : (ExtendedMantissa.ofMantissaAndAccuracy r .exact >>> u).mantissa = f :=
    (mantissa_shiftRight _ u).trans hf
  unfold UnpackedFloat.roundWithAccuracy UnpackedFloat.shiftToTargetExponent
    UnpackedFloat.shiftToExponent
  simp only [targetExponent_eq, ht, hk, hem, hr, hu, hfinal]
  have hsign : nearest (s.apply m * 2 ^ e) = ((s.apply f : ℤ) : ℚ) * 2 ^ (e + k + u) := by
    cases s with
    | positive => simp [Sign.apply, hval, hnear]
    | negative => simp [Sign.apply, hval, hnear]
  by_cases hz : f = 0
  · rw [dif_pos hz, hsign, hz]
    refine ⟨trivial, congrArg Extended.finite ?_⟩
    cases s <;> simp [Sign.apply]
  · rw [dif_neg hz, hsign]
    exact ⟨⟨hlt, by omega, hn⟩, rfl⟩

private theorem log2_mul_two_pow {m : ℕ} (hm : 0 < m) (n : ℕ) :
    (m * 2 ^ n).log2 = m.log2 + n := by
  have hp : m * 2 ^ n ≠ 0 := by positivity
  rw [Nat.log2_eq_iff hp]
  have hl := Nat.log2_self_le hm.ne'
  have hu : m < 2 ^ (m.log2 + 1) := Nat.lt_log2_self
  constructor
  · rw [pow_add]
    exact Nat.mul_le_mul_right _ hl
  · rw [show m.log2 + n + 1 = m.log2 + 1 + n by omega, pow_add]
    exact Nat.mul_lt_mul_of_pos_right hu (by positivity)

private theorem decreaseExponent_eq (m : ℕ) (e t : ℤ) :
    UnpackedFloat.decreaseExponent m e t = (m * 2 ^ (e - t).toNat, e - (e - t).toNat) :=
  Prod.ext (Nat.shiftLeft_eq _ _) rfl

-- Digits that a lower exponent makes room for are zero.
private theorem decreaseExponent_value (m : ℕ) (e t : ℤ) :
    ((UnpackedFloat.decreaseExponent m e t).1 : ℚ) * 2 ^ (UnpackedFloat.decreaseExponent m e t).2 =
      m * 2 ^ e := by
  rw [decreaseExponent_eq]
  push_cast
  rw [mul_assoc, ← zpow_natCast, ← zpow_add₀ two_ne_zero]
  congr 2
  omega

/-- Rounding to the format gives the nearest number of the grid. -/
theorem round_spec (s : Sign) {m : ℕ} (hm : 0 < m) (e : ℤ) :
    Canonical (UnpackedFloat.round Format.binary64 s m e) ∧
      unpackedValue (UnpackedFloat.round Format.binary64 s m e) =
        .finite (nearest (s.apply m * 2 ^ e)) := by
  unfold UnpackedFloat.round
  rw [targetExponent_eq]
  have hv := decreaseExponent_value m e (max (m.log2 + e - 52) (-1074))
  have hm' : 0 < (UnpackedFloat.decreaseExponent m e (max (m.log2 + e - 52) (-1074))).1 := by
    rw [decreaseExponent_eq]
    positivity
  have he : (UnpackedFloat.decreaseExponent m e (max (m.log2 + e - 52) (-1074))).2 ≤
      max ((UnpackedFloat.decreaseExponent m e (max (m.log2 + e - 52) (-1074))).1.log2 +
        (UnpackedFloat.decreaseExponent m e (max (m.log2 + e - 52) (-1074))).2 - 52) (-1074) := by
    rw [decreaseExponent_eq, log2_mul_two_pow hm]
    dsimp only
    omega
  obtain ⟨hc, hval⟩ := roundWithAccuracy_exact s hm' he
  refine ⟨hc, hval.trans (congrArg Extended.finite (congrArg nearest ?_))⟩
  cases s with
  | positive => exact hv
  | negative => simpa [Sign.apply] using hv

/-- Rounding a signed significand to the format gives the nearest number of the grid. -/
theorem normalize_spec (m e : ℤ) (s : Sign) :
    Canonical (UnpackedFloat.normalize Format.binary64 m e s) ∧
      unpackedValue (UnpackedFloat.normalize Format.binary64 m e s) =
        .finite (nearest (m * 2 ^ e)) := by
  unfold UnpackedFloat.normalize
  rcases lt_trichotomy m 0 with h | rfl | h
  · rw [compare_lt_iff_lt.mpr h]
    have hs := round_spec .negative (m := (-m).toNat) (by omega) e
    have hm : Sign.negative.apply (-m).toNat = m := by
      change -((-m).toNat : ℤ) = m
      omega
    rwa [hm] at hs
  · rw [compare_eq_iff_eq.mpr rfl, Int.cast_zero, zero_mul, nearest_zero]
    exact ⟨trivial, rfl⟩
  · rw [compare_gt_iff_gt.mpr h]
    have hs := round_spec .positive (m := m.toNat) (by omega) e
    have hm : Sign.positive.apply m.toNat = m := by
      change (m.toNat : ℤ) = m
      omega
    rwa [hm] at hs

/-! ### Operations -/

/-- The nearest number of the grid in place of a rational number. -/
def toGrid : Extended ℚ → Extended ℚ
  | .finite q => .finite (nearest q)
  | a => a

/-- The nearest number of the format, which is an infinity out of its range. -/
def rounded (a : Extended ℚ) : Extended ℚ := saturate (toGrid a)

/-- Canonical numbers are on the grid. -/
theorem Canonical.toGrid_eq {u : UnpackedFloat} (h : Canonical u) :
    toGrid (unpackedValue u) = unpackedValue u := by
  cases hv : unpackedValue u with
  | finite q => exact congrArg Extended.finite (nearest_of_onGrid (h.onGrid hv))
  | _ => rfl

-- A signed significand keeps its value under a lower exponent.
private theorem apply_decreaseExponent (s : Sign) (m : ℕ) {e t : ℤ} (h : t ≤ e) :
    ((s.apply (UnpackedFloat.decreaseExponent m e t).1 : ℤ) : ℚ) * 2 ^ t =
      (s.apply m : ℤ) * 2 ^ e := by
  have hv := decreaseExponent_value m e t
  have ht : (UnpackedFloat.decreaseExponent m e t).2 = t := by
    rw [decreaseExponent_eq]
    dsimp only
    omega
  rw [ht] at hv
  cases s with
  | positive => exact hv
  | negative => simpa [Sign.apply] using hv

private theorem add_spec {a b : UnpackedFloat} (ha : Canonical a) (hb : Canonical b) :
    Canonical (UnpackedFloat.add Format.binary64 a b) ∧
      unpackedValue (UnpackedFloat.add Format.binary64 a b) =
        toGrid (unpackedValue a + unpackedValue b) := by
  cases a with
  | notANumber => exact ⟨trivial, by rw [unpackedValue, Extended.nan_add]; rfl⟩
  | infinity s =>
    cases b with
    | notANumber => exact ⟨trivial, by cases s <;> rfl⟩
    | infinity t => cases s <;> cases t <;> exact ⟨trivial, rfl⟩
    | zero t => cases s <;> exact ⟨trivial, rfl⟩
    | finite t n f hn => cases s <;> exact ⟨trivial, rfl⟩
  | zero s =>
    cases b with
    | notANumber => exact ⟨trivial, rfl⟩
    | infinity t => cases t <;> exact ⟨trivial, rfl⟩
    | zero t =>
      have h0 : toGrid (.finite 0 + .finite 0) = .finite 0 := by
        rw [Extended.finite_add_finite, add_zero, toGrid, nearest_zero]
      cases s <;> cases t <;> exact ⟨trivial, h0.symm⟩
    | finite t n f hn =>
      refine ⟨hb, hb.toGrid_eq.symm.trans (congrArg toGrid ?_)⟩
      exact (congrArg Extended.finite (zero_add _)).symm
  | finite s m e hm =>
    cases b with
    | notANumber => exact ⟨trivial, rfl⟩
    | infinity t => cases t <;> exact ⟨trivial, rfl⟩
    | zero t =>
      refine ⟨ha, ha.toGrid_eq.symm.trans (congrArg toGrid ?_)⟩
      exact (congrArg Extended.finite (add_zero _)).symm
    | finite t n f hn =>
      have h := normalize_spec (s.apply (UnpackedFloat.decreaseExponent m e (min e f)).1 +
        t.apply (UnpackedFloat.decreaseExponent n f (min e f)).1) (min e f) .positive
      rw [Int.cast_add, add_mul, apply_decreaseExponent s m (min_le_left e f),
        apply_decreaseExponent t n (min_le_right e f)] at h
      exact h

private theorem apply_neg (s : Sign) (n : ℤ) : (-s).apply n = -s.apply n := by
  cases s with
  | positive => rfl
  | negative => exact (neg_neg n).symm

private theorem apply_mul (s t : Sign) (m n : ℤ) :
    (s * t).apply (m * n) = s.apply m * t.apply n := by
  cases s <;> cases t
  · exact (neg_mul_neg m n).symm
  · exact (neg_mul m n).symm
  · exact (mul_neg m n).symm
  · rfl

private theorem sub_eq_add_neg' (a b : UnpackedFloat) :
    UnpackedFloat.sub Format.binary64 a b = UnpackedFloat.add Format.binary64 a b.neg := by
  cases a with
  | notANumber => rfl
  | infinity s => cases b <;> rfl
  | zero s => cases b <;> rfl
  | finite s m e hm =>
    cases b with
    | finite t n f hn =>
      refine congrArg (UnpackedFloat.normalize Format.binary64 · _ _) ?_
      exact (Int.sub_eq_add_neg).trans (congrArg _ (apply_neg t _).symm)
    | _ => rfl

private theorem infinity_mul (s t : Sign) (m : ℕ) (e : ℤ) (h : 0 < m) :
    unpackedValue (.infinity s) * unpackedValue (.finite t m e h) =
      unpackedValue (.infinity (s * t)) := by
  have hp := magnitude_pos h e
  have hpos : Extended.infinityTimes ((m : ℚ) * 2 ^ e) = .posInf := Extended.infinityTimes_of_pos hp
  have hneg : Extended.infinityTimes (-((m : ℚ) * 2 ^ e)) = .negInf :=
    Extended.infinityTimes_of_neg (neg_neg_of_pos hp)
  cases t with
  | positive =>
    rw [unpackedValue_positive]
    cases s with
    | positive => exact hpos
    | negative => exact hneg
  | negative =>
    rw [unpackedValue_negative]
    cases s with
    | positive => exact hneg
    | negative => exact (congrArg _ (neg_neg _)).trans hpos

-- The product of two significands has no room for a lower exponent.
private theorem exponent_mul_le {m n : ℕ} {e f : ℤ} (hm : 0 < m) (hn : 0 < n)
    (ha : m < 2 ^ 53 ∧ -1074 ≤ e ∧ (2 ^ 52 ≤ m ∨ e = -1074))
    (hb : n < 2 ^ 53 ∧ -1074 ≤ f ∧ (2 ^ 52 ≤ n ∨ f = -1074)) :
    e + f ≤ max ((m * n).log2 + (e + f) - 52) (-1074) := by
  by_cases h : 2 ^ 52 ≤ m * n
  · have := (Nat.le_log2 (by positivity)).mpr h
    omega
  · have hm' : e = -1074 := ha.2.2.resolve_left fun h' ↦ h (by nlinarith)
    have hn' : f = -1074 := hb.2.2.resolve_left fun h' ↦ h (by nlinarith)
    omega

private theorem mul_spec {a b : UnpackedFloat} (ha : Canonical a) (hb : Canonical b) :
    Canonical (UnpackedFloat.mul Format.binary64 a b) ∧
      unpackedValue (UnpackedFloat.mul Format.binary64 a b) =
        toGrid (unpackedValue a * unpackedValue b) := by
  have h0 : toGrid (.finite 0) = .finite 0 := congrArg Extended.finite nearest_zero
  cases a with
  | notANumber => exact ⟨trivial, by rw [unpackedValue, Extended.nan_mul]; rfl⟩
  | infinity s =>
    cases b with
    | notANumber => exact ⟨trivial, by cases s <;> rfl⟩
    | infinity t => cases s <;> cases t <;> exact ⟨trivial, rfl⟩
    | zero t => cases s <;> exact ⟨trivial, by simp [unpackedValue, UnpackedFloat.mul, toGrid]⟩
    | finite t n f hn =>
      refine ⟨trivial, ?_⟩
      rw [infinity_mul]
      cases s <;> cases t <;> rfl
  | zero s =>
    cases b with
    | notANumber => exact ⟨trivial, rfl⟩
    | infinity t => cases t <;> exact ⟨trivial, by simp [unpackedValue, UnpackedFloat.mul, toGrid]⟩
    | zero t => exact ⟨trivial, by simp [unpackedValue, UnpackedFloat.mul, h0]⟩
    | finite t n f hn => exact ⟨trivial, by simp [unpackedValue, UnpackedFloat.mul, h0]⟩
  | finite s m e hm =>
    cases b with
    | notANumber => exact ⟨trivial, rfl⟩
    | infinity t =>
      refine ⟨trivial, ?_⟩
      rw [Extended.mul_comm, infinity_mul]
      cases s <;> cases t <;> rfl
    | zero t => exact ⟨trivial, by simp [unpackedValue, UnpackedFloat.mul, h0]⟩
    | finite t n f hn =>
      have h := roundWithAccuracy_exact (s * t) (Nat.mul_pos hm hn) (exponent_mul_le hm hn ha hb)
      have hv : (((s * t).apply (m * n : ℕ) : ℤ) : ℚ) * 2 ^ (e + f) =
          (s.apply m : ℤ) * 2 ^ e * ((t.apply n : ℤ) * 2 ^ f) := by
        rw [zpow_add₀ two_ne_zero, Nat.cast_mul, apply_mul]
        push_cast
        ring
      rw [hv] at h
      exact h

/-- The value of a sum is the rounded sum of the values. -/
theorem value_add (x y : Float) : value (x + y) = rounded (value x + value y) := by
  have h := add_spec (canonical_unpack x.toModel) (canonical_unpack y.toModel)
  change value (.ofModel (.pack (UnpackedFloat.add _ x.toModel.unpack y.toModel.unpack))) = _
  rw [value_ofModel_pack h.1, h.2]
  rfl

/-- The value of a difference is the rounded difference of the values. -/
theorem value_sub (x y : Float) : value (x - y) = rounded (value x - value y) := by
  have h := add_spec (canonical_unpack x.toModel) (canonical_unpack y.toModel).neg
  change value (.ofModel (.pack (UnpackedFloat.sub _ x.toModel.unpack y.toModel.unpack))) = _
  rw [sub_eq_add_neg', value_ofModel_pack h.1, h.2, unpackedValue_neg]
  rfl

/-- The value of a product is the rounded product of the values. -/
theorem value_mul (x y : Float) : value (x * y) = rounded (value x * value y) := by
  have h := mul_spec (canonical_unpack x.toModel) (canonical_unpack y.toModel)
  change value (.ofModel (.pack (UnpackedFloat.mul _ x.toModel.unpack y.toModel.unpack))) = _
  rw [value_ofModel_pack h.1, h.2]
  rfl

end AffineArithmetic.Binary64

import Mathlib.Data.Int.Log
import Mathlib.Data.Rat.Floor
import Mathlib.Tactic.Linarith
import Mathlib.Tactic.LinearCombination
import Mathlib.Tactic.Positivity

/-!
# Rounding to the binary64 grid

The rational numbers with 53 binary digits above the last place `2 ^ (-1074)`, and the nearest of
them to a rational number. The exponent has no upper end here, so that overflow stays apart from
rounding. Rounding is monotone and fixes the grid, and its error is at most a relative `2 ^ (-53)`
or half a last place.
-/

namespace AffineArithmetic.Binary64

/-! ### The nearest integer -/

/-- The nearest integer, and the even one of two equally near. -/
def roundEven (q : ℚ) : ℤ :=
  if Int.fract q < 1 / 2 then ⌊q⌋
  else if 1 / 2 < Int.fract q then ⌊q⌋ + 1
  else ⌊q⌋ + ⌊q⌋ % 2

private theorem abs_sub_roundEven (q : ℚ) :
    |q - roundEven q| < 1 / 2 ∨ |q - roundEven q| = 1 / 2 ∧ roundEven q % 2 = 0 := by
  have hq := Int.floor_add_fract q
  have h0 := Int.fract_nonneg q
  have h1 := Int.fract_lt_one q
  unfold roundEven
  split
  · next h =>
    left
    rw [abs_lt]
    constructor <;> linarith
  · next h =>
    split
    · next h' =>
      left
      push_cast
      rw [abs_lt]
      constructor <;> linarith
    · next h' =>
      have hf : Int.fract q = 1 / 2 := le_antisymm (not_lt.mp h') (not_lt.mp h)
      right
      rcases Int.emod_two_eq_zero_or_one ⌊q⌋ with hm | hm <;> rw [hm]
      · constructor
        · rw [abs_of_nonneg (by push_cast; linarith)]
          push_cast
          linarith
        · omega
      · constructor
        · rw [abs_of_nonpos (by push_cast; linarith)]
          push_cast
          linarith
        · omega

/-- The rounded integer is the only one within one half, or the even one at exactly one half. -/
theorem roundEven_eq_iff {q : ℚ} {n : ℤ} :
    roundEven q = n ↔ |q - n| < 1 / 2 ∨ |q - n| = 1 / 2 ∧ n % 2 = 0 := by
  constructor
  · rintro rfl
    exact abs_sub_roundEven q
  · intro h
    have hr := abs_sub_roundEven q
    have hle : |q - roundEven q| ≤ 1 / 2 := by
      rcases hr with hr | hr
      · exact hr.le
      · exact hr.1.le
    have hle' : |q - n| ≤ 1 / 2 := by
      rcases h with h | h
      · exact h.le
      · exact h.1.le
    rw [abs_le] at hle hle'
    have hu : ((roundEven q - n : ℤ) : ℚ) ≤ 1 := by push_cast; linarith
    have hl : (-1 : ℚ) ≤ ((roundEven q - n : ℤ) : ℚ) := by push_cast; linarith
    have hu' : roundEven q - n ≤ 1 := by exact_mod_cast hu
    have hl' : -1 ≤ roundEven q - n := by exact_mod_cast hl
    by_contra hne
    -- neighbours at distance 1 are both at distance 1 / 2, and one of them is odd
    have hcase : roundEven q = n + 1 ∨ roundEven q = n - 1 := by omega
    have hstrict : ¬ |q - n| < 1 / 2 ∧ ¬ |q - roundEven q| < 1 / 2 := by
      rcases hcase with hc | hc <;> rw [hc] at hle ⊢ <;> push_cast at hle ⊢ <;>
        constructor <;> rw [abs_lt] <;> intro hlt <;> linarith
    have he := (h.resolve_left hstrict.1).2
    have he' := (hr.resolve_left hstrict.2).2
    omega

/-- Integers are rounded to themselves. -/
@[simp] theorem roundEven_intCast (n : ℤ) : roundEven n = n :=
  roundEven_eq_iff.mpr (.inl (by simp))

/-- Rounding is symmetric about zero. -/
@[simp] theorem roundEven_neg (q : ℚ) : roundEven (-q) = -roundEven q := by
  have h := abs_sub_roundEven q
  rw [roundEven_eq_iff]
  have hd : |-q - ((-roundEven q : ℤ) : ℚ)| = |q - roundEven q| := by
    rw [← abs_neg]
    congr 1
    push_cast
    ring
  rw [hd]
  exact h.imp_right fun ⟨ha, he⟩ ↦ ⟨ha, by omega⟩

/-- No integer is nearer than the rounded one. -/
theorem abs_roundEven_sub_le (q : ℚ) (n : ℤ) : |roundEven q - q| ≤ |n - q| := by
  have h : |roundEven q - q| ≤ 1 / 2 := by
    rw [abs_sub_comm]
    rcases abs_sub_roundEven q with h | h
    · exact h.le
    · exact h.1.le
  by_cases hn : n = roundEven q
  · rw [hn]
  · by_contra hlt
    rw [not_le] at hlt
    have hd : |((n - roundEven q : ℤ) : ℚ)| < 1 := by
      calc |((n - roundEven q : ℤ) : ℚ)| = |(n - q) - (roundEven q - q)| := by
            congr 1
            push_cast
            ring
        _ ≤ |n - q| + |roundEven q - q| := abs_sub _ _
        _ < 1 := by linarith
    have hz : |n - roundEven q| < 1 := by exact_mod_cast hd
    have := Int.abs_lt_one_iff.mp hz
    omega

/-- Rounding to an integer moves by one half at most. -/
theorem abs_roundEven_sub_le_half (q : ℚ) : |roundEven q - q| ≤ 1 / 2 := by
  rw [abs_sub_comm]
  rcases abs_sub_roundEven q with h | h
  · exact h.le
  · exact h.1.le

/-! ### The grid -/

/-- The exponent of the last of 53 binary digits, or that of the last place of all. -/
def lastPlace (q : ℚ) : ℤ := max (Int.log 2 |q| - 52) (-1074)

/-- The nearest number of the grid, and the one with even significand of two equally near. -/
def nearest (q : ℚ) : ℚ := roundEven (q / 2 ^ lastPlace q) * 2 ^ lastPlace q

/-- The number has 53 binary digits at most, none of them below the last place of all. -/
def OnGrid (q : ℚ) : Prop := ∃ m e : ℤ, |m| < 2 ^ 53 ∧ -1074 ≤ e ∧ q = m * 2 ^ e

private theorem two_zpow_pos (e : ℤ) : (0 : ℚ) < 2 ^ e := zpow_pos two_pos e

private theorem two_zpow_add_natCast (e : ℤ) (n : ℕ) : (2 : ℚ) ^ (e + n) = 2 ^ n * 2 ^ e := by
  rw [zpow_add₀ two_ne_zero, zpow_natCast, mul_comm]

/-- The double of a number of the grid is on the grid. -/
theorem OnGrid.add_self {q : ℚ} (h : OnGrid q) : OnGrid (q + q) := by
  obtain ⟨m, e, hm, he, rfl⟩ := h
  refine ⟨m, e + 1, hm, by omega, ?_⟩
  rw [zpow_add_one₀ two_ne_zero]
  ring

/-- The half of a number of the grid is on the grid unless the number is small: its last place is
above the last of all. -/
theorem OnGrid.div_two {q : ℚ} (h : OnGrid q) (hq : 1 ≤ |q|) : OnGrid (q / 2) := by
  obtain ⟨m, e, hm, he, rfl⟩ := h
  have he' : -1074 < e := by
    by_contra hle
    have hp : (2 : ℚ) ^ e ≤ 2 ^ (-53 : ℤ) := zpow_le_zpow_right₀ one_le_two (by omega)
    have hm' : |(m : ℚ)| < 2 ^ 53 := by exact_mod_cast hm
    have hlt : |(m : ℚ) * 2 ^ e| < 1 := by
      rw [abs_mul, abs_of_pos (two_zpow_pos e)]
      calc |(m : ℚ)| * 2 ^ e ≤ |(m : ℚ)| * 2 ^ (-53 : ℤ) :=
            mul_le_mul_of_nonneg_left hp (abs_nonneg _)
        _ < 2 ^ 53 * 2 ^ (-53 : ℤ) := mul_lt_mul_of_pos_right hm' (two_zpow_pos _)
        _ = 1 := by norm_num
    exact absurd hq (not_le.mpr hlt)
  refine ⟨m, e - 1, hm, by omega, ?_⟩
  rw [zpow_sub_one₀ two_ne_zero]
  ring

/-- A number has fewer than 53 digits above its last place. -/
theorem abs_lt_lastPlace (q : ℚ) : |q| < 2 ^ 53 * 2 ^ lastPlace q := by
  have h : |q| < 2 ^ (Int.log 2 |q| + 1) := by
    exact_mod_cast Int.lt_zpow_succ_log_self (b := 2) Nat.one_lt_two |q|
  have he : Int.log 2 |q| + 1 ≤ lastPlace q + (53 : ℕ) := by
    unfold lastPlace
    omega
  calc |q| < 2 ^ (Int.log 2 |q| + 1) := h
    _ ≤ 2 ^ (lastPlace q + (53 : ℕ)) := zpow_le_zpow_right₀ one_le_two he
    _ = 2 ^ 53 * 2 ^ lastPlace q := two_zpow_add_natCast _ _

/-- Above the last place of all, a number has no fewer than 53 digits. -/
theorem le_abs_of_lastPlace {q : ℚ} (hq : q ≠ 0) (h : -1074 < lastPlace q) :
    2 ^ 52 * 2 ^ lastPlace q ≤ |q| := by
  have he : lastPlace q + (52 : ℕ) = Int.log 2 |q| := by
    unfold lastPlace at h ⊢
    omega
  rw [← two_zpow_add_natCast, he]
  exact_mod_cast Int.zpow_log_le_self (b := 2) Nat.one_lt_two (abs_pos.mpr hq)

/-- Zero is rounded to itself. -/
@[simp] theorem nearest_zero : nearest 0 = 0 := by
  have h : roundEven 0 = 0 := by exact_mod_cast roundEven_intCast 0
  rw [nearest, zero_div, h, Int.cast_zero, zero_mul]

/-- Rounding is symmetric about zero. -/
@[simp] theorem nearest_neg (q : ℚ) : nearest (-q) = -nearest q := by
  have h : lastPlace (-q) = lastPlace q := by rw [lastPlace, lastPlace, abs_neg]
  rw [nearest, nearest, h, neg_div, roundEven_neg]
  push_cast
  ring

-- Every distance to a multiple of the last place is one to an integer, scaled.
private theorem abs_mul_lastPlace_sub (q r : ℚ) :
    |r * 2 ^ lastPlace q - q| = |r - q / 2 ^ lastPlace q| * 2 ^ lastPlace q := by
  have hp := two_zpow_pos (lastPlace q)
  have hq : r * 2 ^ lastPlace q - q = (r - q / 2 ^ lastPlace q) * 2 ^ lastPlace q := by
    rw [sub_mul, div_mul_cancel₀ q hp.ne']
  rw [hq, abs_mul, abs_of_pos hp]

private theorem abs_nearest_sub_le_mul (q : ℚ) (n : ℤ) :
    |nearest q - q| ≤ |n * 2 ^ lastPlace q - q| := by
  rw [nearest, abs_mul_lastPlace_sub, abs_mul_lastPlace_sub]
  exact mul_le_mul_of_nonneg_right (abs_roundEven_sub_le _ n) (two_zpow_pos _).le

-- A multiple of a higher place is one of a lower place.
private theorem exists_mul_two_zpow {e f : ℤ} (h : f ≤ e) (m : ℤ) :
    ∃ n : ℤ, (m : ℚ) * 2 ^ e = n * 2 ^ f := by
  obtain ⟨k, rfl⟩ := Int.le.dest h
  refine ⟨m * 2 ^ k, ?_⟩
  rw [two_zpow_add_natCast]
  push_cast
  ring

/-- No number of the grid is nearer than the rounded one. -/
theorem abs_nearest_sub_le {q w : ℚ} (hw : OnGrid w) : |nearest q - q| ≤ |w - q| := by
  by_cases hq : q = 0
  · rw [hq, nearest_zero, sub_zero, abs_zero]
    exact abs_nonneg _
  obtain ⟨m, e, hm, he, rfl⟩ := hw
  by_cases hl : lastPlace q ≤ e
  · obtain ⟨n, hn⟩ := exists_mul_two_zpow hl m
    rw [hn]
    exact abs_nearest_sub_le_mul q n
  · -- the power of two below `q` is a multiple of the last place and at least as near
    rw [not_le] at hl
    have hb := le_abs_of_lastPlace hq (lt_of_le_of_lt he hl)
    have hw : |(m : ℚ) * 2 ^ e| ≤ 2 ^ 52 * 2 ^ lastPlace q := by
      have hm' : (|m| : ℚ) ≤ 2 ^ 53 := by exact_mod_cast hm.le
      have he' : (2 : ℚ) ^ (e + (1 : ℕ)) ≤ 2 ^ lastPlace q :=
        zpow_le_zpow_right₀ one_le_two (by omega)
      rw [two_zpow_add_natCast] at he'
      rw [abs_mul, abs_of_pos (two_zpow_pos e)]
      calc |(m : ℚ)| * 2 ^ e ≤ 2 ^ 53 * 2 ^ e :=
            mul_le_mul_of_nonneg_right (by exact_mod_cast hm') (two_zpow_pos e).le
        _ ≤ 2 ^ 52 * 2 ^ lastPlace q := by linarith
    rw [abs_le] at hw
    obtain ⟨n, hn⟩ : ∃ n : ℤ, (n : ℚ) = 2 ^ 52 := ⟨2 ^ 52, by norm_num⟩
    rcases le_or_gt 0 q with h0 | h0
    · rw [abs_of_nonneg h0] at hb
      have h := abs_nearest_sub_le_mul q n
      rw [hn, abs_of_nonpos (sub_nonpos.mpr hb)] at h
      rw [abs_of_nonpos (sub_nonpos.mpr (hw.2.trans hb))]
      linarith
    · rw [abs_of_neg h0] at hb
      have h := abs_nearest_sub_le_mul q (-n)
      have hb' := le_neg.mp hb
      rw [Int.cast_neg, hn, neg_mul, abs_of_nonneg (sub_nonneg.mpr hb')] at h
      rw [abs_of_nonneg (sub_nonneg.mpr (hb'.trans hw.1))]
      linarith

/-- Numbers of the grid are rounded to themselves. -/
theorem nearest_of_onGrid {q : ℚ} (h : OnGrid q) : nearest q = q := by
  have h := abs_nearest_sub_le (q := q) h
  rw [sub_self, abs_zero] at h
  exact sub_eq_zero.mp (abs_nonpos_iff.mp h)

/-- The rounded significand has 53 digits at most, or is the first number with 54 of them. -/
theorem abs_roundEven_div_lastPlace_le (q : ℚ) : |roundEven (q / 2 ^ lastPlace q)| ≤ 2 ^ 53 := by
  have hp := two_zpow_pos (lastPlace q)
  have hh := abs_roundEven_sub_le_half (q / 2 ^ lastPlace q)
  have hq : |q / 2 ^ lastPlace q| < 2 ^ 53 := by
    rw [abs_div, abs_of_pos hp, div_lt_iff₀ hp]
    exact abs_lt_lastPlace q
  rw [abs_le] at hh
  rw [abs_lt] at hq
  have hlt : |(roundEven (q / 2 ^ lastPlace q) : ℚ)| < 2 ^ 53 + 1 := by
    rw [abs_lt]
    constructor <;> linarith
  have hz : |roundEven (q / 2 ^ lastPlace q)| < 2 ^ 53 + 1 := by exact_mod_cast hlt
  omega

/-- The rounded number is on the grid. -/
theorem onGrid_nearest (q : ℚ) : OnGrid (nearest q) := by
  rcases (abs_roundEven_div_lastPlace_le q).lt_or_eq with hlt | heq
  · exact ⟨_, _, hlt, le_max_right _ _, rfl⟩
  · -- the significand carries into the next place
    rcases (abs_eq (by norm_num)).mp heq with hr | hr
    · refine ⟨2 ^ 52, lastPlace q + (1 : ℕ), by norm_num, ?_, ?_⟩
      · have : -1074 ≤ lastPlace q := le_max_right _ _
        omega
      · rw [nearest, hr, two_zpow_add_natCast]
        push_cast
        ring
    · refine ⟨-2 ^ 52, lastPlace q + (1 : ℕ), by norm_num, ?_, ?_⟩
      · have : -1074 ≤ lastPlace q := le_max_right _ _
        omega
      · rw [nearest, hr, two_zpow_add_natCast]
        push_cast
        ring

/-- Rounding keeps the order. -/
theorem nearest_mono : Monotone nearest := by
  intro p q hpq
  by_contra hlt
  rw [not_le] at hlt
  have hp := abs_nearest_sub_le (q := p) (onGrid_nearest q)
  have hq := abs_nearest_sub_le (q := q) (onGrid_nearest p)
  -- both numbers would be nearest to the wrong one of two sides of their middle
  have hp' : nearest p + nearest q ≤ 2 * p := by
    by_contra hc
    rw [not_le] at hc
    rw [abs_of_pos (by linarith : 0 < nearest p - p)] at hp
    rcases abs_cases (nearest q - p) with ⟨ha, _⟩ | ⟨ha, _⟩ <;> linarith
  have hq' : 2 * q ≤ nearest p + nearest q := by
    by_contra hc
    rw [not_le] at hc
    rw [abs_of_neg (by linarith : nearest q - q < 0)] at hq
    rcases abs_cases (nearest p - q) with ⟨ha, _⟩ | ⟨ha, _⟩ <;> linarith
  have heq : p = q := le_antisymm hpq (by linarith)
  rw [heq] at hlt
  exact lt_irrefl _ hlt

/-- Rounding does not pass a number of the grid on the way down. -/
theorem OnGrid.le_nearest {v q : ℚ} (hv : OnGrid v) (h : v ≤ q) : v ≤ nearest q := by
  rw [← nearest_of_onGrid hv]
  exact nearest_mono h

/-- Rounding does not pass a number of the grid on the way up. -/
theorem OnGrid.nearest_le {v q : ℚ} (hv : OnGrid v) (h : q ≤ v) : nearest q ≤ v := by
  rw [← nearest_of_onGrid hv]
  exact nearest_mono h

/-- Rounding does not make a number negative. -/
theorem nearest_nonneg {q : ℚ} (h : 0 ≤ q) : 0 ≤ nearest q := by
  have := nearest_mono h
  rwa [nearest_zero] at this

/-! ### The rounding error -/

private theorem abs_nearest_sub_le_half (q : ℚ) :
    |nearest q - q| ≤ 1 / 2 * 2 ^ lastPlace q := by
  rw [nearest, abs_mul_lastPlace_sub]
  exact mul_le_mul_of_nonneg_right (abs_roundEven_sub_le_half _) (two_zpow_pos _).le

private theorem two_zpow_lastPlace_le {q : ℚ} (hq : q ≠ 0) (h : -1074 < lastPlace q) :
    (2 : ℚ) ^ lastPlace q ≤ |q| / 2 ^ 52 := by
  rw [le_div_iff₀ (by norm_num), mul_comm]
  exact le_abs_of_lastPlace hq h

/-- The rounding error is relative, or half a last place where the digits end. -/
theorem abs_nearest_sub_le_max (q : ℚ) :
    |nearest q - q| ≤ max (|q| / 2 ^ 53) (1 / 2 * 2 ^ (-1074 : ℤ)) := by
  have h := abs_nearest_sub_le_half q
  by_cases hl : lastPlace q = -1074
  · rw [hl] at h
    exact h.trans (le_max_right _ _)
  · by_cases hq : q = 0
    · rw [hq, nearest_zero, sub_zero, abs_zero]
      exact le_max_of_le_left (by norm_num)
    · have hl' : -1074 < lastPlace q := lt_of_le_of_ne (le_max_right _ _) (Ne.symm hl)
      have hb := two_zpow_lastPlace_le hq hl'
      exact le_max_of_le_left (by linarith)

/-- A number of the grid is a whole multiple of the last place of all. -/
theorem OnGrid.exists_eq_mul {q : ℚ} (h : OnGrid q) : ∃ n : ℤ, q = n * 2 ^ (-1074 : ℤ) := by
  obtain ⟨m, e, -, he, rfl⟩ := h
  exact exists_mul_two_zpow he m

/-- For multiples of the last place of all, such as sums, the rounding error is relative. -/
theorem abs_nearest_mul_sub_le (n : ℤ) :
    |nearest (n * 2 ^ (-1074 : ℤ)) - n * 2 ^ (-1074 : ℤ)| ≤
      |(n : ℚ) * 2 ^ (-1074 : ℤ)| / 2 ^ 53 := by
  generalize hq : (n : ℚ) * 2 ^ (-1074 : ℤ) = q
  by_cases hl : lastPlace q = -1074
  · have h := abs_nearest_sub_le_mul q n
    rw [hl, hq, sub_self, abs_zero] at h
    exact h.trans (by positivity)
  · by_cases h0 : q = 0
    · rw [h0, nearest_zero, sub_zero, abs_zero, zero_div]
    · have hl' : -1074 < lastPlace q := lt_of_le_of_ne (le_max_right _ _) (Ne.symm hl)
      have h := abs_nearest_sub_le_half q
      have hb := two_zpow_lastPlace_le h0 hl'
      linarith

/-- The rounding error of a sum is relative. -/
theorem abs_nearest_add_sub_le {v w : ℚ} (hv : OnGrid v) (hw : OnGrid w) :
    |nearest (v + w) - (v + w)| ≤ |v + w| / 2 ^ 53 := by
  obtain ⟨m, hm⟩ := hv.exists_eq_mul
  obtain ⟨n, hn⟩ := hw.exists_eq_mul
  have h := abs_nearest_mul_sub_le (m + n)
  rwa [Int.cast_add, add_mul, ← hm, ← hn] at h

/-- The rounding error is relative and half a last place of all at most. -/
theorem abs_nearest_sub_le_add (q : ℚ) :
    |nearest q - q| ≤ |q| / 2 ^ 53 + 1 / 2 * 2 ^ (-1074 : ℤ) := by
  refine (abs_nearest_sub_le_max q).trans (max_le ?_ ?_)
  · exact le_add_of_nonneg_right (mul_nonneg (by norm_num) (two_zpow_pos _).le)
  · exact le_add_of_nonneg_left (by positivity)

/-- The next number of the grid is at least a relative `2 ^ (-53)` away. -/
theorem OnGrid.lt_sub {v w : ℚ} (hv : OnGrid v) (hw : OnGrid w) (h0 : 0 ≤ v) (h : v < w) :
    v < (w - v) * 2 ^ 53 := by
  obtain ⟨m, e, hm, -, rfl⟩ := hv
  obtain ⟨n, f, hn, -, rfl⟩ := hw
  -- the difference is a positive multiple of the lower of both places
  have hgap : (2 : ℚ) ^ min e f ≤ n * 2 ^ f - m * 2 ^ e := by
    obtain ⟨m', hm'⟩ := exists_mul_two_zpow (min_le_left e f) m
    obtain ⟨n', hn'⟩ := exists_mul_two_zpow (min_le_right e f) n
    rw [hm', hn'] at h ⊢
    have hlt : m' < n' := by
      have := lt_of_mul_lt_mul_right h (two_zpow_pos (min e f)).le
      exact_mod_cast this
    have hle : ((m' : ℚ) + 1) ≤ n' := by exact_mod_cast hlt
    nlinarith [two_zpow_pos (min e f)]
  have hm' : (m : ℚ) < 2 ^ 53 := by exact_mod_cast lt_of_le_of_lt (le_abs_self m) hm
  have hn' : (n : ℚ) < 2 ^ 53 := by exact_mod_cast lt_of_le_of_lt (le_abs_self n) hn
  rcases min_cases e f with ⟨hmin, -⟩ | ⟨hmin, -⟩ <;> rw [hmin] at hgap
  · nlinarith [two_zpow_pos e]
  · nlinarith [two_zpow_pos f]

/-- Adding less than half of the distance to the next number has no effect. -/
theorem nearest_add_le {v d : ℚ} (hv : OnGrid v) (h0 : 0 ≤ v) (hd : 0 ≤ d)
    (h : d * 2 ^ 54 ≤ v) : nearest (v + d) ≤ v := by
  by_contra hlt
  rw [not_le] at hlt
  have hgap := hv.lt_sub (onGrid_nearest (v + d)) h0 hlt
  have hn := abs_nearest_sub_le (q := v + d) hv
  rw [sub_add_cancel_left, abs_neg, abs_of_nonneg hd, abs_le] at hn
  linarith

end AffineArithmetic.Binary64

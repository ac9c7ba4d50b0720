import Mathlib.Algebra.Order.Ring.Abs
import Mathlib.Tactic.Linarith
import Mathlib.Tactic.Ring

/-!
# Deviations

The part of the value of a linear form that comes from its noise symbols, over an ordered field. It
is at most the sum of the absolute coefficients, and reaches every share of it. Squares of noise
symbols lie between 0 and 1, so the product of two deviations stays closer to half of the sum of the
diagonal products than to 0.
-/

namespace AffineArithmetic.Linear

variable {K : Type} [Field K]

/-- The sum of the coefficients times the values of their noise symbols. -/
def deviation (cs : List K) (ε : ℕ → K) : K := (cs.mapIdx fun i c ↦ c * ε i).sum

/-- No coefficients make no deviation. -/
@[simp] theorem deviation_nil (ε : ℕ → K) : deviation [] ε = 0 := rfl

/-- The first coefficient belongs to the first noise symbol. -/
@[simp] theorem deviation_cons (c : K) (cs : List K) (ε : ℕ → K) :
    deviation (c :: cs) ε = c * ε 0 + deviation cs fun i ↦ ε (i + 1) := by
  rw [deviation, List.mapIdx_cons, List.sum_cons]
  rfl

/-- The deviation of scaled coefficients is scaled. -/
theorem deviation_map_mul (cs : List K) (a : K) (ε : ℕ → K) :
    deviation (cs.map (· * a)) ε = deviation cs ε * a := by
  induction cs generalizing ε with
  | nil => rw [List.map_nil, deviation_nil, zero_mul]
  | cons c cs ih =>
    rw [List.map_cons, deviation_cons, ih, deviation_cons]
    ring

/-- The deviation of combined coefficients is the combination of the deviations. -/
theorem deviation_zipWith {cs ds : List K} (a b : K) (ε : ℕ → K) (h : cs.length = ds.length) :
    deviation (List.zipWith (fun c d ↦ a * d + b * c) cs ds) ε =
      a * deviation ds ε + b * deviation cs ε := by
  induction cs generalizing ds ε with
  | nil =>
    rw [List.eq_nil_of_length_eq_zero h.symm, List.zipWith_nil_left, deviation_nil]
    ring
  | cons c cs ih =>
    cases ds with
    | nil => contradiction
    | cons d ds =>
      rw [List.zipWith_cons_cons, deviation_cons, deviation_cons, deviation_cons,
        ih _ (Nat.succ_injective h)]
      ring

/-- Coefficients 0 make no deviation. -/
@[simp] theorem deviation_replicate_zero (n : ℕ) (ε : ℕ → K) :
    deviation (List.replicate n 0) ε = 0 := by
  induction n generalizing ε with
  | zero => rfl
  | succ n ih => rw [List.replicate_succ, deviation_cons, zero_mul, ih, add_zero]

/-- A single coefficient makes the deviation of its noise symbol, at any place. -/
theorem deviation_set_replicate {n j : ℕ} (h : j < n) (c : K) (ε : ℕ → K) :
    deviation ((List.replicate n 0).set j c) ε = c * ε j := by
  induction n generalizing j ε with
  | zero => exact absurd h (Nat.not_lt_zero j)
  | succ n ih =>
    cases j with
    | zero =>
      rw [List.replicate_succ, List.set_cons_zero, deviation_cons, deviation_replicate_zero,
        add_zero]
    | succ j =>
      rw [List.replicate_succ, List.set_cons_succ, deviation_cons, zero_mul, zero_add,
        ih (Nat.lt_of_succ_lt_succ h)]

section Order

variable [LinearOrder K]

/-- The largest deviation: the sum of the absolute values of the coefficients. -/
def spread (cs : List K) : K := (cs.map (|·|)).sum

/-- No coefficients have no spread. -/
@[simp] theorem spread_nil : spread ([] : List K) = 0 := rfl

/-- Every coefficient counts with its absolute value. -/
@[simp] theorem spread_cons (c : K) (cs : List K) : spread (c :: cs) = |c| + spread cs := by
  rw [spread, List.map_cons, List.sum_cons]
  rfl

variable [IsStrictOrderedRing K]

/-- The spread is not negative. -/
theorem spread_nonneg (cs : List K) : 0 ≤ spread cs := by
  induction cs with
  | nil => exact le_rfl
  | cons c cs ih =>
    rw [spread_cons]
    exact add_nonneg (abs_nonneg c) ih

/-- Coefficients 0 have no spread. -/
@[simp] theorem spread_replicate_zero (n : ℕ) : spread (List.replicate n (0 : K)) = 0 := by
  induction n with
  | zero => rfl
  | succ n ih => rw [List.replicate_succ, spread_cons, abs_zero, ih, add_zero]

/-- A single coefficient has its absolute value as spread, at any place. -/
theorem spread_set_replicate {n j : ℕ} (h : j < n) (c : K) :
    spread ((List.replicate n 0).set j c) = |c| := by
  induction n generalizing j with
  | zero => exact absurd h (Nat.not_lt_zero j)
  | succ n ih =>
    cases j with
    | zero =>
      rw [List.replicate_succ, List.set_cons_zero, spread_cons, spread_replicate_zero, add_zero]
    | succ j =>
      rw [List.replicate_succ, List.set_cons_succ, spread_cons, abs_zero, zero_add,
        ih (Nat.lt_of_succ_lt_succ h)]

/-- The diagonal products of equal coefficients are their own absolute values. -/
theorem spread_zipWith_self (cs : List K) :
    spread (List.zipWith (· * ·) cs cs) = (List.zipWith (· * ·) cs cs).sum := by
  rw [List.zipWith_self, spread, List.map_map]
  exact congrArg List.sum (List.map_congr_left fun c _ ↦ abs_of_nonneg (mul_self_nonneg c))

/-- The absolute value of a sum is at most the spread of the summands. -/
theorem abs_sum_le_spread (cs : List K) : |cs.sum| ≤ spread cs := by
  induction cs with
  | nil => exact (abs_zero (α := K)).le
  | cons c cs ih =>
    rw [List.sum_cons, spread_cons]
    exact (abs_add_le _ _).trans (add_le_add le_rfl ih)

/-- The spread of scaled coefficients is scaled. -/
theorem spread_map_mul (cs : List K) (a : K) : spread (cs.map (· * a)) = spread cs * |a| := by
  induction cs with
  | nil => rw [List.map_nil, spread_nil, zero_mul]
  | cons c cs ih => rw [List.map_cons, spread_cons, ih, spread_cons, abs_mul, add_mul]

/-- The spread of combined coefficients is at most the combination of the spreads. -/
theorem spread_zipWith_le (a b : K) (cs ds : List K) :
    spread (List.zipWith (fun c d ↦ a * d + b * c) cs ds) ≤ |a| * spread ds + |b| * spread cs := by
  have hnonneg : ∀ cs ds : List K, 0 ≤ |a| * spread ds + |b| * spread cs := fun cs ds ↦
    add_nonneg (mul_nonneg (abs_nonneg a) (spread_nonneg ds))
      (mul_nonneg (abs_nonneg b) (spread_nonneg cs))
  induction cs generalizing ds with
  | nil => exact hnonneg [] ds
  | cons c cs ih =>
    cases ds with
    | nil => exact hnonneg (c :: cs) []
    | cons d ds =>
      have hhead : |a * d + b * c| ≤ |a| * |d| + |b| * |c| := by
        rw [← abs_mul, ← abs_mul]
        exact abs_add_le _ _
      rw [List.zipWith_cons_cons, spread_cons, spread_cons, spread_cons]
      linarith [ih ds]

/-- The spread of the diagonal products is at most the product of the spreads. -/
theorem spread_diagonal_le (cs ds : List K) :
    spread (List.zipWith (· * ·) cs ds) ≤ spread cs * spread ds := by
  induction cs generalizing ds with
  | nil => rw [List.zipWith_nil_left, spread_nil, zero_mul]
  | cons c cs ih =>
    cases ds with
    | nil => rw [List.zipWith_nil_right, spread_nil, mul_zero]
    | cons d ds =>
      have hmixed : 0 ≤ |c| * spread ds + spread cs * |d| :=
        add_nonneg (mul_nonneg (abs_nonneg c) (spread_nonneg ds))
          (mul_nonneg (spread_nonneg cs) (abs_nonneg d))
      rw [List.zipWith_cons_cons, spread_cons, spread_cons, spread_cons, abs_mul]
      linarith [ih ds]

/-- Deviations are at most the spread. -/
theorem abs_deviation_le {ε : ℕ → K} (hε : ∀ i, |ε i| ≤ 1) (cs : List K) :
    |deviation cs ε| ≤ spread cs := by
  induction cs generalizing ε with
  | nil => exact (abs_zero (α := K)).le
  | cons c cs ih =>
    rw [deviation_cons, spread_cons]
    refine (abs_add_le _ _).trans (add_le_add ?_ (ih fun i ↦ hε (i + 1)))
    rw [abs_mul]
    exact mul_le_of_le_one_right (abs_nonneg c) (hε 0)

/-- Every share of the spread is a deviation. -/
theorem exists_deviation {t : K} (ht : |t| ≤ 1) (cs : List K) :
    ∃ ε : ℕ → K, (∀ i, |ε i| ≤ 1) ∧ deviation cs ε = spread cs * t := by
  induction cs with
  | nil => exact ⟨fun _ ↦ t, fun _ ↦ ht, (zero_mul t).symm⟩
  | cons c cs ih =>
    obtain ⟨ε, hε, hdev⟩ := ih
    -- the first symbol has the share with the sign of its coefficient
    obtain ⟨s, hs, hcs⟩ : ∃ s : K, |s| ≤ 1 ∧ c * s = |c| * t := by
      rcases le_total 0 c with hc | hc
      · exact ⟨t, ht, by rw [abs_of_nonneg hc]⟩
      · exact ⟨-t, by rwa [abs_neg], by rw [abs_of_nonpos hc, mul_neg, neg_mul]⟩
    refine ⟨fun i ↦ i.casesOn s ε, fun i ↦ ?_, ?_⟩
    · cases i with
      | zero => exact hs
      | succ i => exact hε i
    · rw [deviation_cons, spread_cons, add_mul, ← hcs, ← hdev]
      rfl

-- The square of a noise symbol is at most one half away from one half.
private theorem abs_mul_sq_sub_half_le {a e : K} (he : |e| ≤ 1) :
    |a * (e ^ 2 - 1 / 2)| ≤ 1 / 2 * |a| := by
  have hsq : e ^ 2 ≤ 1 := by
    rw [← sq_abs]
    exact pow_le_one₀ (abs_nonneg e) he
  have hhalf : |e ^ 2 - 1 / 2| ≤ 1 / 2 := by
    rw [abs_le]
    constructor <;> linarith [sq_nonneg e]
  rw [abs_mul, mul_comm]
  exact mul_le_mul_of_nonneg_right hhalf (abs_nonneg a)

private theorem abs_mul_noise_mul_le {a b e s : K} (he : |e| ≤ 1) (hb : |b| ≤ s) :
    |a * e * b| ≤ |a| * s := by
  rw [abs_mul, abs_mul]
  exact mul_le_mul (mul_le_of_le_one_right (abs_nonneg a) he) hb (abs_nonneg b) (abs_nonneg a)

/-- A product of deviations differs from half of the sum of the diagonal products by at most the
product of the spreads less half of the absolute diagonal products. -/
theorem abs_deviation_mul_sub_le {ε : ℕ → K} (hε : ∀ i, |ε i| ≤ 1) (cs ds : List K) :
    |deviation cs ε * deviation ds ε - 1 / 2 * (List.zipWith (· * ·) cs ds).sum| ≤
      spread cs * spread ds - 1 / 2 * spread (List.zipWith (· * ·) cs ds) := by
  induction cs generalizing ds ε with
  | nil => simp [spread]
  | cons c cs ih =>
    cases ds with
    | nil => simp [spread]
    | cons d ds =>
      have hε' : ∀ i, |ε (i + 1)| ≤ 1 := fun i ↦ hε (i + 1)
      -- The new diagonal product, the mixed products and the rest are estimated apart.
      have hsplit : deviation (c :: cs) ε * deviation (d :: ds) ε -
          1 / 2 * (List.zipWith (· * ·) (c :: cs) (d :: ds)).sum =
          c * d * (ε 0 ^ 2 - 1 / 2) +
            (c * ε 0 * deviation ds (fun i ↦ ε (i + 1)) +
              d * ε 0 * deviation cs (fun i ↦ ε (i + 1))) +
            (deviation cs (fun i ↦ ε (i + 1)) * deviation ds (fun i ↦ ε (i + 1)) -
              1 / 2 * (List.zipWith (· * ·) cs ds).sum) := by
        rw [deviation_cons, deviation_cons, List.zipWith_cons_cons, List.sum_cons]
        ring
      have hmixed := (abs_add_le _ _).trans (add_le_add
        (abs_mul_noise_mul_le (a := c) (hε 0) (abs_deviation_le hε' ds))
        (abs_mul_noise_mul_le (a := d) (hε 0) (abs_deviation_le hε' cs)))
      calc _ ≤ 1 / 2 * |c * d| + (|c| * spread ds + |d| * spread cs) +
            (spread cs * spread ds - 1 / 2 * spread (List.zipWith (· * ·) cs ds)) := by
            rw [hsplit]
            refine (abs_add_le _ _).trans (add_le_add ?_ (ih hε' ds))
            exact (abs_add_le _ _).trans (add_le_add (abs_mul_sq_sub_half_le (hε 0)) hmixed)
        _ = _ := by
            rw [List.zipWith_cons_cons, spread_cons, spread_cons, spread_cons, abs_mul]
            ring

end Order

end AffineArithmetic.Linear

import AffineArithmetic.Proofs.Interval.Ball
import AffineArithmetic.Proofs.Linear.Deviation
import AffineArithmetic.Proofs.Linear.Symmetry

/-!
# Exact linear forms

Linear forms with field elements as entries, and what the operations on forms of exact numbers
compute of them. A finite form is such a form, and its values are a ball around the centre.
-/

namespace AffineArithmetic.Linear

open Scalar

variable {K : Type} [Field K]

/-- The form whose entries are the exact numbers. -/
def lift (p : Linear K) : Linear (Extended K) :=
  ⟨.finite p.center, p.coeffs.map .finite, .finite p.error⟩

omit [Field K] in
/-- The noise symbols stay the same. -/
@[simp] theorem size_lift (p : Linear K) : p.lift.size = p.size := List.length_map _

/-! ### Sums of finite numbers -/

private theorem foldl_finite (cs : List K) (s : K) :
    (cs.map Extended.finite).foldl (· + ·) (.finite s) = .finite (s + cs.sum) := by
  induction cs generalizing s with
  | nil => rw [List.sum_nil, add_zero]; rfl
  | cons c cs ih =>
    rw [List.map_cons, List.foldl_cons, List.sum_cons, ← add_assoc]
    exact ih (s + c)

variable [LinearOrder K]

private theorem map_abs_finite (cs : List K) :
    (cs.map Extended.finite).map Scalar.abs = (cs.map (|·|)).map .finite := by
  rw [List.map_map, List.map_map]
  rfl

/-- The sum of finite numbers. -/
theorem total_finite (cs : List K) : total (cs.map Extended.finite) = .finite cs.sum := by
  rw [total, ← zero_add cs.sum]
  exact foldl_finite cs 0

/-- The sum of the absolute values of finite numbers. -/
theorem absTotal_finite (cs : List K) :
    absTotal (cs.map Extended.finite) = .finite (spread cs) := by
  rw [absTotal, map_abs_finite]
  exact total_finite (cs.map (|·|))

/-- The sum of the absolute values of finite numbers that starts at the negative zero. -/
theorem absSum_finite (cs : List K) :
    absSum (cs.map Extended.finite) = .finite (spread cs) := by
  rw [absSum, sum, map_abs_finite, spread, ← zero_add (List.sum _), ← neg_zero]
  exact foldl_finite (cs.map (|·|)) (-0)

/-! ### Finite forms -/

variable {x : Linear (Extended K)} {p q : Linear K} {m ρ : K}

/-- Exact forms are finite. -/
@[simp] theorem isFinite_lift (p : Linear K) : p.lift.isFinite = true := by
  refine isFinite_iff.mpr ⟨rfl, rfl, fun a ha ↦ ?_⟩
  obtain ⟨c, -, rfl⟩ := List.mem_map.mp ha
  rfl

/-- Finite numbers are field elements. -/
private theorem exists_map_finite {xs : List (Extended K)}
    (h : ∀ a ∈ xs, Scalar.isFinite a = true) : ∃ cs : List K, xs = cs.map .finite := by
  induction xs with
  | nil => exact ⟨[], rfl⟩
  | cons a xs ih =>
    obtain ⟨ha, hxs⟩ := List.forall_mem_cons.mp h
    obtain ⟨c, rfl⟩ := Extended.isFinite_iff.mp ha
    obtain ⟨cs, rfl⟩ := ih hxs
    exact ⟨c :: cs, rfl⟩

/-- Finite forms are exact forms. -/
theorem exists_lift (h : x.isFinite = true) : ∃ p : Linear K, x = p.lift := by
  obtain ⟨he, hc, hcs⟩ := isFinite_iff.mp h
  obtain ⟨e, he⟩ := Extended.isFinite_iff.mp he
  obtain ⟨c, hc⟩ := Extended.isFinite_iff.mp hc
  obtain ⟨cs, hcs⟩ := exists_map_finite hcs
  exact ⟨⟨c, cs, e⟩, Linear.ext hc hcs he⟩

/-! ### Linear operations -/

/-- The form multiplied by a number. -/
def multiple (p : Linear K) (a : K) : Linear K where
  center := p.center * a
  coeffs := p.coeffs.map (· * a)
  error := p.error * |a|

/-- The sum of two forms over the same symbols. -/
def plus (p q : Linear K) : Linear K where
  center := p.center + q.center
  coeffs := List.zipWith (· + ·) p.coeffs q.coeffs
  error := p.error + q.error

/-- The sum with a ball around `m`. -/
def ballSum (p : Linear K) (m ρ : K) : Linear K where
  center := p.center + m
  coeffs := p.coeffs
  error := p.error + ρ

/-- Scaling multiplies in the field. Scaling by 0 is no exception, since the entries are finite. -/
theorem scale_lift [IsStrictOrderedRing K] (p : Linear K) (a : K) :
    p.lift.scale (.finite a) = (p.multiple a).lift := by
  by_cases ha : a = 0
  · have hzero : p.multiple 0 = ⟨0, p.coeffs.map fun _ ↦ 0, 0⟩ := by
      simp only [multiple, mul_zero, abs_zero]
    rw [scale_of_eq_zero ((Extended.finite_beq_zero a).mpr ha), ha, hzero]
    simp only [lift, List.map_map]
    rfl
  · rw [scale_of_ne_zero ((Extended.finite_beq_zero a).not.mpr ha)]
    simp only [lift, multiple, List.map_map]
    rfl

/-- Sums of exact forms are computed in the field. -/
theorem add_lift (p q : Linear K) : p.lift + q.lift = (p.plus q).lift := by
  refine Linear.ext rfl ?_ rfl
  rw [coeffs_add, lift, lift, lift, List.zipWith_map, plus, List.map_zipWith]
  rfl

/-- Shifts are sums with balls of radius 0. -/
theorem shift_lift (p : Linear K) (b : K) :
    p.lift.shift (.finite b) = (p.ballSum b 0).lift := by
  rw [ballSum, add_zero]
  rfl

/-- Widening is the sum with a ball around 0. -/
theorem widen_lift (p : Linear K) (d : K) :
    p.lift.widen (.finite d) = (p.ballSum 0 |d|).lift := by
  rw [ballSum, add_zero]
  rfl

/-! ### Products -/

/-- The product of two forms over the same symbols. -/
def product (p q : Linear K) : Linear K where
  center := p.center * q.center + (List.zipWith (· * ·) p.coeffs q.coeffs).sum / (1 + 1)
  coeffs := List.zipWith (fun a b ↦ p.center * b + q.center * a) p.coeffs q.coeffs
  error := |q.center| * p.error + |p.center| * q.error
    + (p.error + spread p.coeffs) * (q.error + spread q.coeffs)
    - spread (List.zipWith (· * ·) p.coeffs q.coeffs) / (1 + 1)

/-- Half of the sum of the diagonal products goes to the centre. -/
theorem center_product (p q : Linear K) : (p.product q).center =
    p.center * q.center + 1 / 2 * (List.zipWith (· * ·) p.coeffs q.coeffs).sum := by
  rw [product, one_add_one_eq_two, div_eq_mul_one_div, mul_comm (List.sum _)]

/-- Half of the absolute diagonal products is taken from the error. -/
theorem error_product (p q : Linear K) : (p.product q).error =
    |q.center| * p.error + |p.center| * q.error
      + (p.error + spread p.coeffs) * (q.error + spread q.coeffs)
      - 1 / 2 * spread (List.zipWith (· * ·) p.coeffs q.coeffs) := by
  rw [product, one_add_one_eq_two, div_eq_mul_one_div (spread (List.zipWith _ _ _)),
    mul_comm (spread (List.zipWith _ _ _))]

/-- The product with a ball around `m`. -/
def ballProduct (p : Linear K) (m ρ : K) : Linear K where
  center := p.center * m
  coeffs := p.coeffs.map (· * m)
  error := p.error * (|m| + ρ) + ρ * (|p.center| + spread p.coeffs)

private theorem diagonal_lift (p q : Linear K) :
    diagonal p.lift q.lift = (List.zipWith (· * ·) p.coeffs q.coeffs).map .finite := by
  rw [diagonal, lift, lift, List.zipWith_map, List.map_zipWith]
  rfl

/-- Products of exact forms are computed in the field. -/
theorem mul_lift (p q : Linear K) : p.lift * q.lift = (p.product q).lift := by
  refine Linear.ext ?_ ?_ ?_
  · rw [center_mul, diagonal_lift, total_finite]
    exact congrArg Extended.finite (center_product p q).symm
  · rw [coeffs_mul, lift, lift, lift, List.zipWith_map, product, List.map_zipWith]
    rfl
  · rw [error_mul, diagonal_lift]
    simp only [lift, absTotal_finite]
    refine congrArg Extended.finite ?_
    rw [error_product, sub_eq_add_neg]

variable [IsStrictOrderedRing K]

/-- The square of an exact form is the product with itself: the diagonal products are not
negative. -/
theorem sqr_lift (p : Linear K) : p.lift.sqr = (p.product p).lift := by
  have hsquares : p.lift.coeffs.map (fun a ↦ a * a) = diagonal p.lift p.lift := by
    rw [diagonal, List.zipWith_self]
  rw [sqr, hsquares, diagonal_lift, Extended.power_two]
  refine Linear.ext ?_ ?_ ?_
  · rw [total_finite]
    exact congrArg Extended.finite (center_product p p).symm
  · simp only [lift, product, List.zipWith_self, List.map_map]
    refine List.map_congr_left fun a _ ↦ congrArg Extended.finite ?_
    ring
  · simp only [lift, error_product, absTotal_finite, total_finite, spread_zipWith_self]
    refine congrArg Extended.finite (?_ : (1 + 1) * |p.center| * p.error +
      -(1 / 2 * (List.zipWith (· * ·) p.coeffs p.coeffs).sum) +
      (p.error + spread p.coeffs) * (p.error + spread p.coeffs) = _)
    ring

/-- Products with balls are computed in the field. -/
theorem mulInterval_ball (p : Linear K) (h : 0 ≤ ρ) :
    p.lift.mulInterval (.ball m ρ) = (p.ballProduct m ρ).lift := by
  have hsum : absSum p.lift.entries = .finite (|p.center| + spread p.coeffs) := by
    rw [← spread_cons]
    exact absSum_finite (p.center :: p.coeffs)
  rw [mulInterval, Interval.midpoint_ball h, Interval.radius_ball h, Interval.magnitude_ball h,
    hsum]
  refine Linear.ext rfl ?_ rfl
  simp only [lift, ballProduct, List.map_map]
  rfl

/-! ### Constants -/

omit [LinearOrder K] [IsStrictOrderedRing K] in
/-- Without symbols, the sum with a constant is the sum with the ball of its values. -/
theorem plus_constant (h : p.size = 0) (m ρ : K) : p.plus (constant m ρ) = p.ballSum m ρ := by
  rw [plus, ballSum, List.eq_nil_of_length_eq_zero h]
  rfl

omit [IsStrictOrderedRing K] in
/-- Without symbols, the product with a constant is the product with the ball of its values. -/
theorem product_constant (h : p.size = 0) (m ρ : K) :
    p.product (constant m ρ) = p.ballProduct m ρ := by
  have hcoeffs := List.eq_nil_of_length_eq_zero h
  refine Linear.ext ?_ ?_ ?_
  · rw [center_product, constant, hcoeffs, List.zipWith_nil_left, List.sum_nil, mul_zero, add_zero]
    rfl
  · rw [product, ballProduct, hcoeffs]
    rfl
  · rw [error_product, ballProduct, constant, hcoeffs, List.zipWith_nil_left, spread_nil]
    ring

/-! ### Forms on a noise symbol -/

/-- The form over `size` symbols around `m` whose radius `ρ` is on symbol `position`, or the error
if `position` is 0. -/
def ballOnSymbol (size position : ℕ) (m ρ : K) : Linear K :=
  if position = 0 then ⟨m, List.replicate size 0, ρ⟩
  else ⟨m, (List.replicate size 0).set (position - 1) ρ, 0⟩

omit [LinearOrder K] [IsStrictOrderedRing K] in
/-- Without a symbol, the radius is the error. -/
theorem ballOnSymbol_zero (size : ℕ) (m ρ : K) :
    ballOnSymbol size 0 m ρ = ⟨m, List.replicate size 0, ρ⟩ := if_pos rfl

omit [LinearOrder K] [IsStrictOrderedRing K] in
/-- On a symbol, the radius is its coefficient, and nothing is left for the error. -/
theorem ballOnSymbol_succ (size j : ℕ) (m ρ : K) :
    ballOnSymbol size (j + 1) m ρ = ⟨m, (List.replicate size 0).set j ρ, 0⟩ :=
  if_neg (Nat.succ_ne_zero j)

omit [LinearOrder K] [IsStrictOrderedRing K] in
/-- The form over the symbols has as many. -/
@[simp] theorem size_ballOnSymbol (size position : ℕ) (m ρ : K) :
    (ballOnSymbol size position m ρ).size = size := by
  cases position with
  | zero => rw [ballOnSymbol_zero, Linear.size, List.length_replicate]
  | succ j => rw [ballOnSymbol_succ, Linear.size, List.length_set, List.length_replicate]

omit [IsStrictOrderedRing K] in
/-- The form on a symbol has field elements as entries. -/
theorem onSymbol_finite (size position : ℕ) (m ρ : K) :
    onSymbol size position (.finite m) (.finite ρ) = (ballOnSymbol size position m ρ).lift := by
  unfold onSymbol ballOnSymbol
  split
  · rw [lift, List.map_replicate]
    rfl
  · rw [lift, List.map_set, List.map_replicate]
    rfl

/-- The radius of the form is all on the symbol or all in the error, which is not negative. -/
theorem radius_ballOnSymbol {size position : ℕ} (hp : position ≤ size) (h : 0 ≤ ρ) :
    0 ≤ (ballOnSymbol size position m ρ).error ∧
      spread (ballOnSymbol size position m ρ).coeffs + (ballOnSymbol size position m ρ).error =
        ρ := by
  cases position with
  | zero => rw [ballOnSymbol_zero, spread_replicate_zero, zero_add]; exact ⟨h, rfl⟩
  | succ j =>
    rw [ballOnSymbol_succ, spread_set_replicate (Nat.lt_of_succ_le hp), abs_of_nonneg h, add_zero]
    exact ⟨le_rfl, rfl⟩

/-! ### Enclosed intervals -/

/-- The radius of the values of a form is not negative. -/
theorem radius_nonneg (h : 0 ≤ p.error) : 0 ≤ spread p.coeffs + p.error :=
  add_nonneg (spread_nonneg p.coeffs) h

/-- The values of an exact form are a ball around the centre. -/
theorem toInterval_lift (h : 0 ≤ p.error) :
    p.lift.toInterval = .ball p.center (spread p.coeffs + p.error) := by
  have hr : p.lift.radius = .finite (spread p.coeffs + p.error) := by
    rw [radius]
    simp only [lift, absSum_finite]
    rfl
  rw [toInterval, hr, lift, Extended.finite_sub_finite, Extended.finite_add_finite]
  exact Interval.ofBounds_ball (radius_nonneg h)

/-- The form on a symbol encloses the ball. -/
theorem toInterval_ballOnSymbol {size position : ℕ} (hp : position ≤ size) (h : 0 ≤ ρ) :
    (ballOnSymbol size position m ρ).lift.toInterval = .ball m ρ := by
  obtain ⟨herror, hradius⟩ := radius_ballOnSymbol (m := m) hp h
  rw [toInterval_lift herror, hradius]
  cases position <;> rfl

end AffineArithmetic.Linear

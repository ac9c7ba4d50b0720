import AffineArithmetic.Proofs.Interval.Inclusion
import AffineArithmetic.Proofs.Linear.Magnitude

/-!
# Inclusion of linear results

The values of an exact form are a ball, so the interval of a multiple or of a sum with a ball is
computed on intervals. Only in a sum over common symbols do coefficients cancel, and then the
interval of the sum is the smaller one. Every result grows with the errors of its operands.
-/

namespace AffineArithmetic.Linear

open Scalar

variable {K : Type} [Field K] [LinearOrder K] {p p' q q' : Linear K} {a m ρ σ : K}

/-! ### Errors that are not negative -/

section Nonneg

variable [IsStrictOrderedRing K]

/-- The error of a multiple is not negative. -/
theorem error_multiple_nonneg (hp : 0 ≤ p.error) (a : K) : 0 ≤ (p.multiple a).error :=
  mul_nonneg hp (abs_nonneg a)

/-! ### Intervals of linear results -/

/-- The interval of a multiple is the multiple of the interval. -/
theorem toInterval_multiple (hp : 0 ≤ p.error) (a : K) :
    (p.multiple a).lift.toInterval = p.lift.toInterval * Interval.ofScalar (.finite a) := by
  rw [toInterval_lift hp, Interval.ball_mul_ofScalar (radius_nonneg hp),
    toInterval_lift (error_multiple_nonneg hp a)]
  have hradius : spread (p.multiple a).coeffs + (p.multiple a).error =
      (spread p.coeffs + p.error) * |a| := by
    rw [multiple, spread_map_mul, add_mul]
  rw [hradius]
  rfl

/-- The interval of a sum with a ball is the sum of the interval with the ball. -/
theorem toInterval_ballSum (hp : 0 ≤ p.error) (hρ : 0 ≤ ρ) :
    (p.ballSum m ρ).lift.toInterval = p.lift.toInterval + Interval.ball m ρ := by
  rw [toInterval_lift hp, Interval.ball_add_ball (radius_nonneg hp) hρ, add_assoc]
  exact toInterval_lift (add_nonneg hp hρ)

/-- The sum of the intervals of two forms. -/
theorem toInterval_add_toInterval (hp : 0 ≤ p.error) (hq : 0 ≤ q.error) :
    p.lift.toInterval + q.lift.toInterval = .ball (p.center + q.center)
      (spread p.coeffs + spread q.coeffs + (p.error + q.error)) := by
  rw [toInterval_lift hp, toInterval_lift hq,
    Interval.ball_add_ball (radius_nonneg hp) (radius_nonneg hq), add_add_add_comm]

/-- The interval of a sum over common symbols lies within the sum of the intervals. -/
theorem toInterval_plus_isSubset (hp : 0 ≤ p.error) (hq : 0 ≤ q.error) :
    (p.plus q).lift.toInterval.isSubset (p.lift.toInterval + q.lift.toInterval) = true := by
  have he : 0 ≤ (p.plus q).error := add_nonneg hp hq
  have hspread : spread (p.plus q).coeffs ≤ spread p.coeffs + spread q.coeffs := by
    have hle := spread_zipWith_le 1 1 p.coeffs q.coeffs
    simpa only [plus, one_mul, abs_one, add_comm] using hle
  rw [toInterval_add_toInterval hp hq, toInterval_lift he]
  exact Interval.isSubset_ball (radius_nonneg he) (add_le_add hspread le_rfl)

/-- Without symbols nothing cancels. -/
theorem toInterval_plus_of_size_eq_zero (hp : 0 ≤ p.error) (hq : 0 ≤ q.error) (h : p.size = 0)
    (h' : q.size = 0) :
    (p.plus q).lift.toInterval = p.lift.toInterval + q.lift.toInterval := by
  rw [toInterval_add_toInterval hp hq, toInterval_lift (add_nonneg hp hq), plus,
    List.eq_nil_of_length_eq_zero h, List.eq_nil_of_length_eq_zero h', spread_nil, zero_add]
  rfl

end Nonneg

/-! ### Growing errors -/

/-- The forms have the same entries, and the error of the second one is at least as large. -/
structure Widens (p p' : Linear K) : Prop where
  center : p'.center = p.center
  coeffs : p'.coeffs = p.coeffs
  nonneg : 0 ≤ p.error
  le : p.error ≤ p'.error

/-- The error of the wider form is not negative. -/
theorem Widens.nonneg' (h : Widens p p') : 0 ≤ p'.error := h.nonneg.trans h.le

/-- The forms are over the same symbols. -/
theorem Widens.size_eq (h : Widens p p') : p'.size = p.size := congrArg List.length h.coeffs

variable [IsStrictOrderedRing K]

/-- The values of the wider form include those of the other one. -/
theorem Widens.isSubset (h : Widens p p') :
    p.lift.toInterval.isSubset p'.lift.toInterval = true := by
  rw [toInterval_lift h.nonneg, toInterval_lift h.nonneg', h.center, h.coeffs]
  exact Interval.isSubset_ball (radius_nonneg h.nonneg) (add_le_add le_rfl h.le)

/-- Multiples grow with the error. -/
theorem Widens.multiple (h : Widens p p') (a : K) : Widens (p.multiple a) (p'.multiple a) where
  center := congrArg (· * a) h.center
  coeffs := congrArg (List.map (· * a)) h.coeffs
  nonneg := error_multiple_nonneg h.nonneg a
  le := mul_le_mul_of_nonneg_right h.le (abs_nonneg a)

/-- Sums with balls grow with the error and the radius. -/
theorem Widens.ballSum (h : Widens p p') (hρ : 0 ≤ ρ) (hle : ρ ≤ σ) :
    Widens (p.ballSum m ρ) (p'.ballSum m σ) where
  center := congrArg (· + m) h.center
  coeffs := h.coeffs
  nonneg := add_nonneg h.nonneg hρ
  le := add_le_add h.le hle

/-- Sums grow with the errors of both forms. -/
theorem Widens.plus (h : Widens p p') (h' : Widens q q') : Widens (p.plus q) (p'.plus q') where
  center := congrArg₂ (· + ·) h.center h'.center
  coeffs := congrArg₂ (List.zipWith (· + ·)) h.coeffs h'.coeffs
  nonneg := add_nonneg h.nonneg h'.nonneg
  le := add_le_add h.le h'.le

/-- Products grow with the errors of both forms: the half of the diagonal products that is taken
from the error depends on the entries alone. -/
theorem Widens.product (h : Widens p p') (h' : Widens q q') :
    Widens (p.product q) (p'.product q') where
  center := by
    rw [center_product, center_product, h.center, h.coeffs, h'.center, h'.coeffs]
  coeffs := by
    rw [Linear.product, Linear.product, h.center, h.coeffs, h'.center, h'.coeffs]
  nonneg := error_product_nonneg h.nonneg h'.nonneg
  le := by
    have hp : |q.center| * p.error ≤ |q.center| * p'.error :=
      mul_le_mul_of_nonneg_left h.le (abs_nonneg q.center)
    have hq : |p.center| * q.error ≤ |p.center| * q'.error :=
      mul_le_mul_of_nonneg_left h'.le (abs_nonneg p.center)
    have hradii : (p.error + spread p.coeffs) * (q.error + spread q.coeffs) ≤
        (p'.error + spread p.coeffs) * (q'.error + spread q.coeffs) :=
      mul_le_mul (add_le_add h.le le_rfl) (add_le_add h'.le le_rfl)
        (add_nonneg h'.nonneg (spread_nonneg q.coeffs))
        (add_nonneg h.nonneg' (spread_nonneg p.coeffs))
    rw [error_product, error_product, h.center, h.coeffs, h'.center, h'.coeffs]
    linarith

/-- Products with balls grow with the error and the radius. -/
theorem Widens.ballProduct (h : Widens p p') (hρ : 0 ≤ ρ) (hle : ρ ≤ σ) :
    Widens (p.ballProduct m ρ) (p'.ballProduct m σ) where
  center := congrArg (· * m) h.center
  coeffs := congrArg (List.map (· * m)) h.coeffs
  nonneg := error_ballProduct_nonneg h.nonneg hρ
  le := by
    have hmagnitude : 0 ≤ |p.center| + spread p.coeffs :=
      add_nonneg (abs_nonneg p.center) (spread_nonneg p.coeffs)
    rw [Linear.ballProduct, Linear.ballProduct, h.center, h.coeffs]
    exact add_le_add
      (mul_le_mul h.le (add_le_add le_rfl hle) (add_nonneg (abs_nonneg m) hρ) h.nonneg')
      (mul_le_mul_of_nonneg_right hle hmagnitude)

end AffineArithmetic.Linear

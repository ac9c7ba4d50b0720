import AffineArithmetic.Linear.Basic

/-!
# Products of linear forms

Products are linearised around the centres. The square of a noise symbol lies between 0 and 1, so
half of each diagonal product moves the centre and only the other half counts as error.
-/

namespace AffineArithmetic.Linear

open Scalar

variable {α : Type} [Scalar α]

/-- The product with a bounded interval. The entries are scaled by the midpoint; the deviation from
the midpoint goes into the error. -/
def mulInterval (x : Linear α) (r : Interval α) : Linear α where
  center := x.center * r.midpoint
  coeffs := x.coeffs.map (· * r.midpoint)
  error := x.error * r.magnitude + r.radius * absSum x.entries

/-- The diagonal products `xᵢ·yᵢ`. -/
def diagonal (x y : Linear α) : List α := List.zipWith (· * ·) x.coeffs y.coeffs

/-- The sum from left to right, starting at the positive zero. -/
def total (xs : List α) : α := xs.foldl (· + ·) zero

/-- The sum of the absolute values, starting at the positive zero. -/
def absTotal (xs : List α) : α := total (xs.map abs)

/-- The product of two forms over the same symbols:

- centre `x₀·y₀ + ½·Σ xᵢ·yᵢ`,
- coefficients `x₀·yᵢ + y₀·xᵢ`,
- error `|y₀|·ex + |x₀|·ey + (ex + Σ|xᵢ|)·(ey + Σ|yᵢ|) - ½·Σ|xᵢ·yᵢ|`. -/
protected def mul (x y : Linear α) : Linear α where
  center := x.center * y.center + half * total (diagonal x y)
  coeffs := List.zipWith (fun a b ↦ x.center * b + y.center * a) x.coeffs y.coeffs
  error := abs y.center * x.error + abs x.center * y.error
    + (x.error + absTotal x.coeffs) * (y.error + absTotal y.coeffs)
    - half * absTotal (diagonal x y)

instance : Mul (Linear α) := ⟨Linear.mul⟩

/-- The square of a form:

- centre `x₀² + ½·Σ xᵢ²`,
- coefficients `2·x₀·xᵢ`,
- error `2·|x₀|·e - ½·Σ xᵢ² + (e + Σ|xᵢ|)²`. -/
def sqr (x : Linear α) : Linear α :=
  let squares := total (x.coeffs.map fun a ↦ a * a)
  { center := x.center * x.center + half * squares
    coeffs := x.coeffs.map (· * (two * x.center))
    error := two * abs x.center * x.error - half * squares
      + power (x.error + absTotal x.coeffs) 2 }

/-- The product with an interval keeps the symbols. -/
@[simp] theorem size_mulInterval (x : Linear α) (r : Interval α) :
    (x.mulInterval r).size = x.size := List.length_map _

/-- The product of two forms over the same symbols is over these symbols. -/
theorem size_mul {x y : Linear α} (h : x.size = y.size) : (x * y).size = x.size := by
  change (List.zipWith _ x.coeffs y.coeffs).length = x.coeffs.length
  rw [List.length_zipWith]
  exact Nat.min_eq_left (Nat.le_of_eq h)

/-- The square keeps the symbols. -/
@[simp] theorem size_sqr (x : Linear α) : x.sqr.size = x.size := List.length_map _

end AffineArithmetic.Linear

import AffineArithmetic.Interval.Arithmetic

/-!
# Linear forms

`x₀ + x₁·ε₁ + … + xₙ·εₙ ± e`: a centre, a coefficient for each noise symbol, and an error term for
everything the linear part does not capture. Each noise symbol ranges over the interval from -1
to 1. The operations here are the formulas alone; entries may overflow.
-/

namespace AffineArithmetic

/-- A centre, the coefficients of the noise symbols in order, and an error term. -/
structure Linear (α : Type) where
  center : α
  coeffs : List α
  error : α
deriving BEq, DecidableEq

namespace Linear

open Scalar

variable {α : Type}

/-- The number of noise symbols. -/
def size (x : Linear α) : Nat := x.coeffs.length

/-- The centre followed by the coefficients. -/
def entries (x : Linear α) : List α := x.center :: x.coeffs

/-- The form without noise symbols. -/
def constant (center error : α) : Linear α := ⟨center, [], error⟩

/-- The centre, the coefficients and the error of `y` in place of those of `x`. -/
def overwrite (x y : Linear α) : Linear α :=
  { x with center := y.center, coeffs := y.coeffs, error := y.error }

/-- Nothing of the overwritten form is left. -/
@[simp] theorem overwrite_eq (x y : Linear α) : x.overwrite y = y := rfl

/-- The form without noise symbols has none. -/
@[simp] theorem size_constant (center error : α) : (constant center error).size = 0 := rfl

variable [Scalar α]

/-- Whether every entry and the error are finite. -/
def isFinite (x : Linear α) : Bool :=
  Scalar.isFinite x.error && x.entries.all Scalar.isFinite

/-- The form over `size` symbols with its whole radius on symbol `position`, or on the error term if
`position` is 0. -/
def onSymbol (size position : Nat) (center radius : α) : Linear α :=
  if position = 0 then ⟨center, List.replicate size zero, radius⟩
  else ⟨center, (List.replicate size zero).set (position - 1) radius, zero⟩

/-- The largest distance of a value of the form from the centre. -/
def radius (x : Linear α) : α := absSum x.coeffs + x.error

/-- The values of the form. -/
def toInterval (x : Linear α) : Interval α :=
  .ofBounds (x.center - x.radius) (x.center + x.radius)

/-- The form of the opposite values. -/
protected def neg (x : Linear α) : Linear α :=
  ⟨-x.center, x.coeffs.map (- ·), x.error⟩

instance : Neg (Linear α) := ⟨Linear.neg⟩

/-- The form multiplied by a scalar. Zero gives an exact zero, whatever the entries are. -/
def scale (x : Linear α) (a : α) : Linear α :=
  if a == zero then ⟨zero, x.coeffs.map fun _ ↦ zero, zero⟩
  else ⟨x.center * a, x.coeffs.map (· * a), x.error * abs a⟩

/-- The sum of two forms over the same symbols. -/
protected def add (x y : Linear α) : Linear α :=
  ⟨x.center + y.center, List.zipWith (· + ·) x.coeffs y.coeffs, x.error + y.error⟩

instance : Add (Linear α) := ⟨Linear.add⟩

/-- The form moved by a constant. -/
def shift (x : Linear α) (b : α) : Linear α := { x with center := x.center + b }

/-- The form with its error widened by the size of `d`. -/
def widen (x : Linear α) (d : α) : Linear α := { x with error := x.error + abs d }

/-- The number of symbols is the one asked for. -/
@[simp] theorem size_onSymbol (size position : Nat) (center radius : α) :
    (onSymbol size position center radius).size = size := by
  unfold onSymbol
  split <;> simp [Linear.size]

/-- Negation keeps the symbols. -/
@[simp] theorem size_neg (x : Linear α) : (-x).size = x.size := List.length_map _

/-- Scaling keeps the symbols. -/
@[simp] theorem size_scale (x : Linear α) (a : α) : (x.scale a).size = x.size := by
  unfold scale
  split <;> simp [size]

/-- Shifting keeps the symbols. -/
@[simp] theorem size_shift (x : Linear α) (b : α) : (x.shift b).size = x.size := rfl

/-- Widening keeps the symbols. -/
@[simp] theorem size_widen (x : Linear α) (d : α) : (x.widen d).size = x.size := rfl

/-- The sum of two forms over the same symbols is over these symbols. -/
theorem size_add {x y : Linear α} (h : x.size = y.size) : (x + y).size = x.size := by
  change (List.zipWith (· + ·) x.coeffs y.coeffs).length = x.coeffs.length
  rw [List.length_zipWith]
  exact Nat.min_eq_left (Nat.le_of_eq h)

end Linear
end AffineArithmetic

import AffineArithmetic.Scalar.Basic

/-!
# Binary64 numbers as scalars

The numbers the library runs on. Each operation rounds its exact result to the nearest number, and
powers round after each multiplication.
-/

namespace AffineArithmetic.Binary64

/-- The largest exponent for which a power is computed by repeated squaring. -/
def maxSquaringExponent : Nat := 0x7fffffff

/-- Powers are products by repeated squaring up to `maxSquaringExponent`, and the general power
function beyond it. -/
def power (x : Float) (n : Nat) : Float :=
  if n ≤ maxSquaringExponent then Scalar.mulSquares 1.0 x n else x.pow n.toFloat

instance : Scalar Float where
  zero := 0.0
  one := 1.0
  half := 0.5
  maxFinite := Float.ofBits 0x7fefffffffffffff
  infinity := Float.ofBits 0x7ff0000000000000
  nan := Float.ofBits 0x7ff8000000000000
  abs := Float.abs
  isFinite := Float.isFinite
  power := power

end AffineArithmetic.Binary64

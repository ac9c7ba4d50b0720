import AffineArithmetic.AffineForm.Basic
import AffineArithmetic.Interval.Text

/-!
# The text of an affine form

A linear form is written `x₀ + x₁·ε₁ - x₂·ε₂ ± e`: the sign of a coefficient becomes the sign
between the terms. Every other form is written as its interval.
-/

namespace AffineArithmetic

namespace Linear

/-- The text of the term of noise symbol `i`, with the sign that joins it to the text before. -/
def writeTerm (v : Float) (i : Nat) : List Char :=
  (if Binary64.isNegative v then " - ".toList ++ Decimal.write (-v)
    else " + ".toList ++ Decimal.write v) ++ '·' :: 'ε' :: Nat.toDigits 10 i

/-- The text of a linear form. -/
def write (x : Linear Float) : List Char :=
  Decimal.write x.center ++ (x.coeffs.zipIdx 1).flatMap (fun t ↦ writeTerm t.1 t.2)
    ++ " ± ".toList ++ Decimal.write x.error

end Linear

namespace AffineForm

/-- The text of an affine form, as characters. -/
def write : AffineForm Float → List Char
  | active x => x.write
  | x => x.toInterval.write

/-- The text of an affine form. -/
def toText (x : AffineForm Float) : String := String.ofList x.write

end AffineForm
end AffineArithmetic

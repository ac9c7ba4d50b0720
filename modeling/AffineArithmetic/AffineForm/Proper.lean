import AffineArithmetic.AffineForm.Basic

/-!
# Proper forms

The forms that have not overflowed: the numbers of a linear form are finite and its error is not
negative, and a half line has a finite bound.
-/

namespace AffineArithmetic.AffineForm

variable {α : Type} [Scalar α]

/-- A linear form is finite with an error of at least 0, and the bound of a half line is finite. -/
def IsProper : AffineForm α → Prop
  | active p => p.isFinite = true ∧ Scalar.zero ≤ p.error
  | empty | allReals => True
  | boundedBelow b | boundedAbove b => Scalar.isFinite b = true

end AffineArithmetic.AffineForm

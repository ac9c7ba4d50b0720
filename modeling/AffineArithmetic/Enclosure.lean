import AffineArithmetic.AffineForm.Basic

/-!
# Enclosures

What describes a set of reals by an interval around it. Code that only needs the interval works
alike with intervals, affine forms and any other enclosure.
-/

namespace AffineArithmetic

/-- A type whose values describe sets of reals. -/
class Enclosure (ε : Type) (α : outParam Type) [Scalar α] where
  /-- The interval of the described values. -/
  toInterval : ε → Interval α
  /-- A representative of the described values. -/
  midpoint : ε → α := fun x ↦ (toInterval x).midpoint
  /-- Whether a scalar may be the described value. -/
  contains : ε → α → Bool := fun x v ↦ (toInterval x).contains v

variable {α : Type} [Scalar α]

instance : Enclosure (Interval α) α where
  toInterval := id

instance : Enclosure (AffineForm α) α where
  toInterval := AffineForm.toInterval
  midpoint := AffineForm.midpoint

end AffineArithmetic

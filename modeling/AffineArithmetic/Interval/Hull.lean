import Mathlib.Order.Bounds.Defs
import AffineArithmetic.Interval.Membership

/-!
# Hulls

The hull of a set of field elements is the smallest interval around it. Its finite bounds belong to
the set, and it has an infinite bound only where the set has none.
-/

namespace AffineArithmetic.Interval

variable {K : Type} [Field K] [LinearOrder K]

/-- The points between the bounds, as a set. -/
def points (i : Interval (Extended K)) : Set K := {x | x ∈ i}

/-- The lower bound of the hull of a set: its least element, or negative infinity if nothing bounds
the set from below. -/
def IsLowerEnd (s : Set K) : Extended K → Prop
  | .finite x => IsLeast s x
  | .negInf => ¬ BddBelow s
  | _ => False

/-- The upper bound of the hull of a set: its greatest element, or infinity if nothing bounds the
set from above. -/
def IsUpperEnd (s : Set K) : Extended K → Prop
  | .finite x => IsGreatest s x
  | .posInf => ¬ BddAbove s
  | _ => False

/-- The interval is the smallest one around the set. -/
structure IsHull (i : Interval (Extended K)) (s : Set K) : Prop where
  mem {x : K} : x ∈ s → x ∈ i
  lower : i.isEmpty = false → IsLowerEnd s i.lower
  upper : i.isEmpty = false → IsUpperEnd s i.upper

end AffineArithmetic.Interval

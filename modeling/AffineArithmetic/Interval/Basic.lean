import AffineArithmetic.Scalar.Basic

/-!
# Intervals

A closed interval of reals with bounds from a scalar type, possibly unbounded or empty. Every
constructor turns inverted, undefined or unreachable bounds into one canonical empty interval, so
two empty intervals are always equal.
-/

namespace AffineArithmetic

/-- The numbers from `lower` to `upper`; none if `upper` is below `lower`. -/
structure Interval (α : Type) where
  lower : α
  upper : α
deriving BEq, DecidableEq

namespace Interval

open Scalar

variable {α : Type} [Scalar α]

/-- The empty set, with crossed infinite bounds. -/
def empty : Interval α := ⟨infinity, -infinity⟩

/-- The whole real line. -/
def univ : Interval α := ⟨-infinity, infinity⟩

/-- The point 0. -/
def zero : Interval α := ⟨Scalar.zero, Scalar.zero⟩

/-- The point 1. -/
def one : Interval α := ⟨Scalar.one, Scalar.one⟩

/-- The interval from -1 to 1, which a noise symbol ranges over. -/
def noise : Interval α := ⟨-Scalar.one, Scalar.one⟩

/-- The interval between two bounds. It is empty if the bounds are out of order or undefined, or
if both lie beyond the reals on one side. -/
def ofBounds (lower upper : α) : Interval α :=
  if lower ≤ upper ∧ lower != infinity ∧ upper != -infinity then ⟨lower, upper⟩ else empty

/-- The interval between two computed bounds. A bound that overflowed past the reals moves back to
the largest finite number on its side, so that overflow never makes an interval empty. -/
def outward (lower upper : α) : Interval α :=
  ofBounds (if lower == infinity then maxFinite else lower)
    (if upper == -infinity then -maxFinite else upper)

/-- The interval that holds one scalar. Infinity lies beyond every real and becomes the numbers
from the largest finite one on; an undefined scalar says nothing and becomes the real line. -/
def ofScalar (x : α) : Interval α :=
  if isFinite x then ⟨x, x⟩
  else if x == infinity then ofBounds maxFinite infinity
  else if x == -infinity then ofBounds (-infinity) (-maxFinite)
  else univ

/-- An interval that is not stated assumes nothing. -/
instance : Inhabited (Interval α) := ⟨univ⟩

/-- Whether the bounds are crossed. -/
def isEmpty (i : Interval α) : Bool := decide (i.upper < i.lower)

/-- Whether the interval reaches down without end. -/
def isUnboundedBelow (i : Interval α) : Bool := !i.isEmpty && i.lower == -infinity

/-- Whether the interval reaches up without end. -/
def isUnboundedAbove (i : Interval α) : Bool := !i.isEmpty && i.upper == infinity

/-- Whether the interval has an infinite end. -/
def isUnbounded (i : Interval α) : Bool := i.isUnboundedBelow || i.isUnboundedAbove

/-- Whether the interval is non-empty and both its ends are finite. -/
def isBounded (i : Interval α) : Bool := !i.isEmpty && !i.isUnbounded

/-- Whether a scalar lies between the bounds. -/
def contains (i : Interval α) (x : α) : Bool := decide (i.lower ≤ x ∧ x ≤ i.upper)

/-- Whether every point of `i` lies in `j`. -/
def isSubset (i j : Interval α) : Bool :=
  i.isEmpty || decide (j.lower ≤ i.lower ∧ i.upper ≤ j.upper)

/-- The centre of a bounded interval. The halves are added apart where the sum of the bounds
overflows. A one-sided interval has the largest finite number on its open side as centre, the real
line has 0, and the empty set has none. -/
def midpoint (i : Interval α) : α :=
  if i.isEmpty then nan
  else
    match i.isUnboundedBelow, i.isUnboundedAbove with
    | true, true => Scalar.zero
    | true, false => -maxFinite
    | false, true => maxFinite
    | false, false =>
      let m := half * (i.lower + i.upper)
      if isFinite m then m else half * i.lower + half * i.upper

/-- The larger distance from the midpoint to a bound; 0 for the empty set. -/
def radius (i : Interval α) : α :=
  if i.isEmpty then Scalar.zero
  else if i.isUnbounded then infinity
  else Scalar.max (i.midpoint - i.lower) (i.upper - i.midpoint)

/-- The distance between the bounds; 0 for the empty set. -/
def width (i : Interval α) : α :=
  if i.isEmpty then Scalar.zero else i.upper - i.lower

/-- The largest absolute value in the interval; the empty set has none. -/
def magnitude (i : Interval α) : α :=
  if i.isEmpty then nan else Scalar.max (abs i.lower) (abs i.upper)

/-- The smallest absolute value in the interval; the empty set has none. -/
def mignitude (i : Interval α) : α :=
  if i.isEmpty then nan
  else if i.contains Scalar.zero then Scalar.zero
  else Scalar.min (abs i.lower) (abs i.upper)

end Interval
end AffineArithmetic

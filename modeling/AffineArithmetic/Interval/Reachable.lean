import AffineArithmetic.Interval.Arithmetic
import AffineArithmetic.Interval.Text

/-!
# Reachable intervals

The binary64 intervals that come about by constructing, reading and computing, in any sequence.
-/

namespace AffineArithmetic.Interval

/-- The interval is the result of a sequence of constructions and operations. -/
inductive Reachable : Interval Float → Prop
  | ofBounds (lower upper : Float) : Reachable (ofBounds lower upper)
  | ofScalar (x : Float) : Reachable (ofScalar x)
  | empty : Reachable empty
  | univ : Reachable univ
  | zero : Reachable zero
  | one : Reachable one
  | noise : Reachable noise
  | ofText {s : String} {i : Interval Float} (h : ofText s = .ok i) : Reachable i
  | neg {i : Interval Float} (hi : Reachable i) : Reachable (-i)
  | abs {i : Interval Float} (hi : Reachable i) : Reachable i.abs
  | add {i j : Interval Float} (hi : Reachable i) (hj : Reachable j) : Reachable (i + j)
  | sub {i j : Interval Float} (hi : Reachable i) (hj : Reachable j) : Reachable (i - j)
  | mul {i j : Interval Float} (hi : Reachable i) (hj : Reachable j) : Reachable (i * j)
  | pow {i : Interval Float} (hi : Reachable i) (n : Nat) : Reachable (i.pow n)

end AffineArithmetic.Interval

import AffineArithmetic.AffineForm.Operators
import AffineArithmetic.AffineForm.Symbol
import AffineArithmetic.Interval.Reachable

/-!
# Reachable forms

The binary64 affine forms that come about by constructing and computing, in any sequence, over fewer
noise symbols than a given number. No operation makes a form over more symbols than its operands
have.
-/

namespace AffineArithmetic.AffineForm

/-- The form is the result of a sequence of constructions and operations on forms over fewer than
`limit` noise symbols. -/
inductive Reachable (limit : Nat) : AffineForm Float → Prop
  | ofScalar (d : Float) : Reachable limit (ofScalar d)
  | ofInterval {i : Interval Float} (hi : i.Reachable) : Reachable limit (ofInterval i)
  | onSymbol {size position : Nat} (hs : size < limit) (hp : position ≤ size)
      {i : Interval Float} (hi : i.Reachable) : Reachable limit (onSymbol size position i)
  | neg {x : AffineForm Float} (hx : Reachable limit x) : Reachable limit (-x)
  | update {x : AffineForm Float} (hx : Reachable limit x) (u : Update Float)
      (hu : ∀ y, u.add = some y → Reachable limit y) : Reachable limit (x.update u)
  | addInterval {x : AffineForm Float} (hx : Reachable limit x) {r : Interval Float}
      (hr : r.Reachable) : Reachable limit (x + r)
  | mulInterval {x : AffineForm Float} (hx : Reachable limit x) {r : Interval Float}
      (hr : r.Reachable) : Reachable limit (x * r)
  | mul {x y : AffineForm Float} (hx : Reachable limit x) (hy : Reachable limit y) :
      Reachable limit (x * y)
  | sqr {x : AffineForm Float} (hx : Reachable limit x) : Reachable limit x.sqr

end AffineArithmetic.AffineForm

import AffineArithmetic.AffineForm.Update
import AffineArithmetic.Linear.Product

/-!
# Products, squares and powers of affine forms

Two forms over the same noise symbols have a linear product. Otherwise the form with fewer symbols
is taken as an interval, and a form that is no linear form makes the whole product one of intervals.
-/

namespace AffineArithmetic.AffineForm

open Scalar

variable {α : Type} [Scalar α]

/-- Multiplies by an interval. -/
def mulInterval (x : AffineForm α) (r : Interval α) : AffineForm α :=
  match x, r.isBounded with
  | active l, true => settle (active (l.mulInterval r))
  | x, _ => ofInterval (x.toInterval * r)

/-- The product of two forms. -/
protected def mul : AffineForm α → AffineForm α → AffineForm α
  | active x, active y =>
    match x.matchWith y with
    | .aligned x y => settle (active (x * y))
    | .folded x r => (active x).mulInterval r
  | x, y => ofInterval (x.toInterval * y.toInterval)

/-- The width below which a form is squared as an interval, `2 ^ (-55)`: no correlation is left
that is worth keeping. -/
def squareWidth : α := power half 55

/-- Whether the enclosed interval is squared instead of the linear part. -/
def squaresAsInterval (x : AffineForm α) : Bool :=
  x.toInterval.isUnbounded || decide (x.toInterval.width < squareWidth)

/-- The square of a form. -/
def sqr (x : AffineForm α) : AffineForm α :=
  match x, x.squaresAsInterval with
  | active l, false => settle (active l.sqr)
  | x, _ => ofInterval (x.toInterval.pow 2)

/-- `acc * x ^ n` by repeated squaring, for a positive `n`. -/
def mulPower (acc x : AffineForm α) (n : Nat) : AffineForm α :=
  let acc := if n % 2 = 1 then acc.mul x else acc
  if n / 2 = 0 then acc else mulPower acc x.sqr (n / 2)
termination_by n
decreasing_by omega

/-- The `n`-th power by repeated squaring. The power with exponent 0 is exactly 1, unless the form
is empty. -/
def pow (x : AffineForm α) (n : Nat) : AffineForm α :=
  if h : n = 0 then
    match x with
    | empty => empty
    | _ => one
  else if n % 2 = 0 then pow x.sqr (n / 2)
  else if n = 1 then x
  else mulPower x x.sqr (n / 2)
termination_by n
decreasing_by omega

end AffineArithmetic.AffineForm

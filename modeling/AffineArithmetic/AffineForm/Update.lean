import AffineArithmetic.AffineForm.Basic

/-!
# Linear updates

Scaling, adding another form, shifting and widening, one by one or fused in one update. A step that
cannot be expressed on the linear part is applied to the enclosed interval instead. Entries may
overflow between the steps of an update; only its result is settled.
-/

namespace AffineArithmetic

/-- Two linear forms brought to one set of noise symbols. -/
inductive Matched (α : Type) where
  /-- Both forms are over the same symbols. -/
  | aligned (x y : Linear α)
  /-- The form with fewer symbols is only known by its interval. -/
  | folded (x : Linear α) (r : Interval α)

/-- Brings two forms to the symbols of the larger one. Symbols of forms with different counts do not
correspond, so the smaller form keeps nothing but its interval, and a larger second form takes the
place of the first. -/
def Linear.matchWith {α : Type} [Scalar α] (x y : Linear α) : Matched α :=
  if x.size = y.size then .aligned x y
  else if y.size < x.size then .folded x y.toInterval
  else .folded (x.overwrite y) x.toInterval

/-- The steps of a linear update, in the order in which they apply; an absent step changes
nothing. -/
structure Update (α : Type) where
  /-- Multiply by this scalar. -/
  scale : Option α := none
  /-- Add this form. -/
  add : Option (AffineForm α) := none
  /-- Add this constant. -/
  shift : Option α := none
  /-- Widen the error by the size of this scalar. -/
  widen : Option α := none

namespace AffineForm

open Scalar

variable {α : Type} [Scalar α]

/-- Multiplies by a scalar. -/
def scaleStep (x : AffineForm α) (a : α) : AffineForm α :=
  match x, isFinite a with
  | active l, true => active (l.scale a)
  | x, _ => ofInterval (x.toInterval * a)

/-- Adds a constant. -/
def shiftStep (x : AffineForm α) (b : α) : AffineForm α :=
  match x, isFinite b with
  | active l, true => active (l.shift b)
  | x, _ => ofInterval (x.toInterval + b)

/-- Widens the error by the size of a scalar. -/
def widenStep (x : AffineForm α) (d : α) : AffineForm α :=
  match x, isFinite d with
  | active l, true => active (l.widen d)
  | x, _ => ofInterval (x.toInterval + (Interval.noise : Interval α) * d)

/-- The steps that add an interval, its midpoint as a constant and its radius as error, before the
result is settled. -/
def addIntervalSteps (x : AffineForm α) (r : Interval α) : AffineForm α :=
  if x.isActive && r.isBounded then (x.shiftStep r.midpoint).widenStep r.radius
  else ofInterval (x.toInterval + r)

/-- Adds an interval. -/
def addInterval (x : AffineForm α) (r : Interval α) : AffineForm α :=
  (x.addIntervalSteps r).settle

/-- Adds another form, entry by entry where the symbols agree. -/
def addStep : AffineForm α → AffineForm α → AffineForm α
  | active x, active y =>
    match x.matchWith y with
    | .aligned x y => active (x + y)
    | .folded x r => (active x).addInterval r
  | x, y => ofInterval (x.toInterval + y.toInterval)

/-- The steps of an update, before the result is settled. -/
def applySteps (x : AffineForm α) (u : Update α) : AffineForm α :=
  let x := u.scale.elim x x.scaleStep
  let x := u.add.elim x x.addStep
  let x := u.shift.elim x x.shiftStep
  u.widen.elim x x.widenStep

/-- Applies a linear update. -/
def update (x : AffineForm α) (u : Update α) : AffineForm α := (x.applySteps u).settle

/-- The form of the opposite values; half lines change direction. -/
protected def neg : AffineForm α → AffineForm α
  | active x => active (-x)
  | empty => empty
  | allReals => allReals
  | boundedBelow bound => boundedAbove (-bound)
  | boundedAbove bound => boundedBelow (-bound)

end AffineForm
end AffineArithmetic

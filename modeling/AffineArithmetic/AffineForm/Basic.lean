import AffineArithmetic.Linear.Basic

/-!
# Affine forms

An enclosure of one real quantity. It is a linear form over noise symbols as long as an exact linear
description exists, and one of four symbol-free sets otherwise: nothing, the real line, or a half
line. Forms that share noise symbols stay correlated through arithmetic.
-/

namespace AffineArithmetic

/-- An enclosure of a real quantity. -/
inductive AffineForm (α : Type) where
  /-- A linear form over noise symbols. -/
  | active (x : Linear α)
  /-- The empty set. -/
  | empty
  /-- The whole real line. -/
  | allReals
  /-- The numbers from a finite bound on. -/
  | boundedBelow (bound : α)
  /-- The numbers up to a finite bound. -/
  | boundedAbove (bound : α)
deriving BEq, DecidableEq

/-- The kind of an affine form. -/
inductive State where
  /-- A linear form over a number of noise symbols. -/
  | active (size : Nat)
  | empty
  | allReals
  | boundedBelow
  | boundedAbove
deriving DecidableEq

/-- The name of a kind of affine form. -/
def State.name : State → String
  | active size => s!"Active({size})"
  | empty => "Empty"
  | allReals => "AllReals"
  | boundedBelow => "BoundedBelow"
  | boundedAbove => "BoundedAbove"

namespace AffineForm

open Scalar

variable {α : Type} [Scalar α]

/-- A form that is not stated assumes nothing. -/
instance : Inhabited (AffineForm α) := ⟨allReals⟩

/-- The kind of the form. -/
def state : AffineForm α → State
  | active x => .active x.size
  | empty => .empty
  | allReals => .allReals
  | boundedBelow _ => .boundedBelow
  | boundedAbove _ => .boundedAbove

/-- The linear form, if the enclosure is one. -/
def linear? : AffineForm α → Option (Linear α)
  | active x => some x
  | _ => none

/-- Whether the enclosure is a linear form. -/
def isActive (x : AffineForm α) : Bool := x.linear?.isSome

/-- The number of noise symbols of a linear form. -/
def size? (x : AffineForm α) : Option Nat := x.linear?.map Linear.size

/-- The centre and the coefficients of a linear form. -/
def entries? (x : AffineForm α) : Option (List α) := x.linear?.map Linear.entries

/-- Entry `i` of a linear form: the centre for 0, then the coefficients. -/
def entry? (x : AffineForm α) (i : Nat) : Option α := x.entries?.bind (·[i]?)

/-- The error term of a linear form and the bound of a half line; 0 for the empty set and infinity
for the real line. -/
def error : AffineForm α → α
  | active x => x.error
  | empty => Scalar.zero
  | allReals => infinity
  | boundedBelow bound => bound
  | boundedAbove bound => bound

/-- The interval of the enclosed values. -/
def toInterval : AffineForm α → Interval α
  | active x => x.toInterval
  | empty => .empty
  | allReals => .univ
  | boundedBelow bound => .ofBounds bound infinity
  | boundedAbove bound => .ofBounds (-infinity) bound

/-- The centre of a linear form, and the midpoint of the enclosed values otherwise. -/
def midpoint : AffineForm α → α
  | active x => x.center
  | x => x.toInterval.midpoint

/-- The form of an interval: its midpoint and its radius as error, or the symbol-free set with the
same points. -/
def ofInterval (i : Interval α) : AffineForm α :=
  if i.isEmpty then empty
  else
    match i.isUnboundedBelow, i.isUnboundedAbove with
    | true, true => allReals
    | false, true => boundedBelow i.lower
    | true, false => boundedAbove i.upper
    | false, false => active (.constant i.midpoint i.radius)

/-- The form of a scalar. Infinity lies beyond every real and becomes a half line; an undefined
scalar says nothing and becomes the real line. -/
def ofScalar (d : α) : AffineForm α :=
  if isFinite d then active (.constant d Scalar.zero)
  else if d == infinity then boundedBelow maxFinite
  else if d == -infinity then boundedAbove (-maxFinite)
  else allReals

/-- The exact number 0. -/
def zero : AffineForm α := ofScalar Scalar.zero

/-- The exact number 1. -/
def one : AffineForm α := ofScalar Scalar.one

/-- Whether the form is the exact number 0. -/
def isZero : AffineForm α → Bool
  | active x => x.error == Scalar.zero && x.entries.all (· == Scalar.zero)
  | _ => false

/-- The real line in place of a linear form with an entry that is no longer finite. -/
def settle : AffineForm α → AffineForm α
  | active x => if x.isFinite then active x else allReals
  | x => x

end AffineForm
end AffineArithmetic

import AffineArithmetic.AffineForm.Basic
import AffineArithmetic.Fault

/-!
# Noise symbols and entries by position

Making a form whose width belongs to one noise symbol, and looking an entry up. Both come in a
checked version and in one whose caller promises that the position is in range.
-/

namespace AffineArithmetic

/-- A promise of the caller that was broken. -/
inductive Breach where
  /-- The position of a noise symbol is beyond the number of symbols. -/
  | symbol (position size : Nat)
  /-- There is no entry at this index. -/
  | entry (index : Nat) (state : State)
deriving DecidableEq

/-- The text of a breach. -/
def Breach.message : Breach → String
  | symbol position size =>
    s!"noise symbol position {position} is out of range for a form with {size} symbols"
  | entry index state =>
    s!"index {index} is out of range for an affine form in state " ++ state.name

namespace AffineForm

variable {α : Type} [Scalar α]

/-- The form over `size` symbols that encloses `i` with its whole width on symbol `position`, which
counts from 1. With position 0 the width goes into the error term. An interval that is empty or
unbounded carries no symbols. -/
def onSymbol (size position : Nat) (i : Interval α) : AffineForm α :=
  if i.isBounded then active (.onSymbol size position i.midpoint i.radius) else ofInterval i

/-- The form on a symbol, where the caller promises that the position is in range. -/
def withSymbol (size position : Nat) (i : Interval α) : Except Breach (AffineForm α) :=
  if position ≤ size then .ok (onSymbol size position i) else .error (.symbol position size)

/-- The form on a symbol, or a fault if the position is out of range. -/
def withSymbol? (size position : Nat) (i : Interval α) : Except Fault (AffineForm α) :=
  if position ≤ size then .ok (onSymbol size position i)
  else .error (.symbolOutOfRange position size)

/-- Entry `index` of a form, where the caller promises that it exists. -/
def entry (x : AffineForm α) (index : Nat) : Except Breach α :=
  match x.entry? index with
  | some v => .ok v
  | none => .error (.entry index x.state)

end AffineForm
end AffineArithmetic

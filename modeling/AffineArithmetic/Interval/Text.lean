import AffineArithmetic.Decimal.Text
import AffineArithmetic.Fault
import AffineArithmetic.Interval.Basic
import AffineArithmetic.Scalar.Binary64
import AffineArithmetic.Text.Blank

/-!
# The text of an interval

An interval is written `[lower, upper]` and the empty one `[empty]`. Reading also takes `[x]` for a
point and white space around the brackets, the bounds and the comma. Only the word denotes the empty
set: bounds that describe no real number are refused.
-/

namespace AffineArithmetic.Interval

open Text (isBlank skipBlank)

/-- The text of an interval, as characters. -/
def write (i : Interval Float) : List Char :=
  if i.isEmpty then "[empty]".toList
  else '[' :: Decimal.write i.lower ++ [',', ' '] ++ Decimal.write i.upper ++ [']']

/-- The text of an interval. -/
def toText (i : Interval Float) : String := String.ofList i.write

/-- What a bracketed text says, before its numbers are read. -/
inductive Literal where
  /-- The word for the empty set. -/
  | empty
  /-- One number for both bounds. -/
  | point (x : List Char)
  /-- A number for each bound. -/
  | bounds (lower upper : List Char)
deriving DecidableEq

/-- Whether a character can belong to the text of a bound. -/
def isBoundChar (c : Char) : Bool := c ≠ ',' && c ≠ ']' && !isBlank c

/-- Whether nothing but the closing bracket and white space is left. -/
def isClosed : List Char → Bool
  | ']' :: cs => cs.all isBlank
  | _ => false

/-- What the text between the first bound and the end says. The word for the empty set stands
directly before its bracket. -/
def Literal.afterBound (x rest : List Char) : Option Literal :=
  if x = [] then none
  else if x = "empty".toList ∧ isClosed rest then some .empty
  else
    match skipBlank rest with
    | ',' :: cs =>
      let y := (skipBlank cs).takeWhile isBoundChar
      let rest := (skipBlank cs).dropWhile isBoundChar
      if y ≠ [] ∧ isClosed (skipBlank rest) then some (.bounds x y) else none
    | cs => if isClosed cs then some (.point x) else none

/-- What a text says, if it has one of the three shapes. -/
def Literal.ofText? (cs : List Char) : Option Literal :=
  match skipBlank cs with
  | '[' :: cs =>
    let cs := skipBlank cs
    afterBound (cs.takeWhile isBoundChar) (cs.dropWhile isBoundChar)
  | _ => none

/-- The interval between two bounds, unless it is empty. -/
def ofBounds? (lower upper : Float) : Option (Interval Float) :=
  if (ofBounds lower upper).isEmpty then none else some (ofBounds lower upper)

/-- The interval that a shape with readable numbers denotes. -/
def Literal.value? : Literal → Option (Interval Float)
  | .empty => some Interval.empty
  | .point x => do
    let a ← Decimal.read? x
    ofBounds? a a
  | .bounds x y => do
    let a ← Decimal.read? x
    let b ← Decimal.read? y
    ofBounds? a b

/-- The interval that a text denotes, or the text itself as unreadable. -/
def ofText (s : String) : Except Fault (Interval Float) :=
  match (Literal.ofText? s.toList).bind Literal.value? with
  | some i => .ok i
  | none => .error (.unreadable s)

end AffineArithmetic.Interval

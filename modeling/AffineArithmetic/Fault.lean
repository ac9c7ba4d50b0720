/-!
# Faults

What the library reports instead of a result, and its wording.
-/

namespace AffineArithmetic

/-- A reported failure of a checked operation. -/
inductive Fault where
  /-- The text is not the text of an interval. -/
  | unreadable (text : String)
  /-- The position of a noise symbol is beyond the number of symbols of the form. -/
  | symbolOutOfRange (position size : Nat)
deriving DecidableEq

/-- The text of a fault. -/
def Fault.message : Fault → String
  | unreadable text => "Failed to parse: " ++ text
  | symbolOutOfRange position size =>
    s!"Noise symbol position {position} is out of range for a form with {size} symbols"

end AffineArithmetic

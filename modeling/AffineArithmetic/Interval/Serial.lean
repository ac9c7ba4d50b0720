import AffineArithmetic.Interval.Text

/-!
# Intervals in data formats

A document of a data format holds an interval as a string, which is the text of the interval. How
the format writes strings, with its quotes and escapes, is its own matter.
-/

namespace AffineArithmetic

/-- How a data format writes a string as a document, and reads the string that a document holds. -/
structure StringFormat where
  encode : String → String
  decode : String → Option String

/-- Every string comes back from its document. -/
def StringFormat.IsLossless (F : StringFormat) : Prop := ∀ s, F.decode (F.encode s) = some s

namespace Interval

/-- The document that holds the text of the interval. -/
def serialize (F : StringFormat) (i : Interval Float) : String := F.encode i.toText

/-- The interval that a document holds. A document without a string is refused by the format and
leaves no fault of the library. -/
def deserialize (F : StringFormat) (document : String) :
    Except (Option Fault) (Interval Float) :=
  match F.decode document with
  | none => .error none
  | some s => (ofText s).mapError some

end Interval
end AffineArithmetic

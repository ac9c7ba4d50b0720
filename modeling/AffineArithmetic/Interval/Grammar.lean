import AffineArithmetic.Interval.Proper
import AffineArithmetic.Interval.Text

/-!
# The grammar of interval texts

Which texts denote an interval, said without reading them. A text is made of tokens, and white space
may stand before each of them and at the end. The word for the empty set and the bracket behind it
are one token, so that no white space separates these two.
-/

namespace AffineArithmetic.Interval

open Text (isBlank)

/-- A run of white space, which may be empty. -/
def IsBlankRun (w : List Char) : Prop := ∀ c ∈ w, isBlank c = true

/-- A run of characters that can stand for a bound: one at least, and no comma, closing bracket or
white space. -/
def IsBoundRun (x : List Char) : Prop := x ≠ [] ∧ ∀ c ∈ x, c ≠ ',' ∧ c ≠ ']' ∧ isBlank c = false

/-- Which characters bounds are made of. -/
theorem isBoundChar_iff {c : Char} :
    isBoundChar c = true ↔ c ≠ ',' ∧ c ≠ ']' ∧ isBlank c = false := by
  simp [isBoundChar, and_assoc]

instance : DecidablePred IsBlankRun := fun w ↦
  decidable_of_iff (w.all isBlank = true) List.all_eq_true

instance : DecidablePred IsBoundRun := fun x ↦
  decidable_of_iff (x ≠ [] ∧ x.all isBoundChar = true) <| by
    simp only [List.all_eq_true, isBoundChar_iff, IsBoundRun]

/-- The text is made of the tokens in their order, with white space before, between and after
them. -/
inductive Spaced : List (List Char) → List Char → Prop
  | nil {w : List Char} (hw : IsBlankRun w) : Spaced [] w
  | cons {w t cs : List Char} {ts : List (List Char)} (hw : IsBlankRun w) (h : Spaced ts cs) :
      Spaced (t :: ts) (w ++ (t ++ cs))

namespace Literal

/-- The runs of characters that stand for bounds. -/
def boundRuns : Literal → List (List Char)
  | empty => []
  | point x => [x]
  | bounds x y => [x, y]

/-- The tokens of a literal. -/
def tokens : Literal → List (List Char)
  | empty => [['['], "empty]".toList]
  | point x => [['['], x, [']']]
  | bounds x y => [['['], x, [','], y, [']']]

/-- The text spells the literal. -/
def SpelledAs (l : Literal) (cs : List Char) : Prop :=
  (∀ x ∈ l.boundRuns, IsBoundRun x) ∧ Spaced l.tokens cs

end Literal

/-- The text is that of two numbers, or of one number for both bounds. -/
inductive Denotes (cs : List Char) : Float → Float → Prop
  | point {x : List Char} {a : Float} (h : (Literal.point x).SpelledAs cs)
      (ha : Decimal.read? x = some a) : Denotes cs a a
  | bounds {x y : List Char} {a b : Float} (h : (Literal.bounds x y).SpelledAs cs)
      (ha : Decimal.read? x = some a) (hb : Decimal.read? y = some b) : Denotes cs a b

/-- The second text is the first one with the run `w` inserted before a character `sep`. -/
def PaddedBefore (w : List Char) (sep : Char) (cs ds : List Char) : Prop :=
  ∃ p q, cs = p ++ sep :: q ∧ ds = p ++ (w ++ sep :: q)

/-- The second text is the first one with the run `w` inserted after a character `sep`. -/
def PaddedAfter (w : List Char) (sep : Char) (cs ds : List Char) : Prop :=
  ∃ p q, cs = p ++ sep :: q ∧ ds = p ++ sep :: (w ++ q)

end AffineArithmetic.Interval

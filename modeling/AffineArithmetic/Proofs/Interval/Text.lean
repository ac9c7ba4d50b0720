import AffineArithmetic.Interval.Serial
import AffineArithmetic.Proofs.Interval.Grammar

/-!
# Intervals read back

The text of a reachable interval denotes the interval itself, bit for bit. Its bounds are written
with characters that are neither white space nor separators, so that the text is one of the grammar,
and each number reads back.
-/

namespace AffineArithmetic.Interval

open Decimal (IsNumberChar forall_digit read?_write write_chars)

variable {i j : Interval Float} {c : Char}

/-! ### Characters -/

/-- The characters of numbers belong to bounds. -/
theorem isBoundChar_of_isNumberChar (h : IsNumberChar c) : isBoundChar c = true := by
  rcases h with h | h
  · exact forall_digit (p := fun c ↦ isBoundChar c = true) (by decide) h
  · have hall : ['-', '.', 'i', 'n', 'f', 'N', 'a'].all isBoundChar = true := by decide
    exact List.all_eq_true.mp hall c h

/-- The text of a number can stand for a bound. -/
theorem isBoundRun_write (x : Float) : IsBoundRun (Decimal.write x) :=
  ⟨(write_chars x).1, fun c hc ↦
    isBoundChar_iff.mp (isBoundChar_of_isNumberChar ((write_chars x).2 c hc))⟩

/-! ### Texts -/

/-- The text of an interval that is not empty denotes its bounds. -/
theorem denotes_write (h : InOrder i.lower i.upper) : Denotes i.write i.lower i.upper := by
  obtain ⟨hx, hy⟩ := isNaN_of_inOrder h
  have hwrite : i.write =
      '[' :: (Decimal.write i.lower ++ ',' :: ' ' :: (Decimal.write i.upper ++ [']'])) := by
    rw [write, isEmpty_of_inOrder h, if_neg Bool.false_ne_true]
    simp only [List.cons_append, List.append_assoc, List.nil_append]
  have hspelled :
      (Literal.bounds (Decimal.write i.lower) (Decimal.write i.upper)).SpelledAs i.write :=
    Literal.spelledAs_bounds_iff.mpr ⟨isBoundRun_write _, isBoundRun_write _, [], [], [], [' '], [],
      [], nofun, nofun, nofun, by decide, nofun, nofun, hwrite⟩
  exact .bounds hspelled (read?_write hx) (read?_write hy)

/-- The text of the empty interval spells the empty set. -/
theorem spelledAs_write_empty : Literal.empty.SpelledAs (empty : Interval Float).write :=
  Literal.spelledAs_empty_iff.mpr ⟨[], [], [], nofun, nofun, nofun, if_pos isEmpty_empty⟩

/-- A proper interval reads back from its text. -/
theorem IsProper.ofText_toText (h : i.IsProper) : ofText i.toText = .ok i := by
  by_cases hi : i = empty
  · rw [hi, ofText_eq_empty_iff, toText, String.toList_ofList]
    exact spelledAs_write_empty
  · have ho : InOrder i.lower i.upper := h.resolve_left hi
    rw [ofText_eq_bounds_iff hi, toText, String.toList_ofList]
    exact ⟨ho, denotes_write ho⟩

/-- Proper intervals are told apart by their text, bit for bit. -/
theorem IsProper.write_inj (hi : i.IsProper) (hj : j.IsProper) (h : i.write = j.write) :
    i = j := by
  have hread := hi.ofText_toText
  rw [toText, h, ← toText, hj.ofText_toText] at hread
  exact (Except.ok.inj hread).symm

/-- A reachable interval reads back from its text, bit for bit, and from the document of any data
format that does not change strings. -/
theorem reachable_ofText_toText (h : Reachable i) :
    ofText i.toText = .ok i ∧
      ∀ F : StringFormat, F.IsLossless → deserialize F (serialize F i) = .ok i := by
  have htext := h.isProper.ofText_toText
  refine ⟨htext, fun F hF ↦ ?_⟩
  rw [deserialize, serialize, hF i.toText]
  change (ofText i.toText).mapError some = .ok i
  rw [htext]
  rfl

/-- Strings between quotes, as a JSON document has those that need no escapes. -/
def quotedStrings : StringFormat where
  encode s := String.ofList ('"' :: s.toList ++ ['"'])
  decode document :=
    match document.toList with
    | '"' :: cs => if cs.getLast? = some '"' then some (String.ofList cs.dropLast) else none
    | _ => none

/-- Strings come back from between their quotes. -/
theorem isLossless_quotedStrings : quotedStrings.IsLossless := by
  intro s
  have hlast : (s.toList ++ ['"']).getLast? = some '"' := List.getLast?_concat
  simp only [quotedStrings, String.toList_ofList, List.cons_append, hlast, if_true,
    List.dropLast_concat, String.ofList_toList]

/-- A negative zero keeps its sign and infinity its name, in the text and between quotes. -/
theorem ofText_toText_of_negative_zero :
    Reachable (ofBounds (-0.0) Scalar.infinity) ∧
      (ofBounds (-0.0) Scalar.infinity : Interval Float).toText = "[-0, inf]" ∧
      ofText "[-0, inf]" = .ok (ofBounds (-0.0) Scalar.infinity) ∧
      deserialize quotedStrings
        (serialize quotedStrings (ofBounds (-0.0) Scalar.infinity)) =
          .ok (ofBounds (-0.0) Scalar.infinity) := by
  have h : Reachable (ofBounds (-0.0) Scalar.infinity) := .ofBounds _ _
  have htext : (ofBounds (-0.0) Scalar.infinity : Interval Float).toText = "[-0, inf]" := by
    decide +kernel
  obtain ⟨hread, hdocument⟩ := reachable_ofText_toText h
  rw [htext] at hread
  exact ⟨h, htext, hread, hdocument quotedStrings isLossless_quotedStrings⟩

end AffineArithmetic.Interval

import AffineArithmetic.Proofs.Interval.Grammar

/-!
# White space in interval texts

White space can be inserted before and after the brackets and the comma of a text that is read, and
the text is read as the same interval: a separator is a token of its own, and no number that is read
contains one. The closing bracket behind the word for the empty set is not a token of its own. White
space between these two makes the word a bound, which is no number, and the text is refused.
-/

namespace AffineArithmetic.Interval

open Decimal (IsReadableChar read?_chars)
open Text (isBlank)

variable {c sep : Char} {v w x cs ds p q r : List Char} {ts ts' : List (List Char)} {a b : Float}
  {i : Interval Float} {s t : String}

/-! ### Separators -/

private theorem IsBlankRun.append (hv : IsBlankRun v) (hw : IsBlankRun w) : IsBlankRun (v ++ w) :=
  List.forall_mem_append.mpr ⟨hv, hw⟩

private theorem IsBlankRun.notMem (hw : IsBlankRun w) (hc : isBlank c = false) : c ∉ w := by
  intro hmem
  rw [hw c hmem] at hc
  contradiction

-- A character that a first part lacks stands in the rest.
private theorem exists_of_append_eq {s : List Char} (hc : c ∉ r) (h : r ++ s = p ++ c :: q) :
    ∃ p', p = r ++ p' ∧ s = p' ++ c :: q := by
  rcases List.append_eq_append_iff.mp h with hp | ⟨r', rfl, hr⟩
  · exact hp
  · cases r' with
    | nil => exact ⟨[], by simp, hr.symm⟩
    | cons d r' =>
      obtain ⟨rfl, -⟩ := List.cons.inj hr
      exact absurd (List.mem_append_right p List.mem_cons_self) hc

/-- White space can be put in front. -/
theorem Spaced.blank_append (hw : IsBlankRun w) (h : Spaced ts cs) : Spaced ts (w ++ cs) := by
  cases h with
  | nil hv => exact .nil (hw.append hv)
  | cons hv h =>
    rw [← List.append_assoc]
    exact .cons (hw.append hv) h

/-- One text after another is made of the tokens of both. -/
theorem Spaced.append (h : Spaced ts cs) (h' : Spaced ts' ds) :
    Spaced (ts ++ ts') (cs ++ ds) := by
  induction h with
  | nil hw => exact h'.blank_append hw
  | cons hw _ ih =>
    rw [List.append_assoc, List.append_assoc]
    exact .cons hw ih

/-- Where a character is a token wherever it stands, the text falls apart at each of its places. -/
theorem Spaced.split (hc : isBlank c = false) (h : Spaced ts cs)
    (ht : ∀ t ∈ ts, c ∈ t → t = [c]) (hcs : cs = p ++ c :: q) :
    ∃ ts₁ ts₂, ts = ts₁ ++ [c] :: ts₂ ∧ Spaced ts₁ p ∧ Spaced ts₂ q := by
  induction h generalizing p with
  | nil hw =>
    rw [hcs] at hw
    exact absurd (List.mem_append_right p List.mem_cons_self) (hw.notMem hc)
  | @cons w t rest ts hw h ih =>
    obtain ⟨p, rfl, h₁⟩ := exists_of_append_eq (hw.notMem hc) hcs
    -- The character is the first token, or it stands behind this.
    have hrest : ∀ p', p = t ++ p' → rest = p' ++ c :: q →
        ∃ ts₁ ts₂, t :: ts = ts₁ ++ [c] :: ts₂ ∧ Spaced ts₁ (w ++ p) ∧ Spaced ts₂ q := by
      rintro p' rfl h₂
      obtain ⟨ts₁, ts₂, rfl, hp, hq⟩ := ih (fun t hmem ↦ ht t (List.mem_cons_of_mem _ hmem)) h₂
      exact ⟨t :: ts₁, ts₂, rfl, .cons hw hp, hq⟩
    by_cases hmem : c ∈ t
    · obtain rfl := ht t List.mem_cons_self hmem
      cases p with
      | nil =>
        obtain rfl := (List.cons.inj h₁).2
        exact ⟨[], ts, rfl, by simpa using Spaced.nil hw, h⟩
      | cons d p =>
        obtain ⟨rfl, h₂⟩ := List.cons.inj h₁
        exact hrest p rfl h₂
    · obtain ⟨p', hp, h₂⟩ := exists_of_append_eq hmem h₁
      exact hrest p' hp h₂

/-- White space before or after a character that is a token wherever it stands leaves the tokens as
they are. -/
theorem Spaced.padded (hw : IsBlankRun w) (hc : isBlank c = false) (h : Spaced ts cs)
    (ht : ∀ t ∈ ts, c ∈ t → t = [c]) (hpad : PaddedBefore w c cs ds ∨ PaddedAfter w c cs ds) :
    Spaced ts ds := by
  rcases hpad with ⟨p, q, hcs, rfl⟩ | ⟨p, q, hcs, rfl⟩
  · obtain ⟨ts₁, ts₂, rfl, hp, hq⟩ := h.split hc ht hcs
    exact hp.append (.cons hw hq)
  · obtain ⟨ts₁, ts₂, rfl, hp, hq⟩ := h.split hc ht hcs
    exact hp.append (.cons (w := []) nofun (hq.blank_append hw))

/-! ### Literals -/

-- The characters around which white space can stand.
private theorem isBlank_separator (hsep : sep ∈ ['[', ',', ']']) : isBlank sep = false := by
  fin_cases hsep <;> decide

/-- No number is read from a text with a separator. -/
theorem notMem_of_read? (hsep : sep ∈ ['[', ',', ']']) (h : Decimal.read? x = some a) :
    sep ∉ x := by
  have hno : ¬ IsReadableChar sep := by
    unfold IsReadableChar
    fin_cases hsep <;> decide
  exact fun hmem ↦ hno (read?_chars h sep hmem)

/-- White space around a separator does not change what numbers a text denotes. -/
theorem Denotes.padded (hw : IsBlankRun w) (hsep : sep ∈ ['[', ',', ']']) (h : Denotes cs a b)
    (hpad : PaddedBefore w sep cs ds ∨ PaddedAfter w sep cs ds) : Denotes ds a b := by
  have hblank := isBlank_separator hsep
  cases h with
  | @point x _ hl ha =>
    have ht : ∀ t ∈ (Literal.point x).tokens, sep ∈ t → t = [sep] := by
      simp [Literal.tokens, notMem_of_read? hsep ha, @eq_comm _ sep]
    exact .point ⟨hl.1, hl.2.padded hw hblank ht hpad⟩ ha
  | @bounds x y _ _ hl ha hb =>
    have ht : ∀ t ∈ (Literal.bounds x y).tokens, sep ∈ t → t = [sep] := by
      simp [Literal.tokens, notMem_of_read? hsep ha, notMem_of_read? hsep hb, @eq_comm _ sep]
    exact .bounds ⟨hl.1, hl.2.padded hw hblank ht hpad⟩ ha hb

/-- In a text of the empty set the word stands directly before the bracket. -/
theorem Literal.spelledAs_empty_split (h : empty.SpelledAs (p ++ ']' :: q)) : IsBlankRun q ∧
    ∃ u v, IsBlankRun u ∧ IsBlankRun v ∧ p = u ++ '[' :: (v ++ "empty".toList) := by
  obtain ⟨u, v, w, hu, hv, hw, heq⟩ := spelledAs_empty_iff.mp h
  have hmem : ']' ∉ u ++ '[' :: (v ++ "empty".toList) := by
    have hu' : ']' ∉ u := hu.notMem (by decide)
    have hv' : ']' ∉ v := hv.notMem (by decide)
    simp [hu', hv']
  have heq' : (u ++ '[' :: (v ++ "empty".toList)) ++ ']' :: w = p ++ ']' :: q := by
    simpa using heq.symm
  obtain ⟨p', rfl, hq⟩ := exists_of_append_eq hmem heq'
  cases p' with
  | nil =>
    obtain rfl := (List.cons.inj hq).2
    exact ⟨hw, u, v, hu, hv, by simp⟩
  | cons d p' =>
    obtain ⟨-, rfl⟩ := List.cons.inj hq
    have hclose : isBlank ']' = true := hw ']' (List.mem_append_right p' List.mem_cons_self)
    exact absurd hclose (by decide)

/-- White space around a separator leaves a text of the empty set as one, but before the closing
bracket. -/
theorem Literal.spelledAs_empty_padded (hw : IsBlankRun w) (hsep : sep ∈ ['[', ',', ']'])
    (h : empty.SpelledAs cs)
    (hpad : PaddedBefore w sep cs ds ∧ sep ≠ ']' ∨ PaddedAfter w sep cs ds) :
    empty.SpelledAs ds := by
  by_cases hclose : sep = ']'
  · subst hclose
    rcases hpad with ⟨-, hne⟩ | ⟨p, q, rfl, rfl⟩
    · contradiction
    · obtain ⟨hq, u, v, hu, hv, rfl⟩ := spelledAs_empty_split h
      exact spelledAs_empty_iff.mpr ⟨u, v, w ++ q, hu, hv, hw.append hq, by simp⟩
  · have ht : ∀ t ∈ tokens empty, sep ∈ t → t = [sep] := by
      fin_cases hsep <;> simp [tokens] at hclose ⊢
    exact ⟨h.1, h.2.padded hw (isBlank_separator hsep) ht (hpad.imp_left And.left)⟩

/-! ### Reading -/

/-- White space around a separator does not change what is read, but before the closing bracket of
the empty set. -/
theorem ofText_of_padded (hw : IsBlankRun w) (hsep : sep ∈ ['[', ',', ']']) (h : ofText s = .ok i)
    (hpad : PaddedBefore w sep s.toList t.toList ∧ (i = empty → sep ≠ ']') ∨
      PaddedAfter w sep s.toList t.toList) : ofText t = .ok i := by
  by_cases hi : i = empty
  · subst hi
    rw [ofText_eq_empty_iff] at h ⊢
    exact Literal.spelledAs_empty_padded hw hsep h
      (hpad.imp_left fun hbefore ↦ ⟨hbefore.1, hbefore.2 rfl⟩)
  · rw [ofText_eq_bounds_iff hi] at h ⊢
    exact ⟨h.1, h.2.padded hw hsep (hpad.imp_left And.left)⟩

/-- White space between the word for the empty set and its bracket makes the word a bound, which is
no number. -/
theorem ofText_of_padded_empty (hw : IsBlankRun w) (hne : w ≠ []) (h : ofText s = .ok empty)
    (hpad : PaddedBefore w ']' s.toList t.toList) : ofText t = .error (.unreadable t) := by
  obtain ⟨p, q, hs, ht⟩ := hpad
  rw [ofText_eq_empty_iff, hs] at h
  obtain ⟨hq, u, v, hu, hv, rfl⟩ := Literal.spelledAs_empty_split h
  have hpoint : Literal.ofText? t.toList = some (.point "empty".toList) := by
    rw [ht, List.append_assoc, List.cons_append, List.append_assoc]
    exact (Literal.ofText?_eq_afterBound hu hv (by decide)
      (takeWhile_blank_append hw (by decide))).trans
      (Literal.afterBound_point (by decide) (.inr hne) hw hq)
  rw [ofText_eq_error_iff, hpoint, Option.bind_some, Literal.value?, read?_word]
  exact ⟨rfl, rfl⟩

/-- White space before or after a bracket or the comma of a text that is read is skipped, with one
exception: the word for the empty set is only read directly before its bracket, and a text with
white space between these two is refused. -/
theorem ofText_padded (hw : IsBlankRun w) (hsep : sep ∈ ['[', ',', ']']) (h : ofText s = .ok i) :
    (PaddedAfter w sep s.toList t.toList → ofText t = .ok i) ∧
    (PaddedBefore w sep s.toList t.toList →
      (¬ (i = empty ∧ sep = ']' ∧ w ≠ []) → ofText t = .ok i) ∧
      (i = empty ∧ sep = ']' ∧ w ≠ [] → ofText t = .error (.unreadable t))) := by
  refine ⟨fun hpad ↦ ofText_of_padded hw hsep h (.inr hpad), fun hpad ↦ ⟨fun hno ↦ ?_, ?_⟩⟩
  · by_cases hw' : w = []
    · -- Nothing has been inserted.
      obtain ⟨p, q, hs, ht⟩ := hpad
      have hst : t = s := String.toList_injective (by rw [hs, ht, hw', List.nil_append])
      rw [hst, h]
    · exact ofText_of_padded hw hsep h (.inl ⟨hpad, fun hi hclose ↦ hno ⟨hi, hclose, hw'⟩⟩)
  · rintro ⟨rfl, rfl, hne⟩
    exact ofText_of_padded_empty hw hne h hpad

private theorem ofText_word : ofText "[empty]" = .ok empty := by
  rw [ofText_eq_ok_iff]
  decide +kernel

/-- A wide space before the comma and a space at the end are skipped, and a space between the word
for the empty set and its bracket is not. -/
theorem padded_of_texts :
    (ofText "[1,2]" = .ok ⟨1, 2⟩ ∧ IsBlankRun ['\u2003'] ∧
      PaddedBefore ['\u2003'] ',' "[1,2]".toList "[1\u2003,2]".toList ∧
      ofText "[1\u2003,2]" = .ok ⟨1, 2⟩) ∧
    (ofText "[empty]" = .ok empty ∧ IsBlankRun [' '] ∧
      PaddedAfter [' '] ']' "[empty]".toList "[empty] ".toList ∧ ofText "[empty] " = .ok empty ∧
      PaddedBefore [' '] ']' "[empty]".toList "[empty ]".toList ∧
      ofText "[empty ]" = .error (.unreadable "[empty ]")) := by
  have hbounds : ofText "[1,2]" = .ok ⟨1, 2⟩ := by
    rw [ofText_eq_ok_iff]
    decide +kernel
  have hwide : IsBlankRun ['\u2003'] := by decide
  have hspace : IsBlankRun [' '] := by decide
  have hcomma : PaddedBefore ['\u2003'] ',' "[1,2]".toList "[1\u2003,2]".toList :=
    ⟨['[', '1'], ['2', ']'], rfl, rfl⟩
  have hafter : PaddedAfter [' '] ']' "[empty]".toList "[empty] ".toList :=
    ⟨"[empty".toList, [], rfl, rfl⟩
  have hbefore : PaddedBefore [' '] ']' "[empty]".toList "[empty ]".toList :=
    ⟨"[empty".toList, [], rfl, rfl⟩
  exact ⟨⟨hbounds, hwide, hcomma,
      ((ofText_padded hwide (by decide) hbounds).2 hcomma).1 (by decide)⟩,
    ofText_word, hspace, hafter, (ofText_padded hspace (by decide) ofText_word).1 hafter, hbefore,
    ((ofText_padded hspace (by decide) ofText_word).2 hbefore).2 (by decide)⟩

/-- White space around separators is not always skipped: the text of the empty set is refused with a
space before its closing bracket. -/
theorem not_forall_padded :
    ¬ ∀ (w : List Char) (sep : Char) (s t : String) (i : Interval Float), IsBlankRun w →
      sep ∈ ['[', ',', ']'] → ofText s = .ok i →
      PaddedBefore w sep s.toList t.toList ∨ PaddedAfter w sep s.toList t.toList →
      ofText t = .ok i := by
  intro hall
  have hpadded := hall [' '] ']' "[empty]" "[empty ]" empty (by decide) (by decide) ofText_word
    (.inl ⟨"[empty".toList, [], rfl, rfl⟩)
  rw [ofText_eq_ok_iff] at hpadded
  exact absurd hpadded (by decide +kernel)

end AffineArithmetic.Interval

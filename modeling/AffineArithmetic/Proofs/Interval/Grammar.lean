import AffineArithmetic.Interval.Grammar
import AffineArithmetic.Proofs.Decimal.Text
import AffineArithmetic.Proofs.Interval.Proper

/-!
# Reading follows the grammar

Reading takes exactly the texts of the grammar. The shape of a text fixes where reading skips white
space and where a bound ends, and a text that has been read falls apart into the tokens of its
shape. The word for the empty set can be taken for a bound if white space separates it from its
bracket; no number is read from it then. Numbers that do not bound an interval of reals are refused
like any other text.
-/

namespace AffineArithmetic.Interval

open Decimal (takeWhile_run)
open Text (isBlank skipBlank)

variable {c : Char} {u v w x y z cs rest : List Char} {l : Literal} {a b : Float}
  {i : Interval Float}

/-! ### Runs of characters -/

/-- White space in front is skipped. -/
theorem skipBlank_append (hw : IsBlankRun w) (cs : List Char) :
    skipBlank (w ++ cs) = skipBlank cs := List.dropWhile_append_of_pos hw

/-- Nothing is skipped in front of another character. -/
theorem skipBlank_cons (hc : isBlank c = false) (cs : List Char) :
    skipBlank (c :: cs) = c :: cs := by
  apply List.dropWhile_cons_of_neg
  rw [hc]
  exact Bool.false_ne_true

/-- What is skipped is white space. -/
theorem exists_skipBlank (cs : List Char) : ∃ w, IsBlankRun w ∧ cs = w ++ skipBlank cs :=
  ⟨cs.takeWhile isBlank, fun _ ↦ List.mem_takeWhile_imp, List.takeWhile_append_dropWhile.symm⟩

/-- No bound reaches beyond white space or a separator. -/
theorem takeWhile_blank_append (hw : IsBlankRun w) (hc : isBoundChar c = false) :
    (w ++ c :: cs).takeWhile isBoundChar = [] := by
  cases w with
  | nil => simp [hc]
  | cons d w =>
    have hd : isBoundChar d = false := by
      rw [← Bool.not_eq_true, isBoundChar_iff, hw d List.mem_cons_self]
      simp
    simp [hd]

/-- A bound ends where white space or a separator follows. -/
theorem IsBoundRun.takeWhile (hx : IsBoundRun x) (hrest : rest.takeWhile isBoundChar = []) :
    (x ++ rest).takeWhile isBoundChar = x ∧ (x ++ rest).dropWhile isBoundChar = rest :=
  takeWhile_run rest (fun c hc ↦ isBoundChar_iff.mpr (hx.2 c hc)) hrest

/-- A bound does not start with white space. -/
theorem IsBoundRun.skipBlank (hx : IsBoundRun x) (cs : List Char) :
    Text.skipBlank (x ++ cs) = x ++ cs := by
  cases x with
  | nil => exact absurd rfl hx.1
  | cons c x => exact skipBlank_cons (hx.2 c List.mem_cons_self).2.2 (x ++ cs)

/-- What is taken as a bound can be one. -/
theorem isBoundRun_takeWhile (h : cs.takeWhile isBoundChar ≠ []) :
    IsBoundRun (cs.takeWhile isBoundChar) :=
  ⟨h, fun _ hc ↦ isBoundChar_iff.mp (List.mem_takeWhile_imp hc)⟩

/-- A text is closed if a bracket is followed by nothing but white space. -/
theorem isClosed_iff : isClosed cs = true ↔ ∃ w, IsBlankRun w ∧ cs = ']' :: w := by
  constructor
  · intro h
    unfold isClosed at h
    split at h
    · next w => exact ⟨w, List.all_eq_true.mp h, rfl⟩
    · contradiction
  · rintro ⟨w, hw, rfl⟩
    exact List.all_eq_true.mpr hw

/-- A text is not closed if white space or another character comes first. -/
theorem not_isClosed (hw : IsBlankRun w) (h : w ≠ [] ∨ c ≠ ']') :
    ¬ isClosed (w ++ c :: cs) = true := by
  intro hclosed
  cases w with
  | nil =>
    obtain ⟨_, -, heq⟩ := isClosed_iff.mp hclosed
    exact h.elim (absurd rfl) (absurd (List.cons.inj heq).1)
  | cons d w =>
    obtain ⟨_, -, heq⟩ := isClosed_iff.mp hclosed
    have hd : isBlank d = true := hw d List.mem_cons_self
    rw [(List.cons.inj heq).1] at hd
    exact absurd hd (by decide)

/-! ### Tokens -/

/-- Without tokens there is only white space. -/
theorem spaced_nil_iff : Spaced [] cs ↔ IsBlankRun cs := by
  constructor
  · rintro (hw | _)
    exact hw
  · exact .nil

/-- White space and a first token are followed by the other tokens. -/
theorem spaced_cons_iff {t : List Char} {ts : List (List Char)} :
    Spaced (t :: ts) cs ↔
      ∃ w rest, IsBlankRun w ∧ cs = w ++ (t ++ rest) ∧ Spaced ts rest := by
  constructor
  · rintro (_ | ⟨hw, h⟩)
    exact ⟨_, _, hw, rfl, h⟩
  · rintro ⟨w, rest, hw, rfl, h⟩
    exact .cons hw h

namespace Literal

/-- The texts of the empty set. -/
theorem spelledAs_empty_iff : empty.SpelledAs cs ↔
    ∃ u v w, IsBlankRun u ∧ IsBlankRun v ∧ IsBlankRun w ∧
      cs = u ++ '[' :: (v ++ ("empty".toList ++ ']' :: w)) := by
  constructor
  · rintro ⟨-, h⟩
    obtain ⟨u, _, hu, rfl, h1⟩ := spaced_cons_iff.mp h
    obtain ⟨v, w, hv, rfl, h2⟩ := spaced_cons_iff.mp h1
    exact ⟨u, v, w, hu, hv, spaced_nil_iff.mp h2, rfl⟩
  · rintro ⟨u, v, w, hu, hv, hw, rfl⟩
    exact ⟨nofun, .cons hu (.cons hv (.nil hw))⟩

/-- The texts of a point. -/
theorem spelledAs_point_iff : (point x).SpelledAs cs ↔
    IsBoundRun x ∧ ∃ u v z w, IsBlankRun u ∧ IsBlankRun v ∧ IsBlankRun z ∧ IsBlankRun w ∧
      cs = u ++ '[' :: (v ++ (x ++ (z ++ ']' :: w))) := by
  constructor
  · rintro ⟨hx, h⟩
    obtain ⟨u, _, hu, rfl, h1⟩ := spaced_cons_iff.mp h
    obtain ⟨v, _, hv, rfl, h2⟩ := spaced_cons_iff.mp h1
    obtain ⟨z, w, hz, rfl, h3⟩ := spaced_cons_iff.mp h2
    exact ⟨hx x List.mem_cons_self, u, v, z, w, hu, hv, hz, spaced_nil_iff.mp h3, rfl⟩
  · rintro ⟨hx, u, v, z, w, hu, hv, hz, hw, rfl⟩
    exact ⟨List.forall_mem_singleton.mpr hx, .cons hu (.cons hv (.cons hz (.nil hw)))⟩

/-- The texts of two bounds. -/
theorem spelledAs_bounds_iff : (bounds x y).SpelledAs cs ↔
    IsBoundRun x ∧ IsBoundRun y ∧ ∃ u v u' v' z w, IsBlankRun u ∧ IsBlankRun v ∧ IsBlankRun u' ∧
      IsBlankRun v' ∧ IsBlankRun z ∧ IsBlankRun w ∧
      cs = u ++ '[' :: (v ++ (x ++ (u' ++ ',' :: (v' ++ (y ++ (z ++ ']' :: w)))))) := by
  constructor
  · rintro ⟨hxy, h⟩
    obtain ⟨u, _, hu, rfl, h1⟩ := spaced_cons_iff.mp h
    obtain ⟨v, _, hv, rfl, h2⟩ := spaced_cons_iff.mp h1
    obtain ⟨u', _, hu', rfl, h3⟩ := spaced_cons_iff.mp h2
    obtain ⟨v', _, hv', rfl, h4⟩ := spaced_cons_iff.mp h3
    obtain ⟨z, w, hz, rfl, h5⟩ := spaced_cons_iff.mp h4
    exact ⟨hxy x List.mem_cons_self, hxy y (List.mem_cons_of_mem x List.mem_cons_self),
      u, v, u', v', z, w, hu, hv, hu', hv', hz, spaced_nil_iff.mp h5, rfl⟩
  · rintro ⟨hx, hy, u, v, u', v', z, w, hu, hv, hu', hv', hz, hw, rfl⟩
    exact ⟨List.forall_mem_cons.mpr ⟨hx, List.forall_mem_singleton.mpr hy⟩,
      .cons hu (.cons hv (.cons hu' (.cons hv' (.cons hz (.nil hw)))))⟩

/-! ### Texts that are read -/

/-- What is read up to the first bound. -/
theorem ofText?_eq_afterBound (hu : IsBlankRun u) (hv : IsBlankRun v) (hx : IsBoundRun x)
    (hrest : rest.takeWhile isBoundChar = []) :
    ofText? (u ++ ('[' :: (v ++ (x ++ rest)))) = afterBound x rest := by
  obtain ⟨htake, hdrop⟩ := hx.takeWhile hrest
  rw [ofText?, skipBlank_append hu, skipBlank_cons (by decide)]
  change afterBound ((skipBlank _).takeWhile isBoundChar) ((skipBlank _).dropWhile isBoundChar) = _
  rw [skipBlank_append hv, hx.skipBlank, htake, hdrop]

/-- The word for the empty set before its bracket. -/
theorem afterBound_word (hw : IsBlankRun w) :
    afterBound "empty".toList (']' :: w) = some empty := by
  rw [afterBound, if_neg (by decide), if_pos ⟨rfl, isClosed_iff.mpr ⟨w, hw, rfl⟩⟩]

/-- A bound before the last bracket. The word for the empty set counts as one if it is separated
from the bracket. -/
theorem afterBound_point (hx : x ≠ []) (hword : x ≠ "empty".toList ∨ v ≠ [])
    (hv : IsBlankRun v) (hw : IsBlankRun w) : afterBound x (v ++ ']' :: w) = some (point x) := by
  have hno : ¬ (x = "empty".toList ∧ isClosed (v ++ ']' :: w) = true) := by
    rintro ⟨hxe, hclosed⟩
    have hv' : v ≠ [] := hword.resolve_left (absurd hxe)
    exact not_isClosed hv (.inl hv') hclosed
  rw [afterBound, if_neg hx, if_neg hno, skipBlank_append hv, skipBlank_cons (by decide)]
  exact if_pos (isClosed_iff.mpr ⟨w, hw, rfl⟩)

/-- A bound before a comma and another bound. -/
theorem afterBound_bounds (hx : x ≠ []) (hu : IsBlankRun u) (hv : IsBlankRun v)
    (hy : IsBoundRun y) (hz : IsBlankRun z) (hw : IsBlankRun w) :
    afterBound x (u ++ ',' :: (v ++ (y ++ (z ++ ']' :: w)))) = some (bounds x y) := by
  obtain ⟨htake, hdrop⟩ :=
    hy.takeWhile (takeWhile_blank_append hz (show isBoundChar ']' = false by decide))
  have hno : ∀ r, ¬ (x = "empty".toList ∧ isClosed (u ++ ',' :: r) = true) :=
    fun r h ↦ not_isClosed hu (.inr (by decide)) h.2
  rw [afterBound, if_neg hx, if_neg (hno _), skipBlank_append hu, skipBlank_cons (by decide)]
  change (if (skipBlank (v ++ _)).takeWhile isBoundChar ≠ [] ∧
    isClosed (skipBlank ((skipBlank (v ++ _)).dropWhile isBoundChar)) = true then
      some (bounds _ ((skipBlank (v ++ _)).takeWhile isBoundChar)) else none) = _
  rw [skipBlank_append hv, hy.skipBlank, htake, hdrop, skipBlank_append hz,
    skipBlank_cons (by decide)]
  exact if_pos ⟨hy.1, isClosed_iff.mpr ⟨w, hw, rfl⟩⟩

/-- A text that spells a literal is read as this, but for the word for the empty set as a bound. -/
theorem SpelledAs.ofText?_eq (h : l.SpelledAs cs) (hl : l ≠ point "empty".toList) :
    ofText? cs = some l := by
  cases l with
  | empty =>
    obtain ⟨u, v, w, hu, hv, hw, rfl⟩ := spelledAs_empty_iff.mp h
    exact (ofText?_eq_afterBound hu hv (by decide) rfl).trans (afterBound_word hw)
  | point x =>
    obtain ⟨hx, u, v, z, w, hu, hv, hz, hw, rfl⟩ := spelledAs_point_iff.mp h
    have hword : x ≠ "empty".toList := fun hx ↦ hl (congrArg point hx)
    exact (ofText?_eq_afterBound hu hv hx (takeWhile_blank_append hz (by decide))).trans
      (afterBound_point hx.1 (.inl hword) hz hw)
  | bounds x y =>
    obtain ⟨hx, hy, u, v, u', v', z, w, hu, hv, hu', hv', hz, hw, rfl⟩ :=
      spelledAs_bounds_iff.mp h
    exact (ofText?_eq_afterBound hu hv hx (takeWhile_blank_append hu' (by decide))).trans
      (afterBound_bounds hx.1 hu' hv' hy hz hw)

/-- A text that is read goes on behind its first bound as its literal says. -/
theorem spelledAs_of_afterBound (hu : IsBlankRun u) (hv : IsBlankRun v) (hx : IsBoundRun x)
    (h : afterBound x rest = some l) : l.SpelledAs (u ++ '[' :: (v ++ (x ++ rest))) := by
  obtain ⟨z, hz, hrest⟩ := exists_skipBlank rest
  unfold afterBound at h
  split at h
  · contradiction
  split at h
  · next hword =>
    obtain ⟨w, hw, rfl⟩ := isClosed_iff.mp hword.2
    obtain rfl := Option.some.inj h
    rw [hword.1]
    exact spelledAs_empty_iff.mpr ⟨u, v, w, hu, hv, hw, rfl⟩
  split at h
  · next r hr =>
    dsimp only at h
    obtain ⟨v', hv', hr'⟩ := exists_skipBlank r
    obtain ⟨z', hz', hr''⟩ := exists_skipBlank ((skipBlank r).dropWhile isBoundChar)
    split at h
    · next hy =>
      obtain ⟨hy, hclosed⟩ := hy
      obtain ⟨w, hw, hend⟩ := isClosed_iff.mp hclosed
      obtain rfl := Option.some.inj h
      refine spelledAs_bounds_iff.mpr ⟨hx, isBoundRun_takeWhile hy, u, v, z, v', z', w, hu, hv, hz,
        hv', hz', hw, ?_⟩
      rw [← hend, ← hr'', List.takeWhile_append_dropWhile, ← hr', ← hr, ← hrest]
    · contradiction
  · split at h
    · next hclosed =>
      obtain ⟨w, hw, hend⟩ := isClosed_iff.mp hclosed
      obtain rfl := Option.some.inj h
      refine spelledAs_point_iff.mpr ⟨hx, u, v, z, w, hu, hv, hz, hw, ?_⟩
      rw [← hend, ← hrest]
    · contradiction

/-- A text that is read spells what it is read as. -/
theorem spelledAs_of_ofText? (h : ofText? cs = some l) : l.SpelledAs cs := by
  obtain ⟨u, hu, hcs⟩ := exists_skipBlank cs
  unfold ofText? at h
  split at h
  · next r hr =>
    obtain ⟨v, hv, hr'⟩ := exists_skipBlank r
    have hx : (skipBlank r).takeWhile isBoundChar ≠ [] := by
      intro hx
      rw [afterBound, if_pos hx] at h
      contradiction
    have hl := spelledAs_of_afterBound hu hv (isBoundRun_takeWhile hx) h
    rwa [List.takeWhile_append_dropWhile, ← hr', ← hr, ← hcs] at hl
  · contradiction

end Literal

/-! ### Intervals that are read -/

/-- No number is read from the word for the empty set. -/
theorem read?_word : Decimal.read? "empty".toList = none := by decide +kernel

/-- A text that denotes two numbers is read as the interval between them, if there is one. -/
theorem Denotes.bind_value? (h : Denotes cs a b) :
    (Literal.ofText? cs).bind Literal.value? = ofBounds? a b := by
  cases h with
  | @point x a hl ha =>
    have hword : Literal.point x ≠ .point "empty".toList := by
      rintro ⟨⟩
      rw [read?_word] at ha
      contradiction
    rw [hl.ofText?_eq hword, Option.bind_some, Literal.value?, ha]
    rfl
  | bounds hl ha hb =>
    rw [hl.ofText?_eq nofun, Option.bind_some, Literal.value?, ha, hb]
    rfl

/-- A text that is read spells the empty set or denotes the bounds of the interval. -/
theorem spelledAs_or_denotes (h : (Literal.ofText? cs).bind Literal.value? = some i) :
    (i = empty ∧ Literal.empty.SpelledAs cs) ∨
      (InOrder i.lower i.upper ∧ Denotes cs i.lower i.upper) := by
  obtain ⟨l, hl, hi⟩ := Option.bind_eq_some_iff.mp h
  have hs := Literal.spelledAs_of_ofText? hl
  cases l with
  | empty => exact .inl ⟨(Option.some.inj hi).symm, hs⟩
  | point x =>
    obtain ⟨a, ha, hi⟩ := Option.bind_eq_some_iff.mp hi
    obtain ⟨ho, rfl⟩ := ofBounds?_eq_some_iff.mp hi
    exact .inr ⟨ho, .point hs ha⟩
  | bounds x y =>
    obtain ⟨a, ha, hi⟩ := Option.bind_eq_some_iff.mp hi
    obtain ⟨b, hb, hi⟩ := Option.bind_eq_some_iff.mp hi
    obtain ⟨ho, rfl⟩ := ofBounds?_eq_some_iff.mp hi
    exact .inr ⟨ho, .bounds hs ha hb⟩

variable {s : String}

/-- A text is read as the empty set if it spells this. -/
theorem ofText_eq_empty_iff : ofText s = .ok empty ↔ Literal.empty.SpelledAs s.toList := by
  rw [ofText_eq_ok_iff]
  constructor
  · intro h
    rcases spelledAs_or_denotes h with ⟨-, hs⟩ | ⟨ho, -⟩
    · exact hs
    · have hne := isEmpty_of_inOrder ho
      rw [isEmpty_empty] at hne
      contradiction
  · intro hs
    rw [hs.ofText?_eq nofun]
    rfl

/-- A text is read as two bounds if it denotes these and they are in order. -/
theorem ofText_eq_bounds_iff (hi : i ≠ empty) :
    ofText s = .ok i ↔ InOrder i.lower i.upper ∧ Denotes s.toList i.lower i.upper := by
  rw [ofText_eq_ok_iff]
  constructor
  · intro h
    exact (spelledAs_or_denotes h).resolve_left fun he ↦ hi he.1
  · rintro ⟨ho, hd⟩
    rw [hd.bind_value?]
    exact ofBounds?_eq_some_iff.mpr ⟨ho, rfl⟩

/-- A text is refused if it neither spells the empty set nor denotes bounds in order. -/
theorem ofText_eq_error_iff_grammar {f : Fault} : ofText s = .error f ↔
    f = .unreadable s ∧ ¬ Literal.empty.SpelledAs s.toList ∧
      ∀ a b, InOrder a b → ¬ Denotes s.toList a b := by
  rw [ofText_eq_error_iff, Option.eq_none_iff_forall_ne_some]
  refine and_congr_right fun _ ↦ ⟨fun h ↦ ⟨fun hs ↦ ?_, fun a b ho hd ↦ ?_⟩, fun h i hi ↦ ?_⟩
  · exact h empty (ofText_eq_ok_iff.mp (ofText_eq_empty_iff.mpr hs))
  · exact h ⟨a, b⟩ (hd.bind_value?.trans (ofBounds?_eq_some_iff.mpr ⟨ho, rfl⟩))
  · rcases spelledAs_or_denotes hi with ⟨-, hs⟩ | ⟨ho, hd⟩
    · exact h.1 hs
    · exact h.2 _ _ ho hd

/-- A text that denotes numbers that bound no interval is refused. -/
theorem ofText_of_not_inOrder (hd : Denotes s.toList a b) (ho : ¬ InOrder a b) :
    ofText s = .error (.unreadable s) := by
  rw [ofText_eq_error_iff, hd.bind_value?, Option.eq_none_iff_forall_ne_some]
  exact ⟨rfl, fun i hi ↦ ho (ofBounds?_eq_some_iff.mp hi).1⟩

/-- Reading takes exactly the grammar. A text is read as the empty set if it spells this, and as two
bounds if it denotes these and they are in order. Every other text is reported as it is, and so is
one that denotes numbers out of order, undefined or beyond the reals. -/
theorem ofText_iff_grammar (s : String) :
    (ofText s = .ok empty ↔ Literal.empty.SpelledAs s.toList) ∧
    (∀ i, i ≠ empty →
      (ofText s = .ok i ↔ InOrder i.lower i.upper ∧ Denotes s.toList i.lower i.upper)) ∧
    (∀ f, ofText s = .error f ↔ f = .unreadable s ∧ ¬ Literal.empty.SpelledAs s.toList ∧
      ∀ a b, InOrder a b → ¬ Denotes s.toList a b) ∧
    ∀ a b, Denotes s.toList a b → ¬ InOrder a b → ofText s = .error (.unreadable s) :=
  ⟨ofText_eq_empty_iff, fun _ ↦ ofText_eq_bounds_iff, fun _ ↦ ofText_eq_error_iff_grammar,
    fun _ _ ↦ ofText_of_not_inOrder⟩

/-- White space of several kinds around the bounds is skipped, and the point at infinity is
refused. -/
theorem grammar_of_infinity :
    (⟨-0.0, Scalar.infinity⟩ : Interval Float) ≠ empty ∧
      ofText "\u2003[ -0\u3000,inf ]" = .ok ⟨-0.0, Scalar.infinity⟩ ∧
      Denotes "\u2003[ -0\u3000,inf ]".toList (-0.0) Scalar.infinity ∧
      Denotes "[ inf ]".toList Scalar.infinity Scalar.infinity ∧
      ¬ InOrder (Scalar.infinity : Float) Scalar.infinity ∧
      ofText "[ inf ]" = .error (.unreadable "[ inf ]") := by
  have hne : (⟨-0.0, Scalar.infinity⟩ : Interval Float) ≠ empty := by decide +kernel
  have hread : ofText "\u2003[ -0\u3000,inf ]" = .ok ⟨-0.0, Scalar.infinity⟩ := by
    rw [ofText_eq_ok_iff]
    decide +kernel
  have hspelled : (Literal.point "inf".toList).SpelledAs "[ inf ]".toList :=
    Literal.spelledAs_point_iff.mpr ⟨by decide, [], [' '], [' '], [],
      by decide, by decide, by decide, by decide, rfl⟩
  have hinf : Denotes "[ inf ]".toList Scalar.infinity Scalar.infinity :=
    .point hspelled (by decide +kernel)
  have ho : ¬ InOrder (Scalar.infinity : Float) Scalar.infinity := fun ho ↦
    absurd ho.2.1 (by decide +kernel)
  obtain ⟨-, hdenotes, -, -⟩ := ofText_iff_grammar "\u2003[ -0\u3000,inf ]"
  obtain ⟨-, -, -, hrefused⟩ := ofText_iff_grammar "[ inf ]"
  exact ⟨hne, hread, ((hdenotes _ hne).mp hread).2, hinf, ho, hrefused _ _ hinf ho⟩

end AffineArithmetic.Interval

import AffineArithmetic.Interval.Proper
import AffineArithmetic.Interval.Reachable
import AffineArithmetic.Proofs.Binary64.Scalar

/-!
# Proper binary64 intervals

Every interval that comes about by constructing and computing is the empty one, or has bounds in
order that are numbers. Results are empty only if an operand is, since bounds that overflow are
pulled back, and sums and products of intervals with an infinite end have one too.
-/

namespace AffineArithmetic.Interval

open Binary64 Scalar

variable {i j : Interval Float} {l u : Float}

/-! ### Bounds in order -/

/-- Bounds are in order as their values are. -/
theorem inOrder_iff :
    InOrder l u ↔ value l ≤ value u ∧ value l ≠ .posInf ∧ value u ≠ .negInf := by
  have hl : (l != infinity) = true ↔ value l ≠ .posInf := by
    rw [bne, Bool.not_eq_true', ← Bool.not_eq_true, beq_infinity_iff]
  have hu : (u != -infinity) = true ↔ value u ≠ .negInf := by
    rw [bne, Bool.not_eq_true', ← Bool.not_eq_true, beq_neg_infinity_iff]
  rw [InOrder, le_iff, hl, hu]

/-- Bounds in order are numbers. -/
theorem isNaN_of_inOrder (h : InOrder l u) : l.isNaN = false ∧ u.isNaN = false := by
  obtain ⟨hl, hu⟩ := Extended.ne_nan_of_le (inOrder_iff.mp h).1
  rw [← Bool.not_eq_true, ← Bool.not_eq_true, isNaN_iff, isNaN_iff]
  exact ⟨hl, hu⟩

/-- Bounds are crossed as their values are. -/
theorem isEmpty_iff_lt : i.isEmpty = true ↔ value i.upper < value i.lower := by
  rw [isEmpty, decide_eq_true_iff, lt_iff]

/-- The empty interval is empty. -/
@[simp] theorem isEmpty_empty : (empty : Interval Float).isEmpty = true := by
  rw [isEmpty_iff_lt, empty, value_neg, value_infinity]
  exact ⟨Extended.negInf_le_posInf, by simp⟩

/-- An interval with bounds in order is not empty. -/
theorem isEmpty_of_inOrder (h : InOrder i.lower i.upper) : i.isEmpty = false := by
  rw [← Bool.not_eq_true, isEmpty_iff_lt]
  exact Extended.not_lt_of_le (inOrder_iff.mp h).1

/-- A proper interval is empty only if it is the empty one. -/
theorem IsProper.isEmpty_iff (h : IsProper i) : i.isEmpty = true ↔ i = empty := by
  constructor
  · intro he
    refine h.resolve_right fun ho ↦ ?_
    rw [isEmpty_of_inOrder ho] at he
    contradiction
  · rintro rfl
    exact isEmpty_empty

/-- A proper interval that is not empty has bounds in order. -/
theorem IsProper.inOrder (h : IsProper i) (hne : i.isEmpty = false) : InOrder i.lower i.upper := by
  refine h.resolve_left ?_
  rintro rfl
  rw [isEmpty_empty] at hne
  contradiction

/-- Bounds of proper intervals are numbers. -/
theorem IsProper.ne_nan (h : IsProper i) : value i.lower ≠ .nan ∧ value i.upper ≠ .nan := by
  rcases h with rfl | h
  · rw [empty, value_neg, value_infinity]
    exact ⟨by simp, by simp⟩
  · exact Extended.ne_nan_of_le (inOrder_iff.mp h).1

/-- The constructor keeps bounds in order. -/
theorem ofBounds_eq_of_inOrder (h : InOrder l u) :
    (ofBounds l u).isEmpty = false ∧ (ofBounds l u).lower = l ∧ (ofBounds l u).upper = u := by
  rw [ofBounds_of_inOrder h]
  exact ⟨isEmpty_of_inOrder h, rfl, rfl⟩

/-! ### Ends -/

/-- An interval reaches down without end if its lower bound does. -/
theorem isUnboundedBelow_iff (h : i.isEmpty = false) :
    i.isUnboundedBelow = true ↔ value i.lower = .negInf := by
  rw [isUnboundedBelow, h, Bool.not_false, Bool.true_and, beq_neg_infinity_iff]

/-- An interval reaches up without end if its upper bound does. -/
theorem isUnboundedAbove_iff (h : i.isEmpty = false) :
    i.isUnboundedAbove = true ↔ value i.upper = .posInf := by
  rw [isUnboundedAbove, h, Bool.not_false, Bool.true_and, beq_infinity_iff]

/-- An interval has an infinite end if one of its bounds is infinite. -/
theorem isUnbounded_iff (h : i.isEmpty = false) :
    i.isUnbounded = true ↔ value i.lower = .negInf ∨ value i.upper = .posInf := by
  rw [isUnbounded, Bool.or_eq_true, isUnboundedBelow_iff h, isUnboundedAbove_iff h]

/-- An interval is bounded if it is not empty and has no infinite end. -/
theorem isBounded_iff : i.isBounded = true ↔ i.isEmpty = false ∧ i.isUnbounded = false := by
  rw [isBounded, Bool.and_eq_true, Bool.not_eq_true', Bool.not_eq_true']

/-- The bounds of a proper bounded interval are rational numbers in order. -/
theorem IsProper.exists_of_isBounded (h : IsProper i) (hb : i.isBounded = true) :
    ∃ p q, value i.lower = .finite p ∧ value i.upper = .finite q ∧ p ≤ q := by
  obtain ⟨hne, hub⟩ := isBounded_iff.mp hb
  obtain ⟨hle, hl, hu⟩ := inOrder_iff.mp (h.inOrder hne)
  rw [← Bool.not_eq_true, isUnbounded_iff hne, not_or] at hub
  cases hvl : value i.lower with
  | nan => exact absurd hvl (Extended.ne_nan_of_le hle).1
  | negInf => exact absurd hvl hub.1
  | posInf => exact absurd hvl hl
  | finite p =>
    cases hvu : value i.upper with
    | nan => exact absurd hvu (Extended.ne_nan_of_le hle).2
    | negInf => exact absurd hvu hu
    | posInf => exact absurd hvu hub.2
    | finite q =>
      rw [hvl, hvu] at hle
      exact ⟨p, q, rfl, rfl, hle⟩

/-! ### Operations -/

/-- Absolute values are proper. -/
theorem isProper_abs (i : Interval Float) : IsProper i.abs := by
  unfold abs
  split
  · exact .inl rfl
  · exact isProper_ofBounds _ _

/-- The real line is proper. -/
theorem isProper_univ : IsProper (univ : Interval Float) := by
  refine .inr (inOrder_iff.mpr ?_)
  rw [univ, value_neg, value_infinity]
  exact ⟨by simp, by simp, by simp⟩

/-- The point 1 is proper. -/
theorem isProper_one : IsProper (one : Interval Float) := by
  refine .inr (inOrder_iff.mpr ?_)
  rw [one, value_one]
  exact ⟨le_refl (1 : ℚ), by simp, by simp⟩

/-- The interval of a scalar is proper. -/
theorem isProper_ofScalar (x : Float) : IsProper (ofScalar x) := by
  unfold ofScalar
  split
  · next h =>
    obtain ⟨q, hq⟩ := Binary64.isFinite_iff.mp h
    refine .inr (inOrder_iff.mpr ?_)
    rw [hq]
    exact ⟨le_refl q, by simp, by simp⟩
  · split
    · exact isProper_ofBounds _ _
    · split
      · exact isProper_ofBounds _ _
      · exact isProper_univ

/-- Opposites of proper intervals are proper. -/
theorem IsProper.neg (h : IsProper i) : IsProper (-i) := by
  change IsProper (if i.isEmpty then i else ⟨-i.upper, -i.lower⟩)
  split
  · exact h
  · next he =>
    rw [Bool.not_eq_true] at he
    obtain ⟨hle, hl, hu⟩ := inOrder_iff.mp (h.inOrder he)
    refine .inr (inOrder_iff.mpr ?_)
    rw [value_neg, value_neg]
    exact ⟨Extended.neg_le_neg hle, by simpa using hu, by simpa using hl⟩

/-- Powers of proper intervals are proper. -/
theorem IsProper.pow (h : IsProper i) (n : ℕ) : IsProper (i.pow n) := by
  unfold Interval.pow
  split
  · exact .inl rfl
  split
  · exact isProper_one
  split
  · exact h
  split
  · exact isProper_outward _ _
  · exact isProper_outward _ _

/-- Two numbers bound an interval if they are in order. -/
theorem ofBounds?_eq_some_iff : ofBounds? l u = some i ↔ InOrder l u ∧ i = ⟨l, u⟩ := by
  unfold ofBounds?
  by_cases ho : InOrder l u
  · have hne : (⟨l, u⟩ : Interval Float).isEmpty = false := isEmpty_of_inOrder ho
    rw [ofBounds_of_inOrder ho, hne, if_neg Bool.false_ne_true, Option.some_inj, eq_comm,
      and_iff_right ho]
  · rw [ofBounds_of_not_inOrder ho, isEmpty_empty, if_pos rfl]
    exact iff_of_false nofun fun h ↦ ho h.1

/-- A text is read as the interval that its literal denotes. -/
theorem ofText_eq_ok_iff {s : String} :
    ofText s = .ok i ↔ (Literal.ofText? s.toList).bind Literal.value? = some i := by
  unfold ofText
  cases (Literal.ofText? s.toList).bind Literal.value? <;> simp

/-- The fault of a text that denotes no interval is the text itself. -/
theorem ofText_eq_error_iff {s : String} {f : Fault} : ofText s = .error f ↔
    f = .unreadable s ∧ (Literal.ofText? s.toList).bind Literal.value? = none := by
  unfold ofText
  cases (Literal.ofText? s.toList).bind Literal.value? <;> simp [eq_comm]

/-- The intervals that texts denote are proper. -/
theorem isProper_of_ofText {s : String} (h : ofText s = .ok i) : IsProper i := by
  obtain ⟨t, -, ht⟩ := Option.bind_eq_some_iff.mp (ofText_eq_ok_iff.mp h)
  cases t with
  | empty => exact .inl (Option.some.inj ht).symm
  | point x =>
    obtain ⟨a, -, ha⟩ := Option.bind_eq_some_iff.mp ht
    obtain ⟨ho, rfl⟩ := ofBounds?_eq_some_iff.mp ha
    exact .inr ho
  | bounds x y =>
    obtain ⟨a, -, ha⟩ := Option.bind_eq_some_iff.mp ht
    obtain ⟨b, -, hb⟩ := Option.bind_eq_some_iff.mp ha
    obtain ⟨ho, rfl⟩ := ofBounds?_eq_some_iff.mp hb
    exact .inr ho

/-- Intervals that come about by constructing and computing are proper. -/
theorem Reachable.isProper (h : Reachable i) : IsProper i := by
  induction h with
  | ofBounds l u => exact isProper_ofBounds l u
  | ofScalar x => exact isProper_ofScalar x
  | empty => exact .inl rfl
  | univ => exact isProper_univ
  | zero =>
    refine .inr (inOrder_iff.mpr ?_)
    rw [Interval.zero, value_zero]
    exact ⟨le_refl (0 : ℚ), by simp, by simp⟩
  | one => exact isProper_one
  | noise =>
    refine .inr (inOrder_iff.mpr ?_)
    rw [Interval.noise, value_neg, value_one]
    exact ⟨by norm_num, by simp, by simp⟩
  | ofText h => exact isProper_of_ofText h
  | neg hi ih => exact ih.neg
  | abs hi ih => exact isProper_abs _
  | add hi hj => exact isProper_add _ _
  | sub hi hj => exact isProper_add _ _
  | mul hi hj => exact isProper_mul _ _
  | pow hi n ih => exact ih.pow n

/-- The intervals that come about are all proper ones: the constructor takes any bounds in order. -/
theorem reachable_iff_isProper : Reachable i ↔ IsProper i := by
  constructor
  · exact Reachable.isProper
  · rintro (rfl | h)
    · exact .empty
    · have hr := Reachable.ofBounds i.lower i.upper
      rwa [ofBounds_of_inOrder h] at hr

end AffineArithmetic.Interval

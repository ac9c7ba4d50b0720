import Mathlib.Data.Set.NAry
import Mathlib.Order.Bounds.Defs
import AffineArithmetic.Proofs.Interval.Scalar
import AffineArithmetic.Proofs.Scalar.Ordered

/-!
# The range of an operation on intervals

The results of an operation on the numbers between the bounds of its operands, infinite ones
included, have a smallest and a largest one, and these are the bounds that the operation computes.
So the interval of the results contains each of them and is never empty. Nothing here asks the
arithmetic to be exact: it is enough that rounding keeps the order.
-/

namespace AffineArithmetic.Interval

open Scalar

variable {α : Type} [Scalar α] {i j : Interval α} {a b c d l u x y : α}

/-- The numbers between the bounds. -/
def elements (i : Interval α) : Set α := {x | i.contains x = true}

/-- The sums of two sets of numbers, as far as they are defined. -/
def sums (s t : Set α) : Set α := Set.image2 (· + ·) s t \ {nan}

/-- The products of two sets of numbers, where 0 absorbs the infinities. -/
def products (s t : Set α) : Set α := Set.image2 mulBounds s t

/-- The lower bound of an arithmetic result: infinity moves back onto the finite numbers. -/
def pulledDown (l : α) : α := if l == infinity then maxFinite else l

/-- The interval goes from the smallest to the largest element of the set, up to the overflow that
moves back. -/
def Spans (k : Interval α) (s : Set α) : Prop :=
  ∃ l u, IsLeast s l ∧ IsGreatest s u ∧ k = outward l u

/-- The operation on intervals computes the range of an operation on numbers. -/
structure IsRange (f : Interval α → Interval α) (g : α → α) : Prop where
  spans {i : Interval α} : InOrder i.lower i.upper → Spans (f i) (g '' i.elements)
  of_empty : f empty = empty

/-- The operation on two intervals computes the range of an operation on sets of numbers. -/
structure IsRange₂ (f : Interval α → Interval α → Interval α) (g : Set α → Set α → Set α) :
    Prop where
  spans {i j : Interval α} : InOrder i.lower i.upper → InOrder j.lower j.upper →
    Spans (f i j) (g i.elements j.elements)
  of_empty {i j : Interval α} : i = empty ∨ j = empty → f i j = empty
  /-- More operands have more results. -/
  mono {s s' t t' : Set α} : s ⊆ s' → t ⊆ t' → g s t ⊆ g s' t'

/-- The elements are the numbers between the bounds. -/
theorem mem_elements : x ∈ i.elements ↔ i.lower ≤ x ∧ x ≤ i.upper := decide_eq_true_iff

variable [OrderedScalar α]

/-! ### Computed bounds -/

/-- Bounds are in order if they are comparable and not the infinities of the other side. -/
theorem inOrder_iff_ne : InOrder l u ↔ l ≤ u ∧ l ≠ infinity ∧ u ≠ -infinity := by
  rw [InOrder]
  apply and_congr_right
  intro h
  obtain ⟨hl, hu⟩ := LawfulScalar.ne_nan_of_le h
  rw [bne, bne, Bool.not_eq_true', Bool.not_eq_true', ← Bool.not_eq_true, ← Bool.not_eq_true,
    LawfulScalar.beq_iff, LawfulScalar.beq_iff, and_iff_left hl, and_iff_left hu]

/-- Moving back makes no bound larger. -/
theorem pulledDown_le (h : l ≠ nan) : pulledDown l ≤ l := by
  unfold pulledDown
  split
  · next hi =>
    rw [(LawfulScalar.beq_iff.mp hi).1]
    exact LawfulScalar.le_infinity
      (LawfulScalar.ne_nan_of_isFinite OrderedScalar.isFinite_maxFinite)
  · exact LawfulScalar.le_rfl h

/-- No bound is infinity after moving back. -/
theorem pulledDown_ne_infinity (l : α) : pulledDown l ≠ infinity := by
  unfold pulledDown
  split
  · exact (OrderedScalar.ne_infinity_of_isFinite OrderedScalar.isFinite_maxFinite).1
  · next h =>
    rintro rfl
    exact h (LawfulScalar.beq_self_iff.mpr LawfulScalar.infinity_ne_nan)

/-- Computed bounds in order make an interval that includes all between them. -/
theorem outward_of_le (h : l ≤ u) : outward l u = ⟨pulledDown l, -pulledDown (-u)⟩ := by
  obtain ⟨hl, hu⟩ := LawfulScalar.ne_nan_of_le h
  have hup : (if u == -infinity then -maxFinite else u) = -pulledDown (-u) := by
    rw [pulledDown, apply_ite (-·), LawfulScalar.neg_neg, LawfulScalar.neg_beq]
  have hle : u ≤ -pulledDown (-u) := by
    rw [← LawfulScalar.neg_le_neg_iff, LawfulScalar.neg_neg]
    exact pulledDown_le (LawfulScalar.neg_eq_nan.not.mpr hu)
  rw [outward, hup]
  apply ofBounds_of_inOrder
  rw [inOrder_iff_ne]
  refine ⟨LawfulScalar.le_trans (pulledDown_le hl) (LawfulScalar.le_trans h hle),
    pulledDown_ne_infinity l, ?_⟩
  rw [Ne, LawfulScalar.neg_inj]
  exact pulledDown_ne_infinity (-u)

/-- What lies between computed bounds lies in their interval. -/
theorem contains_outward (hl : l ≤ x) (hu : x ≤ u) : (outward l u).contains x = true := by
  have h := LawfulScalar.le_trans hl hu
  rw [outward_of_le h]
  apply mem_elements.mpr
  constructor
  · exact LawfulScalar.le_trans (pulledDown_le (LawfulScalar.ne_nan_of_le h).1) hl
  · rw [← LawfulScalar.neg_le_neg_iff, LawfulScalar.neg_neg]
    exact LawfulScalar.le_trans
      (pulledDown_le (LawfulScalar.neg_eq_nan.not.mpr (LawfulScalar.ne_nan_of_le h).2))
      (LawfulScalar.neg_le_neg hu)

/-- An interval with an element is not empty. -/
theorem isEmpty_of_contains (h : i.contains x = true) : i.isEmpty = false := by
  obtain ⟨hl, hu⟩ := mem_elements.mp h
  exact isEmpty_of_le (LawfulScalar.le_trans hl hu)

/-- Bounds in order are the extreme elements. -/
theorem extreme_elements (h : InOrder i.lower i.upper) :
    IsLeast i.elements i.lower ∧ IsGreatest i.elements i.upper := by
  obtain ⟨hl, hu⟩ := LawfulScalar.ne_nan_of_le h.1
  constructor
  · exact ⟨mem_elements.mpr ⟨LawfulScalar.le_rfl hl, h.1⟩, fun x hx ↦ (mem_elements.mp hx).1⟩
  · exact ⟨mem_elements.mpr ⟨h.1, LawfulScalar.le_rfl hu⟩, fun x hx ↦ (mem_elements.mp hx).2⟩

/-- Elements are not undefined. -/
theorem ne_nan_of_mem_elements (h : x ∈ i.elements) : x ≠ nan :=
  (LawfulScalar.ne_nan_of_le (mem_elements.mp h).1).2

/-! ### Intervals that span a set -/

section Spans

variable {k : Interval α} {s : Set α}

/-- An interval that spans a set contains each of its elements. -/
theorem Spans.contains (h : Spans k s) (ha : a ∈ s) : k.contains a = true := by
  obtain ⟨l, u, hl, hu, rfl⟩ := h
  exact contains_outward (hl.2 ha) (hu.2 ha)

/-- An interval that spans a set is not empty. -/
theorem Spans.isEmpty (h : Spans k s) : k.isEmpty = false := by
  obtain ⟨l, u, hl, hu, hk⟩ := id h
  exact isEmpty_of_contains (h.contains hl.1)

end Spans

/-- A proper interval with an element has bounds in order. -/
theorem IsProper.inOrder_of_contains (h : i.IsProper) (hx : i.contains x = true) :
    InOrder i.lower i.upper := h.inOrder_of_isEmpty (isEmpty_of_contains hx)

/-- Opposites of proper intervals are proper. -/
theorem isProper_neg (h : i.IsProper) : (-i).IsProper := by
  rcases h with rfl | h
  · exact .inl neg_empty
  · rw [neg_of_isEmpty_eq_false (isEmpty_of_le h.1)]
    exact .inr (inOrder_neg.mpr h)

/-- A proper interval lies within itself. -/
theorem IsProper.isSubset_self (h : i.IsProper) : i.isSubset i = true := by
  rw [isSubset]
  rcases h with rfl | ⟨hle, -, -⟩
  · rw [empty_isEmpty, Bool.true_or]
  · obtain ⟨hl, hu⟩ := LawfulScalar.ne_nan_of_le hle
    rw [decide_eq_true ⟨LawfulScalar.le_rfl hl, LawfulScalar.le_rfl hu⟩, Bool.or_true]

section IsRange

variable {f : Interval α → Interval α} {g : α → α}

/-- The result of an operation on a proper interval contains the results on its elements. -/
theorem IsRange.contains (h : IsRange f g) (hi : i.IsProper) (hx : i.contains x = true) :
    (f i).contains (g x) = true :=
  (h.spans (hi.inOrder_of_contains hx)).contains (Set.mem_image_of_mem g hx)

/-- The result of an operation on a proper interval is empty only if the interval is. -/
theorem IsRange.isEmpty (h : IsRange f g) (hi : i.IsProper) : (f i).isEmpty = i.isEmpty := by
  rcases hi with rfl | hi
  · rw [h.of_empty]
  · rw [(h.spans hi).isEmpty, isEmpty_of_le hi.1]

end IsRange

/-- The result of an operation on proper intervals is empty only if one of them is. -/
theorem IsRange₂.isEmpty {f : Interval α → Interval α → Interval α} {g : Set α → Set α → Set α}
    (h : IsRange₂ f g) (hi : i.IsProper) (hj : j.IsProper) :
    (f i j).isEmpty = (i.isEmpty || j.isEmpty) := by
  rcases hi with rfl | hi
  · rw [h.of_empty (.inl rfl), empty_isEmpty, Bool.true_or]
  rcases hj with rfl | hj
  · rw [h.of_empty (.inr rfl), empty_isEmpty, Bool.or_true]
  · rw [(h.spans hi hj).isEmpty, isEmpty_of_le hi.1, isEmpty_of_le hj.1, Bool.or_false]

omit [OrderedScalar α] in
-- A function that keeps the order takes extreme elements to extreme elements.
private theorem extreme_image {g : α → α} {s : Set α} (hl : IsLeast s l) (hu : IsGreatest s u)
    (hg : ∀ {a b}, a ∈ s → a ≤ b → g a ≤ g b) :
    IsLeast (g '' s) (g l) ∧ IsGreatest (g '' s) (g u) := by
  constructor
  · refine ⟨Set.mem_image_of_mem g hl.1, ?_⟩
    rintro _ ⟨a, ha, rfl⟩
    exact hg hl.1 (hl.2 ha)
  · refine ⟨Set.mem_image_of_mem g hu.1, ?_⟩
    rintro _ ⟨a, ha, rfl⟩
    exact hg ha (hu.2 ha)

/-! ### Opposites and sums -/

/-- The opposite interval is the range of the opposites. -/
theorem isRange_neg : IsRange (α := α) (-·) (-·) where
  spans {i} h := by
    obtain ⟨hl, hu⟩ := extreme_elements h
    refine ⟨-i.upper, -i.lower, ⟨Set.mem_image_of_mem _ hu.1, ?_⟩,
      ⟨Set.mem_image_of_mem _ hl.1, ?_⟩, ?_⟩
    · rintro _ ⟨x, hx, rfl⟩
      exact LawfulScalar.neg_le_neg (hu.2 hx)
    · rintro _ ⟨x, hx, rfl⟩
      exact LawfulScalar.neg_le_neg (hl.2 hx)
    · rw [outward_of_inOrder (inOrder_neg.mpr h)]
      exact neg_of_isEmpty_eq_false (isEmpty_of_le h.1)
  of_empty := neg_empty

/-- Bounds on one side add up, since only infinities of opposite signs have no sum. -/
theorem add_bounds_ne_nan (hi : InOrder i.lower i.upper) (hj : InOrder j.lower j.upper) :
    i.lower + j.lower ≠ nan ∧ i.upper + j.upper ≠ nan := by
  obtain ⟨hle, hl, hu⟩ := inOrder_iff_ne.mp hi
  obtain ⟨hle', hl', hu'⟩ := inOrder_iff_ne.mp hj
  obtain ⟨hn, hn'⟩ := LawfulScalar.ne_nan_of_le hle
  obtain ⟨hm, hm'⟩ := LawfulScalar.ne_nan_of_le hle'
  constructor
  · exact OrderedScalar.add_ne_nan hn hm hl hl'
  · rw [Ne, ← LawfulScalar.neg_eq_nan, LawfulScalar.neg_add]
    apply OrderedScalar.add_ne_nan
    · exact LawfulScalar.neg_eq_nan.not.mpr hn'
    · exact LawfulScalar.neg_eq_nan.not.mpr hm'
    · rwa [Ne, LawfulScalar.neg_eq_iff]
    · rwa [Ne, LawfulScalar.neg_eq_iff]

/-- The sum is the range of the sums. -/
theorem isRange_add : IsRange₂ (α := α) (· + ·) sums where
  spans {i j} hi hj := by
    obtain ⟨hmin, hmax⟩ := extreme_elements hi
    obtain ⟨hmin', hmax'⟩ := extreme_elements hj
    obtain ⟨hn, hn'⟩ := add_bounds_ne_nan hi hj
    refine ⟨i.lower + j.lower, i.upper + j.upper,
      ⟨⟨Set.mem_image2_of_mem hmin.1 hmin'.1, hn⟩, ?_⟩,
      ⟨⟨Set.mem_image2_of_mem hmax.1 hmax'.1, hn'⟩, ?_⟩,
      add_of_isEmpty_eq_false (isEmpty_of_le hi.1) (isEmpty_of_le hj.1)⟩
    · rintro _ ⟨⟨x, hx, y, hy, rfl⟩, hxy⟩
      exact OrderedScalar.add_le_add (hmin.2 hx) (hmin'.2 hy) hn hxy
    · rintro _ ⟨⟨x, hx, y, hy, rfl⟩, hxy⟩
      exact OrderedScalar.add_le_add (hmax.2 hx) (hmax'.2 hy) hxy hn'
  of_empty := by
    rintro i j (rfl | rfl)
    · exact add_of_isEmpty (.inl empty_isEmpty)
    · exact add_of_isEmpty (.inr empty_isEmpty)
  mono hs ht := Set.sdiff_subset_sdiff_left (Set.image2_subset hs ht)

/-! ### Products -/

/-- The product of 0 with a bound is 0. -/
theorem zero_mulBounds (a : α) : mulBounds Scalar.zero a = Scalar.zero := by
  rw [mulBounds_swap, mulBounds_zero]

/-- The product of bounds other than 0. -/
theorem mulBounds_of_ne_zero (ha : a ≠ Scalar.zero) (hb : b ≠ Scalar.zero) :
    mulBounds a b = a * b := by
  rw [mulBounds, if_neg]
  rw [Bool.or_eq_true, LawfulScalar.beq_iff, LawfulScalar.beq_iff]
  exact fun h ↦ h.elim (fun h ↦ ha h.1) fun h ↦ hb h.1

/-- The product of finite numbers, which nothing absorbs. -/
theorem mulBounds_of_isFinite (ha : isFinite a = true) (hb : isFinite b = true) :
    mulBounds a b = a * b := by
  by_cases ha0 : a = Scalar.zero
  · rw [ha0, zero_mulBounds, LawfulScalar.zero_mul hb]
  by_cases hb0 : b = Scalar.zero
  · rw [hb0, mulBounds_zero, LawfulScalar.mul_zero ha]
  exact mulBounds_of_ne_zero ha0 hb0

/-- Products of bounds are defined. -/
theorem mulBounds_ne_nan (ha : a ≠ nan) (hb : b ≠ nan) : mulBounds a b ≠ nan := by
  by_cases ha0 : a = Scalar.zero
  · rw [ha0, zero_mulBounds]
    exact OrderedScalar.zero_ne_nan
  by_cases hb0 : b = Scalar.zero
  · rw [hb0, mulBounds_zero]
    exact OrderedScalar.zero_ne_nan
  rw [mulBounds_of_ne_zero ha0 hb0]
  exact OrderedScalar.mul_ne_nan ha hb ha0 hb0

private theorem mulBounds_nonneg (ha : Scalar.zero ≤ a) (hb : Scalar.zero ≤ b) :
    Scalar.zero ≤ mulBounds a b := by
  by_cases ha0 : a = Scalar.zero
  · rw [ha0, zero_mulBounds]
    exact OrderedScalar.zero_le_zero
  by_cases hb0 : b = Scalar.zero
  · rw [hb0, mulBounds_zero]
    exact OrderedScalar.zero_le_zero
  have hn := OrderedScalar.mul_ne_nan (LawfulScalar.ne_nan_of_le ha).2
    (LawfulScalar.ne_nan_of_le hb).2 ha0 hb0
  rw [mulBounds_of_ne_zero ha0 hb0]
  exact OrderedScalar.mul_nonneg ha hb hn

private theorem mulBounds_neg (a b : α) : mulBounds a (-b) = -mulBounds a b := by
  rw [mulBounds_swap, neg_mulBounds, mulBounds_swap]

private theorem mulBounds_mono_of_nonneg (ha : Scalar.zero ≤ a) (hb : Scalar.zero ≤ b)
    (h : b ≤ c) : mulBounds a b ≤ mulBounds a c := by
  have hc := LawfulScalar.le_trans hb h
  by_cases ha0 : a = Scalar.zero
  · rw [ha0, zero_mulBounds, zero_mulBounds]
    exact OrderedScalar.zero_le_zero
  by_cases hb0 : b = Scalar.zero
  · rw [hb0, mulBounds_zero]
    exact mulBounds_nonneg ha hc
  have hc0 : c ≠ Scalar.zero := by
    rintro rfl
    exact hb0 (LawfulScalar.le_antisymm h hb)
  have han := (LawfulScalar.ne_nan_of_le ha).2
  obtain ⟨hbn, hcn⟩ := LawfulScalar.ne_nan_of_le h
  rw [mulBounds_of_ne_zero ha0 hb0, mulBounds_of_ne_zero ha0 hc0]
  exact OrderedScalar.mul_le_mul ha hb (LawfulScalar.le_rfl han) h
    (OrderedScalar.mul_ne_nan han hbn ha0 hb0) (OrderedScalar.mul_ne_nan han hcn ha0 hc0)

-- Bounds that are multiplied by a number from 0 on keep their order, on either side of 0.
private theorem mulBounds_mono (ha : Scalar.zero ≤ a) (h : b ≤ c) :
    mulBounds a b ≤ mulBounds a c := by
  rcases OrderedScalar.nonneg_or_nonpos (LawfulScalar.ne_nan_of_le h).1 with hb | hb
  · exact mulBounds_mono_of_nonneg ha hb h
  rw [← LawfulScalar.neg_le_neg_iff, ← mulBounds_neg, ← mulBounds_neg]
  rcases OrderedScalar.nonneg_or_nonpos (LawfulScalar.ne_nan_of_le h).2 with hc | hc
  · have hle : mulBounds a (-c) ≤ Scalar.zero := by
      rw [mulBounds_neg, OrderedScalar.neg_nonpos]
      exact mulBounds_nonneg ha hc
    exact LawfulScalar.le_trans hle (mulBounds_nonneg ha (OrderedScalar.neg_nonneg.mpr hb))
  · exact mulBounds_mono_of_nonneg ha (OrderedScalar.neg_nonneg.mpr hc)
      (LawfulScalar.neg_le_neg h)

-- Between two numbers multiplied by a third one lie the products with the numbers between them.
private theorem mulBounds_between (ha : a ≠ nan) (h : b ≤ c) (h' : c ≤ d) :
    (mulBounds a b ≤ mulBounds a c ∧ mulBounds a c ≤ mulBounds a d) ∨
      (mulBounds a d ≤ mulBounds a c ∧ mulBounds a c ≤ mulBounds a b) := by
  rcases OrderedScalar.nonneg_or_nonpos ha with h0 | h0
  · exact .inl ⟨mulBounds_mono h0 h, mulBounds_mono h0 h'⟩
  · have key : ∀ {b c : α}, b ≤ c → mulBounds a c ≤ mulBounds a b := by
      intro b c hbc
      rw [← LawfulScalar.neg_le_neg_iff, ← neg_mulBounds, ← neg_mulBounds]
      exact mulBounds_mono (OrderedScalar.neg_nonneg.mpr h0) hbc
    exact .inr ⟨key h', key h⟩

-- A product of elements lies between two products of bounds.
private theorem exists_boundProducts (hx : x ∈ i.elements) (hy : y ∈ j.elements) :
    (∃ p ∈ boundProducts i j, p ≤ mulBounds x y) ∧
      ∃ p ∈ boundProducts i j, mulBounds x y ≤ p := by
  have hyn := ne_nan_of_mem_elements hy
  rw [mem_elements] at hx hy
  -- a bound of `i` times `y` lies between two products of bounds
  have hbound : ∀ a, a = i.lower ∨ a = i.upper →
      (∃ p ∈ boundProducts i j, p ≤ mulBounds a y) ∧
        ∃ p ∈ boundProducts i j, mulBounds a y ≤ p := by
    intro a ha
    have han : a ≠ nan := by
      rcases ha with rfl | rfl
      · exact (LawfulScalar.ne_nan_of_le hx.1).1
      · exact (LawfulScalar.ne_nan_of_le hx.2).2
    have hmem : mulBounds a j.lower ∈ boundProducts i j ∧
        mulBounds a j.upper ∈ boundProducts i j := by
      rcases ha with rfl | rfl <;> simp [boundProducts]
    rcases mulBounds_between han hy.1 hy.2 with ⟨h, h'⟩ | ⟨h, h'⟩
    · exact ⟨⟨_, hmem.1, h⟩, ⟨_, hmem.2, h'⟩⟩
    · exact ⟨⟨_, hmem.2, h⟩, ⟨_, hmem.1, h'⟩⟩
  obtain ⟨⟨p, hp, hpl⟩, p', hp', hpl'⟩ := hbound i.lower (.inl rfl)
  obtain ⟨⟨q, hq, hql⟩, q', hq', hql'⟩ := hbound i.upper (.inr rfl)
  rw [mulBounds_swap x]
  rw [mulBounds_swap] at hpl hpl' hql hql'
  rcases mulBounds_between hyn hx.1 hx.2 with ⟨h, h'⟩ | ⟨h, h'⟩
  · exact ⟨⟨p, hp, LawfulScalar.le_trans hpl h⟩, ⟨q', hq', LawfulScalar.le_trans h' hql'⟩⟩
  · exact ⟨⟨q, hq, LawfulScalar.le_trans hql h⟩, ⟨p', hp', LawfulScalar.le_trans h' hpl'⟩⟩

-- The products of the bounds are products of elements.
private theorem boundProducts_subset (hi : InOrder i.lower i.upper)
    (hj : InOrder j.lower j.upper) :
    ∀ p ∈ boundProducts i j, p ∈ products i.elements j.elements := by
  obtain ⟨hmin, hmax⟩ := extreme_elements hi
  obtain ⟨hmin', hmax'⟩ := extreme_elements hj
  simp only [boundProducts, List.mem_cons, List.not_mem_nil, or_false]
  rintro p (rfl | rfl | rfl | rfl)
  · exact Set.mem_image2_of_mem hmin.1 hmin'.1
  · exact Set.mem_image2_of_mem hmin.1 hmax'.1
  · exact Set.mem_image2_of_mem hmax.1 hmin'.1
  · exact Set.mem_image2_of_mem hmax.1 hmax'.1

private theorem ne_nan_of_mem_products : a ∈ products i.elements j.elements → a ≠ nan := by
  rintro ⟨x, hx, y, hy, rfl⟩
  exact mulBounds_ne_nan (ne_nan_of_mem_elements hx) (ne_nan_of_mem_elements hy)

-- The infinities that the comparisons start with are not among the results.
private theorem foldl_boundProducts_mem (hn : ∀ p ∈ boundProducts i j, p ≠ nan) :
    (boundProducts i j).foldl Scalar.min infinity ∈ boundProducts i j ∧
      (boundProducts i j).foldl Scalar.max (-infinity) ∈ boundProducts i j := by
  have hp : mulBounds i.lower j.lower ≠ nan := hn _ List.mem_cons_self
  have hmin := LawfulScalar.min_of_ge (LawfulScalar.le_infinity hp)
  have hmax := LawfulScalar.max_of_le (LawfulScalar.neg_infinity_le hp)
  rw [boundProducts]
  constructor
  · rw [List.foldl_cons, hmin]
    exact LawfulScalar.foldl_mem min_eq_or _ _
  · rw [List.foldl_cons, hmax]
    exact LawfulScalar.foldl_mem max_eq_or _ _

/-- The product is the range of the products. -/
theorem isRange_mul : IsRange₂ (α := α) (· * ·) products where
  spans {i j} hi hj := by
    have hsub := boundProducts_subset hi hj
    have hn : ∀ p ∈ boundProducts i j, p ≠ nan := fun p hp ↦ ne_nan_of_mem_products (hsub p hp)
    have hinf : (-infinity : α) ≠ nan :=
      LawfulScalar.neg_eq_nan.not.mpr LawfulScalar.infinity_ne_nan
    obtain ⟨hmin, hmax⟩ := foldl_boundProducts_mem hn
    refine ⟨_, _, ⟨hsub _ hmin, ?_⟩, ⟨hsub _ hmax, ?_⟩,
      mul_of_isEmpty_eq_false (isEmpty_of_le hi.1) (isEmpty_of_le hj.1)⟩
    · rintro _ ⟨x, hx, y, hy, rfl⟩
      obtain ⟨⟨p, hp, hle⟩, -⟩ := exists_boundProducts hx hy
      exact LawfulScalar.le_trans
        ((LawfulScalar.foldl_min_le LawfulScalar.infinity_ne_nan hn).2 p hp) hle
    · rintro _ ⟨x, hx, y, hy, rfl⟩
      obtain ⟨-, p, hp, hle⟩ := exists_boundProducts hx hy
      exact LawfulScalar.le_trans hle ((LawfulScalar.le_foldl_max hinf hn).2 p hp)
  of_empty := by
    rintro i j (rfl | rfl)
    · exact mul_of_isEmpty (.inl empty_isEmpty)
    · exact mul_of_isEmpty (.inr empty_isEmpty)
  mono hs ht := Set.image2_subset hs ht

/-! ### Absolute values -/

/-- The smallest absolute value is that of an element, and none is smaller. -/
theorem isLeast_mignitude (h : InOrder i.lower i.upper) :
    IsLeast (Scalar.abs '' i.elements) i.mignitude := by
  obtain ⟨hmin, hmax⟩ := extreme_elements h
  obtain ⟨hl, hu⟩ := LawfulScalar.ne_nan_of_le h.1
  rw [mignitude, isEmpty_of_le h.1, if_neg Bool.false_ne_true]
  by_cases h0 : i.contains Scalar.zero = true
  · rw [if_pos h0]
    constructor
    · exact ⟨Scalar.zero, h0, LawfulScalar.abs_zero⟩
    · rintro _ ⟨x, hx, rfl⟩
      exact OrderedScalar.abs_nonneg (ne_nan_of_mem_elements hx)
  rw [if_neg h0]
  constructor
  · rcases min_eq_or (Scalar.abs i.lower) (Scalar.abs i.upper) with hm | hm <;> rw [hm]
    · exact Set.mem_image_of_mem _ hmin.1
    · exact Set.mem_image_of_mem _ hmax.1
  rintro _ ⟨x, hx, rfl⟩
  obtain ⟨hlx, hxu⟩ := mem_elements.mp hx
  -- an interval without 0 lies on one side of it, and its nearer bound is below `|x|`
  rw [contains, decide_eq_true_iff, not_and_or] at h0
  rcases h0 with h0 | h0
  · have hpos := (OrderedScalar.nonneg_or_nonpos hl).resolve_right h0
    apply LawfulScalar.le_trans (LawfulScalar.min_le_left (OrderedScalar.abs_ne_nan hl))
    rwa [LawfulScalar.abs_of_nonneg hpos,
      LawfulScalar.abs_of_nonneg (LawfulScalar.le_trans hpos hlx)]
  · have hneg := (OrderedScalar.nonneg_or_nonpos hu).resolve_left h0
    apply LawfulScalar.le_trans (LawfulScalar.min_le_right (OrderedScalar.abs_ne_nan hu))
    rwa [OrderedScalar.abs_of_nonpos hneg,
      OrderedScalar.abs_of_nonpos (LawfulScalar.le_trans hxu hneg), LawfulScalar.neg_le_neg_iff]

/-- The largest absolute value is that of an element, and none is larger. -/
theorem isGreatest_magnitude (h : InOrder i.lower i.upper) :
    IsGreatest (Scalar.abs '' i.elements) i.magnitude := by
  obtain ⟨hmin, hmax⟩ := extreme_elements h
  obtain ⟨hl, hu⟩ := LawfulScalar.ne_nan_of_le h.1
  rw [magnitude, isEmpty_of_le h.1, if_neg Bool.false_ne_true]
  constructor
  · rcases max_eq_or (Scalar.abs i.lower) (Scalar.abs i.upper) with hm | hm <;> rw [hm]
    · exact Set.mem_image_of_mem _ hmin.1
    · exact Set.mem_image_of_mem _ hmax.1
  rintro _ ⟨x, hx, rfl⟩
  obtain ⟨hlx, hxu⟩ := mem_elements.mp hx
  rcases OrderedScalar.nonneg_or_nonpos (ne_nan_of_mem_elements hx) with hx0 | hx0
  · refine LawfulScalar.le_trans ?_ (LawfulScalar.le_max_right (OrderedScalar.abs_ne_nan hu))
    rwa [LawfulScalar.abs_of_nonneg hx0,
      LawfulScalar.abs_of_nonneg (LawfulScalar.le_trans hx0 hxu)]
  · refine LawfulScalar.le_trans ?_ (LawfulScalar.le_max_left (OrderedScalar.abs_ne_nan hl))
    rwa [OrderedScalar.abs_of_nonpos hx0,
      OrderedScalar.abs_of_nonpos (LawfulScalar.le_trans hlx hx0), LawfulScalar.neg_le_neg_iff]

/-- Absolute values of elements are from 0 on. -/
theorem mignitude_nonneg (h : InOrder i.lower i.upper) : Scalar.zero ≤ i.mignitude := by
  obtain ⟨x, hx, hm⟩ := (isLeast_mignitude h).1
  rw [← hm]
  exact OrderedScalar.abs_nonneg (ne_nan_of_mem_elements hx)

-- Only both infinities together have no finite number between them, and then 0 is one.
private theorem mignitude_ne_infinity (h : InOrder i.lower i.upper) : i.mignitude ≠ infinity := by
  intro hinf
  obtain ⟨hle, hl, hu⟩ := inOrder_iff_ne.mp h
  obtain ⟨hln, hun⟩ := LawfulScalar.ne_nan_of_le hle
  obtain ⟨hmin, hmax⟩ := extreme_elements h
  have hbound : ∀ {x}, x ∈ i.elements → isFinite x = false := by
    intro x hx
    have hx' := (isLeast_mignitude h).2 (Set.mem_image_of_mem _ hx)
    rw [hinf] at hx'
    rw [← LawfulScalar.isFinite_abs, OrderedScalar.eq_infinity_of_le hx',
      LawfulScalar.isFinite_infinity]
  have hlow := (OrderedScalar.eq_infinity hln (hbound hmin.1)).resolve_left hl
  have hupp := (OrderedScalar.eq_infinity hun (hbound hmax.1)).resolve_right hu
  have h0 : Scalar.zero ∈ i.elements := by
    rw [mem_elements, hlow, hupp]
    exact ⟨LawfulScalar.neg_infinity_le OrderedScalar.zero_ne_nan,
      LawfulScalar.le_infinity OrderedScalar.zero_ne_nan⟩
  have hf := hbound h0
  rw [LawfulScalar.isFinite_zero] at hf
  contradiction

-- The extreme absolute values are not the infinity of the other side.
private theorem inOrder_abs (h : InOrder i.lower i.upper) : InOrder i.mignitude i.magnitude := by
  have hle : i.mignitude ≤ i.magnitude := (isLeast_mignitude h).2 (isGreatest_magnitude h).1
  rw [inOrder_iff_ne]
  refine ⟨hle, mignitude_ne_infinity h, ?_⟩
  intro hinf
  have h0 := LawfulScalar.le_trans (mignitude_nonneg h) hle
  rw [hinf] at h0
  exact (OrderedScalar.ne_infinity_of_isFinite LawfulScalar.isFinite_zero).2
    (OrderedScalar.eq_neg_infinity_of_le h0)

/-- The interval of the absolute values is the range of the absolute values. -/
theorem isRange_abs : IsRange (α := α) abs Scalar.abs where
  spans {i} h := by
    refine ⟨_, _, isLeast_mignitude h, isGreatest_magnitude h, ?_⟩
    rw [outward_of_inOrder (inOrder_abs h), abs, isEmpty_of_le h.1, if_neg Bool.false_ne_true,
      ofBounds_of_inOrder (inOrder_abs h)]
  of_empty := if_pos empty_isEmpty

/-! ### Powers -/

private theorem inOrder_one : InOrder (Scalar.one : α) Scalar.one :=
  inOrder_of_isFinite LawfulScalar.isFinite_one LawfulScalar.isFinite_one
    OrderedScalar.inUnit_one.2

/-- Powers of proper intervals are proper. -/
theorem isProper_pow (h : i.IsProper) (n : ℕ) : (i.pow n).IsProper := by
  unfold pow
  split
  · exact .inl rfl
  split
  · exact .inr inOrder_one
  split
  · exact h
  split <;> exact isProper_outward _ _

private theorem spans_pow_zero (h : InOrder i.lower i.upper) :
    Spans one ((power · 0) '' i.elements) := by
  have hone : (Scalar.one : α) ≤ Scalar.one := OrderedScalar.inUnit_one.2
  have himage : (power · 0) '' i.elements = {Scalar.one} := by
    simp only [OrderedScalar.power_zero]
    exact Set.Nonempty.image_const ⟨_, (extreme_elements h).1.1⟩ Scalar.one
  rw [himage]
  refine ⟨Scalar.one, Scalar.one, ⟨rfl, ?_⟩, ⟨rfl, ?_⟩, (outward_of_inOrder inOrder_one).symm⟩
  · rintro _ rfl
    exact hone
  · rintro _ rfl
    exact hone

-- An even power is the power of the absolute value.
private theorem spans_pow_of_even (h : InOrder i.lower i.upper) {n : ℕ} (hn : n % 2 = 0) :
    Spans (outward (power i.mignitude n) (power i.magnitude n)) ((power · n) '' i.elements) := by
  have habs : ∀ x ∈ i.elements, power x n = power (Scalar.abs x) n := by
    intro x hx
    rcases OrderedScalar.nonneg_or_nonpos (ne_nan_of_mem_elements hx) with hx0 | hx0
    · rw [LawfulScalar.abs_of_nonneg hx0]
    · rw [OrderedScalar.abs_of_nonpos hx0, OrderedScalar.power_neg_of_even x hn]
  have himage : (power · n) '' i.elements = (power · n) '' (Scalar.abs '' i.elements) := by
    rw [Set.image_image]
    exact Set.image_congr habs
  have hmig := isLeast_mignitude h
  obtain ⟨hmin, hmax⟩ := extreme_image hmig (isGreatest_magnitude h) fun ha hab ↦
    OrderedScalar.power_mono n (LawfulScalar.le_trans (mignitude_nonneg h) (hmig.2 ha)) hab
  rw [himage]
  exact ⟨_, _, hmin, hmax, rfl⟩

private theorem spans_pow_of_odd (h : InOrder i.lower i.upper) {n : ℕ} (hn : n % 2 = 1) :
    Spans (outward (power i.lower n) (power i.upper n)) ((power · n) '' i.elements) := by
  obtain ⟨hl, hu⟩ := extreme_elements h
  obtain ⟨hmin, hmax⟩ := extreme_image hl hu fun _ hab ↦ OrderedScalar.power_mono_of_odd hn hab
  exact ⟨_, _, hmin, hmax, rfl⟩

/-- The interval of the powers is the range of the powers. -/
theorem isRange_pow (n : ℕ) : IsRange (α := α) (pow · n) (power · n) where
  spans {i} h := by
    have hne : i.isEmpty = false := isEmpty_of_le h.1
    unfold pow
    rw [hne, if_neg Bool.false_ne_true]
    by_cases hn0 : n = 0
    · rw [if_pos hn0, hn0]
      exact spans_pow_zero h
    rw [if_neg hn0]
    by_cases hn1 : n = 1
    · obtain ⟨hl, hu⟩ := extreme_elements h
      simp only [hn1, if_true, OrderedScalar.power_one, Set.image_id']
      exact ⟨_, _, hl, hu, (outward_of_inOrder h).symm⟩
    rw [if_neg hn1]
    rcases Nat.mod_two_eq_zero_or_one n with hn | hn
    · rw [if_pos hn]
      exact spans_pow_of_even h hn
    · rw [if_neg (by omega)]
      exact spans_pow_of_odd h hn
  of_empty := if_pos empty_isEmpty

end AffineArithmetic.Interval

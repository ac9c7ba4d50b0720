import AffineArithmetic.Proofs.Interval.Range
import AffineArithmetic.Proofs.Interval.Rounded

/-!
# Inclusion and emptiness of computed intervals

In binary64 arithmetic operations on intervals are inclusion isotone: larger operands have a larger
result. They compute the extreme results on the elements of the operands, more elements have more
results, and an extreme result that overflows to the wrong side moves back no further than to the
largest finite number, which every other one reaches. So a result contains what the operation gives
on floats, also where that overflows, and it is empty only if an operand is.
-/

namespace AffineArithmetic.Interval

open Binary64 Scalar

/-! ### Inclusion of rounded intervals -/

section Rounded

variable {i i' j j' k k' : Interval Rounded} {s s' : Set Rounded}

/-- Moving back onto the finite numbers keeps the order. -/
theorem pulledDown_mono {l m : Rounded} (h : l ≤ m) : pulledDown l ≤ pulledDown m := by
  obtain ⟨hl, hm⟩ := LawfulScalar.ne_nan_of_le h
  have hle : pulledDown l ≤ l := pulledDown_le hl
  by_cases hm' : m = infinity
  · have hmax : pulledDown m = maxFinite := by
      rw [pulledDown, if_pos (LawfulScalar.beq_iff.mpr ⟨hm', hm⟩)]
    rw [hmax]
    exact Rounded.le_maxFinite (LawfulScalar.ne_nan_of_le hle).1 (pulledDown_ne_infinity l)
  · have hself : pulledDown m = m := by
      rw [pulledDown, if_neg fun hi ↦ hm' (LawfulScalar.beq_iff.mp hi).1]
    rw [hself]
    exact LawfulScalar.le_trans hle h

/-- A larger set spans a larger interval. -/
theorem Spans.isSubset (h : Spans k s) (h' : Spans k' s') (hs : s ⊆ s') :
    k.isSubset k' = true := by
  obtain ⟨l, u, hl, hu, rfl⟩ := h
  obtain ⟨l', u', hl', hu', rfl⟩ := h'
  have hlow : pulledDown l' ≤ pulledDown l := pulledDown_mono (hl'.2 (hs hl.1))
  have hupp : pulledDown (-u') ≤ pulledDown (-u) :=
    pulledDown_mono (LawfulScalar.neg_le_neg (hu'.2 (hs hu.1)))
  rw [outward_of_le (hl.2 hu.1), outward_of_le (hl'.2 hu'.1), isSubset, Bool.or_eq_true,
    decide_eq_true_iff]
  exact .inr ⟨hlow, LawfulScalar.neg_le_neg hupp⟩

/-- A proper interval that includes bounds in order has them too, and the elements between them. -/
theorem IsProper.inOrder_of_isSubset (hi' : i'.IsProper) (hi : InOrder i.lower i.upper)
    (h : i.isSubset i' = true) :
    InOrder i'.lower i'.upper ∧ i.elements ⊆ i'.elements := by
  rw [isSubset, isEmpty_of_le hi.1, Bool.false_or, decide_eq_true_iff] at h
  have hsub : i.elements ⊆ i'.elements := by
    intro x hx
    obtain ⟨hl, hu⟩ := mem_elements.mp hx
    exact mem_elements.mpr ⟨LawfulScalar.le_trans h.1 hl, LawfulScalar.le_trans hu h.2⟩
  exact ⟨hi'.inOrder_of_contains (hsub (extreme_elements hi).1.1), hsub⟩

/-- The empty interval is included in every other. -/
theorem empty_isSubset (i : Interval Rounded) : (empty : Interval Rounded).isSubset i = true := by
  rw [isSubset, empty_isEmpty, Bool.true_or]

/-- An operation that computes a range is inclusion isotone. -/
theorem IsRange.isSubset {f : Interval Rounded → Interval Rounded} {g : Rounded → Rounded}
    (hf : IsRange f g) (hi : i.IsProper) (hi' : i'.IsProper) (h : i.isSubset i' = true) :
    (f i).isSubset (f i') = true := by
  rcases hi with rfl | hi
  · rw [hf.of_empty]
    exact empty_isSubset _
  · obtain ⟨ho, hsub⟩ := hi'.inOrder_of_isSubset hi h
    exact (hf.spans hi).isSubset (hf.spans ho) (Set.image_mono hsub)

/-- An operation on two intervals that computes a range is inclusion isotone. -/
theorem IsRange₂.isSubset {f : Interval Rounded → Interval Rounded → Interval Rounded}
    {g : Set Rounded → Set Rounded → Set Rounded} (hf : IsRange₂ f g) (hi : i.IsProper)
    (hi' : i'.IsProper) (hj : j.IsProper) (hj' : j'.IsProper) (h : i.isSubset i' = true)
    (h' : j.isSubset j' = true) : (f i j).isSubset (f i' j') = true := by
  rcases hi with rfl | hi
  · rw [hf.of_empty (.inl rfl)]
    exact empty_isSubset _
  rcases hj with rfl | hj
  · rw [hf.of_empty (.inr rfl)]
    exact empty_isSubset _
  · obtain ⟨ho, hsub⟩ := hi'.inOrder_of_isSubset hi h
    obtain ⟨ho', hsub'⟩ := hj'.inOrder_of_isSubset hj h'
    exact (hf.spans hi hj).isSubset (hf.spans ho ho') (hf.mono hsub hsub')

end Rounded

/-! ### Inclusion of binary64 intervals -/

variable {i i' j j' : Interval Float} {x y : Float}

/-- Opposites are inclusion isotone. -/
theorem neg_isSubset (hi : i.IsProper) (hi' : i'.IsProper) (h : i.isSubset i' = true) :
    (-i).isSubset (-i') = true := by
  rw [← isSubset_toRounded] at h ⊢
  rw [toRounded_neg, toRounded_neg]
  exact isRange_neg.isSubset (isProper_toRounded hi) (isProper_toRounded hi') h

/-- Absolute values are inclusion isotone. -/
theorem abs_isSubset (hi : i.IsProper) (hi' : i'.IsProper) (h : i.isSubset i' = true) :
    i.abs.isSubset i'.abs = true := by
  rw [← isSubset_toRounded] at h ⊢
  rw [toRounded_abs, toRounded_abs]
  exact isRange_abs.isSubset (isProper_toRounded hi) (isProper_toRounded hi') h

/-- Powers are inclusion isotone, as long as they are computed by multiplication. -/
theorem pow_isSubset {n : ℕ} (hn : n ≤ maxSquaringExponent) (hi : i.IsProper) (hi' : i'.IsProper)
    (h : i.isSubset i' = true) : (i.pow n).isSubset (i'.pow n) = true := by
  rw [← isSubset_toRounded] at h ⊢
  rw [toRounded_pow i hn, toRounded_pow i' hn]
  exact (isRange_pow n).isSubset (isProper_toRounded hi) (isProper_toRounded hi') h

/-- Sums are inclusion isotone. -/
theorem add_isSubset (hi : i.IsProper) (hi' : i'.IsProper) (hj : j.IsProper) (hj' : j'.IsProper)
    (h : i.isSubset i' = true) (h' : j.isSubset j' = true) :
    (i + j).isSubset (i' + j') = true := by
  rw [← isSubset_toRounded] at h h' ⊢
  rw [toRounded_add, toRounded_add]
  exact isRange_add.isSubset (isProper_toRounded hi) (isProper_toRounded hi')
    (isProper_toRounded hj) (isProper_toRounded hj') h h'

/-- Differences are inclusion isotone. -/
theorem sub_isSubset (hi : i.IsProper) (hi' : i'.IsProper) (hj : j.IsProper) (hj' : j'.IsProper)
    (h : i.isSubset i' = true) (h' : j.isSubset j' = true) :
    (i - j).isSubset (i' - j') = true :=
  add_isSubset hi hi' hj.neg hj'.neg h (neg_isSubset hj hj' h')

/-- Products are inclusion isotone. -/
theorem mul_isSubset (hi : i.IsProper) (hi' : i'.IsProper) (hj : j.IsProper) (hj' : j'.IsProper)
    (h : i.isSubset i' = true) (h' : j.isSubset j' = true) :
    (i * j).isSubset (i' * j') = true := by
  rw [← isSubset_toRounded] at h h' ⊢
  rw [toRounded_mul, toRounded_mul]
  exact isRange_mul.isSubset (isProper_toRounded hi) (isProper_toRounded hi')
    (isProper_toRounded hj) (isProper_toRounded hj') h h'

/-! ### Results on floats -/

private theorem neg_contains_neg (hi : i.IsProper) (hx : i.contains x = true) :
    (-i).contains (-x) = true := by
  rw [← contains_toRounded] at hx ⊢
  rw [toRounded_neg, Binary64.toRounded_neg]
  exact isRange_neg.contains (isProper_toRounded hi) hx

/-- A power contains the powers of the numbers between the bounds, infinite ones included. -/
theorem pow_contains {n : ℕ} (hn : n ≤ maxSquaringExponent) (hi : i.IsProper)
    (hx : i.contains x = true) : (i.pow n).contains (Scalar.power x n) = true := by
  rw [← contains_toRounded] at hx ⊢
  rw [toRounded_pow i hn, toRounded_power x hn]
  exact (isRange_pow n).contains (isProper_toRounded hi) hx

/-- A sum contains the rounded sums of finite numbers between the bounds. -/
theorem add_contains (hi : i.IsProper) (hj : j.IsProper) (hx : i.contains x = true)
    (hy : j.contains y = true) (hfx : isFinite x = true) (hfy : isFinite y = true) :
    (i + j).contains (x + y) = true := by
  rw [← contains_toRounded] at hx hy ⊢
  rw [← isFinite_toRounded] at hfx hfy
  have hn : Binary64.toRounded x + Binary64.toRounded y ≠ nan :=
    OrderedScalar.add_ne_nan (LawfulScalar.ne_nan_of_isFinite hfx)
      (LawfulScalar.ne_nan_of_isFinite hfy) (OrderedScalar.ne_infinity_of_isFinite hfx).1
      (OrderedScalar.ne_infinity_of_isFinite hfy).1
  have hspans := isRange_add.spans ((isProper_toRounded hi).inOrder_of_contains hx)
    ((isProper_toRounded hj).inOrder_of_contains hy)
  rw [toRounded_add, Binary64.toRounded_add]
  exact hspans.contains ⟨Set.mem_image2_of_mem hx hy, hn⟩

/-- A difference contains the rounded differences of finite numbers between the bounds. -/
theorem sub_contains (hi : i.IsProper) (hj : j.IsProper) (hx : i.contains x = true)
    (hy : j.contains y = true) (hfx : isFinite x = true) (hfy : isFinite y = true) :
    (i - j).contains (x - y) = true := by
  have hadd : (i + -j).contains (x + -y) = true := by
    refine add_contains hi hj.neg hx (neg_contains_neg hj hy) hfx ?_
    rwa [← isFinite_toRounded, Binary64.toRounded_neg, LawfulScalar.isFinite_neg,
      isFinite_toRounded]
  rw [← contains_toRounded] at hadd ⊢
  rwa [Binary64.toRounded_sub, LawfulScalar.sub_eq_add_neg, ← Binary64.toRounded_neg,
    ← Binary64.toRounded_add]

/-- A product contains the rounded products of finite numbers between the bounds. -/
theorem mul_contains (hi : i.IsProper) (hj : j.IsProper) (hx : i.contains x = true)
    (hy : j.contains y = true) (hfx : isFinite x = true) (hfy : isFinite y = true) :
    (i * j).contains (x * y) = true := by
  rw [← contains_toRounded] at hx hy ⊢
  rw [← isFinite_toRounded] at hfx hfy
  have hspans := isRange_mul.spans ((isProper_toRounded hi).inOrder_of_contains hx)
    ((isProper_toRounded hj).inOrder_of_contains hy)
  rw [toRounded_mul, Binary64.toRounded_mul, ← mulBounds_of_isFinite hfx hfy]
  exact hspans.contains (Set.mem_image2_of_mem hx hy)

/-- Operations on reachable intervals are inclusion isotone, and their results contain the rounded
results on the numbers between the bounds, also where these overflow. Powers are the ones by
repeated squaring. -/
theorem reachable_isotone (hi : Reachable i) (hi' : Reachable i') (hj : Reachable j)
    (hj' : Reachable j') (h : i.isSubset i' = true) (h' : j.isSubset j' = true) :
    ((i + j).isSubset (i' + j') = true ∧ (i - j).isSubset (i' - j') = true ∧
      (i * j).isSubset (i' * j') = true) ∧
    (∀ x y : Float, isFinite x = true → isFinite y = true → i.contains x = true →
      j.contains y = true → (i + j).contains (x + y) = true ∧
        (i - j).contains (x - y) = true ∧ (i * j).contains (x * y) = true) ∧
    ((-i).isSubset (-i') = true ∧ i.abs.isSubset i'.abs = true) ∧
    ∀ n ≤ maxSquaringExponent, (i.pow n).isSubset (i'.pow n) = true ∧
      ∀ x : Float, i.contains x = true → (i.pow n).contains (Scalar.power x n) = true := by
  have pi := hi.isProper
  have pi' := hi'.isProper
  have pj := hj.isProper
  have pj' := hj'.isProper
  refine ⟨⟨add_isSubset pi pi' pj pj' h h', sub_isSubset pi pi' pj pj' h h',
    mul_isSubset pi pi' pj pj' h h'⟩, ?_, ⟨neg_isSubset pi pi' h, abs_isSubset pi pi' h⟩, ?_⟩
  · intro x y hfx hfy hx hy
    exact ⟨add_contains pi pj hx hy hfx hfy, sub_contains pi pj hx hy hfx hfy,
      mul_contains pi pj hx hy hfx hfy⟩
  · intro n hn
    exact ⟨pow_isSubset hn pi pi' h, fun x hx ↦ pow_contains hn pi hx⟩

/-- A product of finite numbers overflows and stays in the product of their intervals, which larger
intervals include. -/
theorem isotone_of_product_overflow :
    (ofScalar maxFinite : Interval Float).isSubset (ofBounds 1.0 infinity) = true ∧
      (ofBounds (-2.0) 3.0 : Interval Float).isSubset univ = true ∧
      (ofScalar maxFinite * ofBounds (-2.0) 3.0 : Interval Float).isSubset
        (ofBounds 1.0 infinity * univ) = true ∧
      (ofScalar maxFinite * ofBounds (-2.0) 3.0 : Interval Float).contains
        (maxFinite * -2.0) = true ∧
      isFinite (maxFinite * -2.0 : Float) = false ∧
      ((ofScalar maxFinite : Interval Float).pow 3).contains (Scalar.power maxFinite 3) = true := by
  have h : (ofScalar maxFinite : Interval Float).isSubset (ofBounds 1.0 infinity) = true := by
    decide +kernel
  have h' : (ofBounds (-2.0) 3.0 : Interval Float).isSubset univ = true := by decide +kernel
  obtain ⟨⟨-, -, hmul⟩, hcontains, -, hpow⟩ := reachable_isotone (.ofScalar maxFinite)
    (.ofBounds 1.0 infinity) (.ofBounds (-2.0) 3.0) .univ h h'
  have hx : (ofScalar maxFinite : Interval Float).contains maxFinite = true := by decide +kernel
  have hproduct := (hcontains maxFinite (-2.0) (by decide +kernel) (by decide +kernel) hx
    (by decide +kernel)).2.2
  exact ⟨h, h', hmul, hproduct, by decide +kernel, (hpow 3 (by decide)).2 maxFinite hx⟩

end AffineArithmetic.Interval

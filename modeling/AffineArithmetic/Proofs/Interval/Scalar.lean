import AffineArithmetic.Proofs.Interval.Symmetry

/-!
# The interval of a scalar

Over lawful scalars the interval that holds one finite scalar has this scalar as midpoint, no
radius, and its absolute value as magnitude. Products with the points 1 and 0 are exact, also beside
infinite bounds.
-/

namespace AffineArithmetic.Interval

open Scalar

variable {α : Type} [Scalar α] [LawfulScalar α] {i : Interval α} {d l u : α}

/-! ### Ends -/

/-- Finite scalars are not infinite. -/
theorem not_beq_infinity (h : isFinite d = true) :
    (d == infinity) = false ∧ (d == -infinity) = false := by
  constructor
  · rw [← Bool.not_eq_true, LawfulScalar.beq_iff]
    rintro ⟨rfl, -⟩
    rw [LawfulScalar.isFinite_infinity] at h
    contradiction
  · rw [← Bool.not_eq_true, LawfulScalar.beq_iff]
    rintro ⟨rfl, -⟩
    rw [LawfulScalar.isFinite_neg, LawfulScalar.isFinite_infinity] at h
    contradiction

/-- Finite bounds need only be in order. -/
theorem inOrder_of_isFinite (hl : isFinite l = true) (hu : isFinite u = true) (h : l ≤ u) :
    InOrder l u := by
  refine ⟨h, ?_, ?_⟩
  · rw [bne, (not_beq_infinity hl).1]
    rfl
  · rw [bne, (not_beq_infinity hu).2]
    rfl

/-- A finite lower bound can be without an upper one. -/
theorem inOrder_infinity (h : isFinite l = true) : InOrder l infinity := by
  refine ⟨LawfulScalar.le_infinity (LawfulScalar.ne_nan_of_isFinite h), ?_, ?_⟩
  · rw [bne, (not_beq_infinity h).1]
    rfl
  · rw [bne, Bool.not_eq_true', ← Bool.not_eq_true, LawfulScalar.beq_iff]
    intro hi
    exact LawfulScalar.infinity_ne_neg_infinity hi.1

/-- The bounds of the real line are in order. -/
theorem inOrder_univ : InOrder (-infinity : α) infinity := by
  have hne : ((-infinity : α) == infinity) = false := by
    rw [← Bool.not_eq_true, LawfulScalar.beq_iff]
    intro h
    exact LawfulScalar.infinity_ne_neg_infinity h.1.symm
  refine ⟨LawfulScalar.neg_infinity_le LawfulScalar.infinity_ne_nan, ?_, ?_⟩
  · rw [bne, hne]
    rfl
  · rw [bne, ← LawfulScalar.neg_beq, hne]
    rfl

/-- A finite lower bound keeps the interval from reaching down without end. -/
theorem isUnboundedBelow_of_isFinite (hl : isFinite l = true) (h : l ≤ u) :
    (⟨l, u⟩ : Interval α).isUnboundedBelow = false := by
  rw [isUnboundedBelow, isEmpty_of_le h, (not_beq_infinity hl).2]
  rfl

/-- A finite upper bound keeps the interval from reaching up without end. -/
theorem isUnboundedAbove_of_isFinite (hu : isFinite u = true) (h : l ≤ u) :
    (⟨l, u⟩ : Interval α).isUnboundedAbove = false := by
  rw [isUnboundedAbove, isEmpty_of_le h, (not_beq_infinity hu).1]
  rfl

/-- An interval whose upper bound is infinity reaches up without end. -/
theorem isUnboundedAbove_infinity (h : l ≤ infinity) :
    (⟨l, infinity⟩ : Interval α).isUnboundedAbove = true := by
  rw [isUnboundedAbove, isEmpty_of_le h]
  exact LawfulScalar.beq_self_iff.mpr LawfulScalar.infinity_ne_nan

/-- The real line reaches up without end. -/
theorem isUnboundedAbove_univ : (univ : Interval α).isUnboundedAbove = true :=
  isUnboundedAbove_infinity inOrder_univ.1

/-- The real line reaches down without end. -/
theorem isUnboundedBelow_univ : (univ : Interval α).isUnboundedBelow = true := by
  rw [← neg_univ, neg_isUnboundedBelow]
  exact isUnboundedAbove_univ

omit [LawfulScalar α] in
/-- An interval that reaches up without end is not bounded. -/
theorem isBounded_of_isUnboundedAbove (h : i.isUnboundedAbove = true) : i.isBounded = false := by
  rw [isBounded, isUnbounded, h, Bool.or_true, Bool.not_true, Bool.and_false]

/-- An interval between a number and infinity is not bounded. -/
theorem isBounded_ofBounds_infinity (l : α) : (ofBounds l infinity).isBounded = false := by
  by_cases h : InOrder l infinity
  · rw [ofBounds_of_inOrder h]
    exact isBounded_of_isUnboundedAbove (isUnboundedAbove_infinity h.1)
  · rw [ofBounds_of_not_inOrder h, isBounded, empty_isEmpty]
    rfl

/-! ### Points -/

omit [LawfulScalar α] in
/-- Finite scalars are points. -/
theorem ofScalar_of_isFinite (h : isFinite d = true) : ofScalar d = ⟨d, d⟩ := if_pos h

/-- The interval of a finite scalar is proper. -/
theorem isProper_scalar (h : isFinite d = true) : (ofScalar d).IsProper := by
  rw [ofScalar_of_isFinite h]
  exact .inr (inOrder_of_isFinite h h (LawfulScalar.le_rfl (LawfulScalar.ne_nan_of_isFinite h)))

/-- Points are not empty. -/
theorem isEmpty_point (h : isFinite d = true) : (⟨d, d⟩ : Interval α).isEmpty = false :=
  isEmpty_of_le (LawfulScalar.le_rfl (LawfulScalar.ne_nan_of_isFinite h))

/-- Points are bounded on both sides. -/
theorem isUnbounded_point (h : isFinite d = true) :
    (⟨d, d⟩ : Interval α).isUnboundedBelow = false ∧
      (⟨d, d⟩ : Interval α).isUnboundedAbove = false := by
  have hd : d ≤ d := LawfulScalar.le_rfl (LawfulScalar.ne_nan_of_isFinite h)
  exact ⟨isUnboundedBelow_of_isFinite h hd, isUnboundedAbove_of_isFinite h hd⟩

/-- The interval of a scalar is bounded if the scalar is finite. -/
@[simp] theorem isBounded_ofScalar (d : α) : (ofScalar d).isBounded = isFinite d := by
  by_cases hf : isFinite d = true
  · rw [ofScalar_of_isFinite hf, isBounded, isUnbounded, isEmpty_point hf,
      (isUnbounded_point hf).1,
      (isUnbounded_point hf).2, hf]
    rfl
  · rw [ofScalar, if_neg hf, Bool.eq_false_iff.mpr hf]
    split
    · exact isBounded_ofBounds_infinity maxFinite
    · split
      · rw [← neg_isBounded, neg_ofBounds, LawfulScalar.neg_neg, LawfulScalar.neg_neg]
        exact isBounded_ofBounds_infinity maxFinite
      · exact isBounded_of_isUnboundedAbove isUnboundedAbove_univ

/-- The midpoint of a point is the point. -/
theorem midpoint_ofScalar (h : isFinite d = true) : (ofScalar d).midpoint = d := by
  rw [ofScalar_of_isFinite h]
  unfold midpoint
  rw [isEmpty_point h, (isUnbounded_point h).1, (isUnbounded_point h).2, if_neg Bool.false_ne_true]
  exact LawfulScalar.half_add_self h

/-- Points have no radius. -/
theorem radius_ofScalar (h : isFinite d = true) : (ofScalar d).radius = Scalar.zero := by
  have hm := midpoint_ofScalar h
  rw [ofScalar_of_isFinite h] at hm ⊢
  rw [radius, isEmpty_point h, if_neg Bool.false_ne_true, isUnbounded, (isUnbounded_point h).1,
    (isUnbounded_point h).2, Bool.or_false, if_neg Bool.false_ne_true, hm,
    LawfulScalar.sub_self h]
  exact (Scalar.max_eq_or _ _).elim id id

/-- The magnitude of a point is its absolute value. -/
theorem magnitude_ofScalar (h : isFinite d = true) : (ofScalar d).magnitude = Scalar.abs d := by
  rw [ofScalar_of_isFinite h, magnitude, isEmpty_point h, if_neg Bool.false_ne_true]
  exact (Scalar.max_eq_or _ _).elim id id

/-! ### Products with 1 and 0 -/

private theorem mulBounds_one (a : α) : mulBounds a Scalar.one = a := by
  have h1 : ((Scalar.one : α) == Scalar.zero) = false := by
    rw [← Bool.not_eq_true, LawfulScalar.beq_iff]
    exact fun h ↦ LawfulScalar.one_ne_zero h.1
  unfold mulBounds
  rw [h1, Bool.or_false, LawfulScalar.mul_one]
  split
  · next h => exact (LawfulScalar.beq_iff.mp h).1.symm
  · rfl

private theorem zero_beq_zero : ((Scalar.zero : α) == Scalar.zero) = true :=
  LawfulScalar.beq_self_iff.mpr (LawfulScalar.ne_nan_of_isFinite LawfulScalar.isFinite_zero)

/-- The product of a bound with 0 is 0. -/
theorem mulBounds_zero (a : α) : mulBounds a Scalar.zero = Scalar.zero := by
  rw [mulBounds, zero_beq_zero, Bool.or_true, if_pos rfl]

omit [LawfulScalar α] in
/-- Bounds in order stay where they are. -/
theorem outward_of_inOrder (h : InOrder l u) : outward l u = ⟨l, u⟩ := by
  obtain ⟨hle, hl, hu⟩ := h
  rw [outward, if_neg, if_neg]
  · exact ofBounds_of_inOrder ⟨hle, hl, hu⟩
  · rwa [bne, Bool.not_eq_true', ← Bool.not_eq_true] at hu
  · rwa [bne, Bool.not_eq_true', ← Bool.not_eq_true] at hl

/-- The product with the point 1 changes nothing. -/
protected theorem mul_one (h : i.IsProper) : i * one = i := by
  rcases h with rfl | h
  · exact mul_of_isEmpty (.inl empty_isEmpty)
  obtain ⟨hl, hu⟩ := LawfulScalar.ne_nan_of_le h.1
  have hi : i.isEmpty = false := isEmpty_of_le h.1
  have hone : (one : Interval α).isEmpty = false := isEmpty_point LawfulScalar.isFinite_one
  have hself : i.lower ≤ i.lower ∧ i.upper ≤ i.upper :=
    ⟨LawfulScalar.le_rfl hl, LawfulScalar.le_rfl hu⟩
  have hproducts : boundProducts i one = [i.lower, i.lower, i.upper, i.upper] := by
    simp only [boundProducts, one, mulBounds_one]
  have hmin : (boundProducts i one).foldl Scalar.min infinity = i.lower := by
    simp only [hproducts, List.foldl_cons, List.foldl_nil,
      LawfulScalar.min_of_ge (LawfulScalar.le_infinity hl), LawfulScalar.min_of_ge hself.1,
      LawfulScalar.min_of_le h.1]
  have hmax : (boundProducts i one).foldl Scalar.max (-infinity) = i.upper := by
    simp only [hproducts, List.foldl_cons, List.foldl_nil,
      LawfulScalar.max_of_le (LawfulScalar.neg_infinity_le hl), LawfulScalar.max_of_le hself.1,
      LawfulScalar.max_of_le hself.2, LawfulScalar.max_of_le h.1]
  rw [mul_of_isEmpty_eq_false hi hone, hmin, hmax, outward_of_inOrder h]

/-- The product with the point 0 is the point 0, also for unbounded intervals. -/
protected theorem mul_zero (h : i.isEmpty = false) : i * zero = zero := by
  have h0 : isFinite (Scalar.zero : α) = true := LawfulScalar.isFinite_zero
  have hzero : (zero : Interval α).isEmpty = false := isEmpty_point h0
  have hn : (Scalar.zero : α) ≠ nan := LawfulScalar.ne_nan_of_isFinite h0
  have hself : (Scalar.zero : α) ≤ Scalar.zero := LawfulScalar.le_rfl hn
  have hproducts : boundProducts i zero =
      [Scalar.zero, Scalar.zero, Scalar.zero, Scalar.zero] := by
    simp only [boundProducts, zero, mulBounds_zero]
  have hmin : (boundProducts i zero).foldl Scalar.min infinity = Scalar.zero := by
    simp only [hproducts, List.foldl_cons, List.foldl_nil,
      LawfulScalar.min_of_ge (LawfulScalar.le_infinity hn), LawfulScalar.min_of_ge hself]
  have hmax : (boundProducts i zero).foldl Scalar.max (-infinity) = Scalar.zero := by
    simp only [hproducts, List.foldl_cons, List.foldl_nil,
      LawfulScalar.max_of_le (LawfulScalar.neg_infinity_le hn), LawfulScalar.max_of_le hself]
  rw [mul_of_isEmpty_eq_false h hzero, hmin, hmax,
    outward_of_inOrder (inOrder_of_isFinite h0 h0 hself)]
  rfl

end AffineArithmetic.Interval

import AffineArithmetic.Proofs.Interval.Range
import AffineArithmetic.Proofs.Interval.Rounded

/-!
# Empty and unbounded results in binary64

Every reachable interval is the one empty interval or has bounds in order that are numbers, and an
operation has an empty result only if an operand is empty, however far bounds overflow: its result
spans the results on the elements of the operands. For the same reason an infinite end of an operand
is passed on, except in a product with the point 0.
-/

namespace AffineArithmetic.Interval

open Binary64 Scalar

section Scalar

variable {α : Type} [Scalar α] {i j : Interval α} {a b : α}

/-- Unbounded intervals are not empty. -/
theorem not_isEmpty_of_isUnbounded (h : i.isUnbounded = true) : i.isEmpty = false := by
  rw [← Bool.not_eq_true]
  intro he
  rw [isUnbounded, isUnboundedBelow, isUnboundedAbove, he] at h
  contradiction

variable [OrderedScalar α]

/-- An interval has an infinite end if an infinity is between its bounds. -/
theorem isUnbounded_of_contains (h : i.contains a = true) (ha : isFinite a = false) :
    i.isUnbounded = true := by
  obtain ⟨hl, hu⟩ := mem_elements.mp h
  have hn : a ≠ nan := (LawfulScalar.ne_nan_of_le hl).2
  rw [isUnbounded, isUnboundedBelow, isUnboundedAbove, isEmpty_of_contains h, Bool.not_false,
    Bool.true_and, Bool.true_and, Bool.or_eq_true, LawfulScalar.beq_iff, LawfulScalar.beq_iff]
  rcases OrderedScalar.eq_infinity hn ha with rfl | rfl
  · exact .inr ⟨OrderedScalar.eq_infinity_of_le hu, (LawfulScalar.ne_nan_of_le hu).2⟩
  · exact .inl ⟨OrderedScalar.eq_neg_infinity_of_le hl, (LawfulScalar.ne_nan_of_le hl).1⟩

-- One of the bounds is the infinite end.
private theorem infinite_bound (h : i.isUnbounded = true) :
    isFinite i.lower = false ∨ isFinite i.upper = false := by
  rw [isUnbounded, isUnboundedBelow, isUnboundedAbove, not_isEmpty_of_isUnbounded h,
    Bool.not_false, Bool.true_and, Bool.true_and, Bool.or_eq_true, LawfulScalar.beq_iff,
    LawfulScalar.beq_iff] at h
  rcases h with ⟨h, -⟩ | ⟨h, -⟩
  · left
    rw [h, LawfulScalar.isFinite_neg, LawfulScalar.isFinite_infinity]
  · right
    rw [h, LawfulScalar.isFinite_infinity]

private theorem unbounded_add (hi : i.IsProper) (hj : j.IsProper) (hne : i.isEmpty = false)
    (hub : j.isUnbounded = true) : (i + j).isUnbounded = true := by
  have ho := hi.inOrder_of_isEmpty hne
  have ho' := hj.inOrder_of_isEmpty (not_isEmpty_of_isUnbounded hub)
  obtain ⟨hmin, hmax⟩ := extreme_elements ho
  obtain ⟨hmin', hmax'⟩ := extreme_elements ho'
  obtain ⟨hn, hn'⟩ := add_bounds_ne_nan ho ho'
  have hspans := isRange_add.spans ho ho'
  -- a finite sum has finite operands
  have hinf : ∀ {a b : α}, isFinite b = false → isFinite (a + b) = false := by
    intro a b hb
    rw [← Bool.not_eq_true] at hb ⊢
    exact fun hf ↦ hb (LawfulScalar.isFinite_of_add hf).2
  rcases infinite_bound hub with hend | hend
  · exact isUnbounded_of_contains
      (hspans.contains ⟨Set.mem_image2_of_mem hmin.1 hmin'.1, hn⟩) (hinf hend)
  · exact isUnbounded_of_contains
      (hspans.contains ⟨Set.mem_image2_of_mem hmax.1 hmax'.1, hn'⟩) (hinf hend)

-- The product of an infinite bound with any bound but 0 is infinite.
private theorem isFinite_mulBounds (ha : a ≠ Scalar.zero) (hb : isFinite b = false) :
    isFinite (mulBounds a b) = false := by
  have hb0 : b ≠ Scalar.zero := by
    rintro rfl
    rw [LawfulScalar.isFinite_zero] at hb
    contradiction
  rw [mulBounds_of_ne_zero ha hb0]
  rw [← Bool.not_eq_true] at hb ⊢
  exact fun hf ↦ hb (LawfulScalar.isFinite_of_mul hf).2

private theorem unbounded_mul (hi : i.IsProper) (hj : j.IsProper) (hne : i.isEmpty = false)
    (hub : j.isUnbounded = true) (h0 : ¬ (i.lower = Scalar.zero ∧ i.upper = Scalar.zero)) :
    (i * j).isUnbounded = true := by
  have ho := hi.inOrder_of_isEmpty hne
  have ho' := hj.inOrder_of_isEmpty (not_isEmpty_of_isUnbounded hub)
  have hspans := isRange_mul.spans ho ho'
  obtain ⟨a, ha, ha0⟩ : ∃ a ∈ i.elements, a ≠ Scalar.zero := by
    by_cases hl : i.lower = Scalar.zero
    · exact ⟨i.upper, (extreme_elements ho).2.1, fun hu ↦ h0 ⟨hl, hu⟩⟩
    · exact ⟨i.lower, (extreme_elements ho).1.1, hl⟩
  obtain ⟨b, hb, hinf⟩ : ∃ b ∈ j.elements, isFinite b = false := by
    rcases infinite_bound hub with hend | hend
    · exact ⟨j.lower, (extreme_elements ho').1.1, hend⟩
    · exact ⟨j.upper, (extreme_elements ho').2.1, hend⟩
  exact isUnbounded_of_contains (hspans.contains (Set.mem_image2_of_mem ha hb))
    (isFinite_mulBounds ha0 hinf)

end Scalar

variable {i j : Interval Float}

/-! ### Emptiness -/

/-- Only the opposite of an empty interval is empty. -/
theorem isEmpty_neg (i : Interval Float) : (-i).isEmpty = i.isEmpty := by
  rw [← isEmpty_toRounded, toRounded_neg, neg_isEmpty, isEmpty_toRounded]

/-- The absolute values are empty only if the interval is. -/
theorem isEmpty_abs (h : i.IsProper) : i.abs.isEmpty = i.isEmpty := by
  rw [← isEmpty_toRounded, toRounded_abs, isRange_abs.isEmpty (isProper_toRounded h),
    isEmpty_toRounded]

/-- A power is empty only if the interval is, as long as it is computed by multiplication. -/
theorem isEmpty_pow (h : i.IsProper) {n : ℕ} (hn : n ≤ maxSquaringExponent) :
    (i.pow n).isEmpty = i.isEmpty := by
  rw [← isEmpty_toRounded, toRounded_pow i hn, (isRange_pow n).isEmpty (isProper_toRounded h),
    isEmpty_toRounded]

/-- A sum is empty only if an operand is. -/
theorem isEmpty_add (hi : i.IsProper) (hj : j.IsProper) :
    (i + j).isEmpty = true ↔ i.isEmpty = true ∨ j.isEmpty = true := by
  rw [← isEmpty_toRounded, toRounded_add,
    isRange_add.isEmpty (isProper_toRounded hi) (isProper_toRounded hj), isEmpty_toRounded,
    isEmpty_toRounded, Bool.or_eq_true]

/-- A product is empty only if an operand is. -/
theorem isEmpty_mul (hi : i.IsProper) (hj : j.IsProper) :
    (i * j).isEmpty = true ↔ i.isEmpty = true ∨ j.isEmpty = true := by
  rw [← isEmpty_toRounded, toRounded_mul,
    isRange_mul.isEmpty (isProper_toRounded hi) (isProper_toRounded hj), isEmpty_toRounded,
    isEmpty_toRounded, Bool.or_eq_true]

/-- A difference is empty only if an operand is. -/
theorem isEmpty_sub (hi : i.IsProper) (hj : j.IsProper) :
    (i - j).isEmpty = true ↔ i.isEmpty = true ∨ j.isEmpty = true := by
  rw [← isEmpty_neg j]
  exact isEmpty_add hi hj.neg

/-- The interval of a scalar is never empty. -/
theorem ofScalar_ne_empty (x : Float) : ofScalar x ≠ empty := by
  intro h
  have he := isEmpty_empty
  rw [← h, ← isEmpty_toRounded, toRounded_ofScalar] at he
  generalize Binary64.toRounded x = y at he
  unfold ofScalar at he
  have hmax : isFinite (maxFinite : Rounded) = true := OrderedScalar.isFinite_maxFinite
  have hhalf : InOrder (maxFinite : Rounded) infinity := inOrder_infinity hmax
  split at he
  · next hf =>
    rw [isEmpty_point hf] at he
    contradiction
  split at he
  · rw [ofBounds_of_inOrder hhalf, isEmpty_of_le hhalf.1] at he
    contradiction
  split at he
  · rw [ofBounds_of_inOrder (inOrder_neg.mpr hhalf), isEmpty_of_le (inOrder_neg.mpr hhalf).1] at he
    contradiction
  · rw [univ, isEmpty_of_le inOrder_univ.1] at he
    contradiction

private theorem eq_empty_iff {k : Interval Float} (hk : k.IsProper) (hi : i.IsProper)
    (h : k.isEmpty = i.isEmpty) : k = empty ↔ i = empty := by
  rw [← hk.isEmpty_iff, ← hi.isEmpty_iff, h]

private theorem eq_empty_iff_or {k : Interval Float} (hk : k.IsProper) (hi : i.IsProper)
    (hj : j.IsProper) (h : k.isEmpty = true ↔ i.isEmpty = true ∨ j.isEmpty = true) :
    k = empty ↔ i = empty ∨ j = empty := by
  rw [← hk.isEmpty_iff, ← hi.isEmpty_iff, ← hj.isEmpty_iff, h]

/-- The sum, the difference and the product are the empty interval only if an operand is. -/
theorem binary_eq_empty_iff (hi : i.IsProper) (hj : j.IsProper) :
    (i + j = empty ↔ i = empty ∨ j = empty) ∧ (i - j = empty ↔ i = empty ∨ j = empty) ∧
      (i * j = empty ↔ i = empty ∨ j = empty) :=
  ⟨eq_empty_iff_or (isProper_add i j) hi hj (isEmpty_add hi hj),
    eq_empty_iff_or (isProper_add i (-j)) hi hj (isEmpty_sub hi hj),
    eq_empty_iff_or (isProper_mul i j) hi hj (isEmpty_mul hi hj)⟩

/-- A scalar operand makes no result empty, on either side. -/
theorem scalar_eq_empty_iff (hi : i.IsProper) (x : Float) :
    ((i + x = empty ↔ i = empty) ∧ (x + i = empty ↔ i = empty)) ∧
      ((i - x = empty ↔ i = empty) ∧ (x - i = empty ↔ i = empty)) ∧
      (i * x = empty ↔ i = empty) ∧ (x * i = empty ↔ i = empty) := by
  have hx := isProper_ofScalar x
  have hright := binary_eq_empty_iff hi hx
  have hleft := binary_eq_empty_iff hx hi
  simp only [ofScalar_ne_empty, or_false, false_or] at hright hleft
  exact ⟨⟨hright.1, hleft.1⟩, ⟨hright.2.1, hleft.2.1⟩, hright.2.2, hleft.2.2⟩

/-- Reachable intervals are the empty one or have numbers in order as bounds, and no operation makes
an empty result from operands that are not empty. -/
theorem reachable_eq_empty_iff (hi : Reachable i) (hj : Reachable j) :
    (i = empty ∨ (i.lower.isNaN = false ∧ i.upper.isNaN = false ∧ i.lower ≤ i.upper ∧
      (i.lower == infinity) = false ∧ (i.upper == -infinity) = false)) ∧
    ((-i = empty ↔ i = empty) ∧ (i.abs = empty ↔ i = empty)) ∧
    ((i + j = empty ↔ i = empty ∨ j = empty) ∧ (i - j = empty ↔ i = empty ∨ j = empty) ∧
      (i * j = empty ↔ i = empty ∨ j = empty)) ∧
    (∀ x : Float, ((i + x = empty ↔ i = empty) ∧ (x + i = empty ↔ i = empty)) ∧
      ((i - x = empty ↔ i = empty) ∧ (x - i = empty ↔ i = empty)) ∧
      (i * x = empty ↔ i = empty) ∧ (x * i = empty ↔ i = empty)) ∧
    ∀ n ≤ maxSquaringExponent, (i.pow n = empty ↔ i = empty) := by
  have pi := hi.isProper
  have pj := hj.isProper
  refine ⟨?_, ⟨eq_empty_iff pi.neg pi (isEmpty_neg i),
    eq_empty_iff (isProper_abs i) pi (isEmpty_abs pi)⟩, binary_eq_empty_iff pi pj,
    scalar_eq_empty_iff pi, fun n hn ↦ eq_empty_iff (pi.pow n) pi (isEmpty_pow pi hn)⟩
  rcases pi with h | h
  · exact .inl h
  · obtain ⟨hn, hn'⟩ := isNaN_of_inOrder h
    obtain ⟨hle, hl, hu⟩ := h
    rw [bne, Bool.not_eq_true'] at hl hu
    exact .inr ⟨hn, hn', hle, hl, hu⟩

/-- Bounds that overflow to the wrong infinity leave a sum and a power that are not empty. -/
theorem not_empty_of_overflow :
    Reachable (ofBounds maxFinite infinity) ∧ Reachable (ofScalar maxFinite) ∧
      (ofBounds maxFinite infinity + ofScalar maxFinite : Interval Float) ≠ empty ∧
      (ofBounds maxFinite infinity : Interval Float).pow 2 ≠ empty := by
  have hi : Reachable (ofBounds maxFinite infinity) := .ofBounds _ _
  have hj : Reachable (ofScalar maxFinite) := .ofScalar _
  obtain ⟨-, -, ⟨hadd, -⟩, -, hpow⟩ := reachable_eq_empty_iff hi hj
  have hne : (ofBounds maxFinite infinity : Interval Float) ≠ empty := by decide +kernel
  refine ⟨hi, hj, fun h ↦ ?_, fun h ↦ hne ((hpow 2 (by decide)).mp h)⟩
  exact (hadd.mp h).elim hne (ofScalar_ne_empty maxFinite)

/-! ### Infinite ends -/

/-- A sum has an infinite end if an operand has one. -/
theorem isUnbounded_add (hi : i.IsProper) (hj : j.IsProper) (hne : i.isEmpty = false)
    (hub : j.isUnbounded = true) : (i + j).isUnbounded = true := by
  rw [← isEmpty_toRounded] at hne
  rw [← isUnbounded_toRounded] at hub ⊢
  rw [toRounded_add]
  exact unbounded_add (isProper_toRounded hi) (isProper_toRounded hj) hne hub

/-- A product has an infinite end if an operand has one and the other is not the point 0. -/
theorem isUnbounded_mul (hi : i.IsProper) (hj : j.IsProper) (hne : i.isEmpty = false)
    (hub : j.isUnbounded = true) (h0 : ¬ (value i.lower = .finite 0 ∧ value i.upper = .finite 0)) :
    (i * j).isUnbounded = true := by
  have hzero : ∀ {x : Float}, Binary64.toRounded x = Scalar.zero → value x = .finite 0 := by
    intro x hx
    rw [Rounded.ext_iff, Rounded.exact_zero] at hx
    exact hx
  rw [← isEmpty_toRounded] at hne
  rw [← isUnbounded_toRounded] at hub ⊢
  rw [toRounded_mul]
  exact unbounded_mul (isProper_toRounded hi) (isProper_toRounded hj) hne hub
    fun h ↦ h0 ⟨hzero h.1, hzero h.2⟩

/-- The product with the point 0 is the point 0. -/
theorem mul_eq_zero (hne : i.isEmpty = false) (hne' : j.isEmpty = false)
    (hl : value i.lower = .finite 0) (hu : value i.upper = .finite 0) : i * j = zero := by
  have hz : ∀ x y : Float, value x = .finite 0 → mulBounds x y = Scalar.zero := by
    intro x y hx
    unfold mulBounds
    rw [if_pos (by rw [Bool.or_eq_true, beq_zero_iff]; exact .inl hx)]
  rw [mul_of_isEmpty_eq_false hne hne', boundProducts, hz _ _ hl, hz _ _ hl, hz _ _ hu, hz _ _ hu]
  decide +kernel

/-! ### Intervals without finite ends -/

/-- Both bounds of the interval are infinite. -/
def IsWhole (i : Interval Float) : Prop := value i.lower = .negInf ∧ value i.upper = .posInf

/-- The real line is one. -/
theorem isWhole_univ : IsWhole univ := by
  rw [IsWhole, univ, value_neg, value_infinity]
  exact ⟨rfl, rfl⟩

/-- Bounds without finite ends are in order. -/
theorem IsWhole.isEmpty (h : IsWhole i) : i.isEmpty = false := by
  apply isEmpty_of_inOrder
  rw [inOrder_iff, h.1, h.2]
  exact ⟨Extended.negInf_le_posInf, nofun, nofun⟩

/-- Bounds without finite ends are not bounded. -/
theorem IsWhole.isBounded (h : IsWhole i) : i.isBounded = false := by
  have hub : i.isUnbounded = true := (isUnbounded_iff h.isEmpty).mpr (.inl h.1)
  rw [Interval.isBounded, hub, Bool.not_true, Bool.and_false]

/-- Sums with anything that is not empty have no finite ends either. -/
theorem IsWhole.add (h : IsWhole i) (hj : j.IsProper) (hne : j.isEmpty = false) :
    IsWhole (i + j) := by
  obtain ⟨hle, hl, hu⟩ := inOrder_iff.mp (hj.inOrder hne)
  obtain ⟨hln, hun⟩ := Extended.ne_nan_of_le hle
  have hlow : value (i.lower + j.lower) = .negInf := by
    rw [value_add, h.1]
    cases hv : value j.lower with
    | posInf => exact absurd hv hl
    | nan => exact absurd hv hln
    | _ => rfl
  have hupp : value (i.upper + j.upper) = .posInf := by
    rw [value_add, h.2]
    cases hv : value j.upper with
    | negInf => exact absurd hv hu
    | nan => exact absurd hv hun
    | _ => rfl
  have hl' : (i.lower + j.lower == infinity) = false := by
    rw [← Bool.not_eq_true, beq_infinity_iff, hlow]
    nofun
  have hu' : (i.upper + j.upper == -infinity) = false := by
    rw [← Bool.not_eq_true, beq_neg_infinity_iff, hupp]
    nofun
  have ho : InOrder (i.lower + j.lower) (i.upper + j.upper) := by
    rw [inOrder_iff, hlow, hupp]
    exact ⟨Extended.negInf_le_posInf, nofun, nofun⟩
  rw [add_of_isEmpty_eq_false h.isEmpty hne, outward, hl', hu', if_neg Bool.false_ne_true,
    if_neg Bool.false_ne_true, ofBounds_of_inOrder ho]
  exact ⟨hlow, hupp⟩

/-- Sums do not depend on the order of the operands. -/
theorem IsWhole.add_left (h : IsWhole i) (hj : j.IsProper) (hne : j.isEmpty = false) :
    IsWhole (j + i) := by
  have hcomm : (j + i).toRounded = (i + j).toRounded := by
    rw [toRounded_add, toRounded_add, Interval.add_comm]
  obtain ⟨hl, hu⟩ := h.add hj hne
  constructor
  · rw [← hl]
    exact congrArg (fun k : Interval Rounded ↦ k.lower.exact) hcomm
  · rw [← hu]
    exact congrArg (fun k : Interval Rounded ↦ k.upper.exact) hcomm

end AffineArithmetic.Interval

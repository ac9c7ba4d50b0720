import Mathlib.Data.List.Perm.Basic
import AffineArithmetic.Interval.Arithmetic
import AffineArithmetic.Interval.Proper
import AffineArithmetic.Proofs.Scalar.Lawful

/-!
# Commutative and symmetric interval arithmetic

Over lawful scalars sums and products of intervals do not depend on the order of the operands, and
negation exchanges the bounds in every result: midpoints are odd, radii and magnitudes are even, and
what is pulled back at one end is pulled back at the other. Nothing here needs bounds in order.
-/

namespace AffineArithmetic.Interval

open Scalar

variable {α : Type} [Scalar α]

section Cases

variable {i j : Interval α}

/-- The opposite of an interval that is not empty has the opposite bounds. -/
theorem neg_of_isEmpty_eq_false (h : i.isEmpty = false) : -i = ⟨-i.upper, -i.lower⟩ := by
  change (if i.isEmpty then i else ⟨-i.upper, -i.lower⟩) = _
  rw [h, if_neg Bool.false_ne_true]

/-- An empty interval is its own opposite. -/
theorem neg_of_isEmpty (h : i.isEmpty = true) : -i = i := if_pos h

/-- A sum with an empty operand is empty. -/
theorem add_of_isEmpty (h : i.isEmpty = true ∨ j.isEmpty = true) : i + j = empty :=
  if_pos (by rwa [Bool.or_eq_true])

/-- Bounds are added if no operand is empty. -/
theorem add_of_isEmpty_eq_false (hi : i.isEmpty = false) (hj : j.isEmpty = false) :
    i + j = outward (i.lower + j.lower) (i.upper + j.upper) := by
  change (if i.isEmpty || j.isEmpty then empty else _) = _
  rw [hi, hj]
  rfl

/-- A product with an empty operand is empty. -/
theorem mul_of_isEmpty (h : i.isEmpty = true ∨ j.isEmpty = true) : i * j = empty :=
  if_pos (by rwa [Bool.or_eq_true])

/-- A product of operands that are not empty lies between the products of their bounds. -/
theorem mul_of_isEmpty_eq_false (hi : i.isEmpty = false) (hj : j.isEmpty = false) :
    i * j = outward ((boundProducts i j).foldl Scalar.min infinity)
      ((boundProducts i j).foldl Scalar.max (-infinity)) := by
  change (if i.isEmpty || j.isEmpty then empty else _) = _
  rw [hi, hj]
  rfl

end Cases

variable [LawfulScalar α] {i j : Interval α} {l u : α}

/-! ### Opposite intervals -/

/-- Opposite bounds are in order as the bounds are. -/
theorem inOrder_neg : InOrder (-u) (-l) ↔ InOrder l u := by
  simp only [InOrder, LawfulScalar.neg_le_neg_iff, bne, LawfulScalar.neg_beq,
    LawfulScalar.neg_neg]
  rw [and_comm (a := (!u == -infinity) = true)]

/-- Bounds in order do not make an empty interval. -/
theorem isEmpty_of_le (h : l ≤ u) : (⟨l, u⟩ : Interval α).isEmpty = false := by
  rw [isEmpty, decide_eq_false_iff_not]
  exact LawfulScalar.not_lt_of_le h

/-- The empty interval is empty. -/
theorem empty_isEmpty : (empty : Interval α).isEmpty = true := by
  rw [isEmpty, decide_eq_true_iff, empty, LawfulScalar.lt_iff]
  exact ⟨LawfulScalar.neg_infinity_le LawfulScalar.infinity_ne_nan,
    LawfulScalar.not_infinity_le_neg_infinity⟩

/-- A proper interval that is not empty has bounds in order. -/
theorem IsProper.inOrder_of_isEmpty (h : i.IsProper) (he : i.isEmpty = false) :
    InOrder i.lower i.upper := by
  apply h.resolve_left
  rintro rfl
  rw [empty_isEmpty] at he
  contradiction

/-- Only the opposite of an empty interval is empty. -/
@[simp] theorem neg_isEmpty (i : Interval α) : (-i).isEmpty = i.isEmpty := by
  cases h : i.isEmpty with
  | true => rw [neg_of_isEmpty h, h]
  | false =>
    rw [neg_of_isEmpty_eq_false h, isEmpty]
    simp only [LawfulScalar.neg_lt_neg_iff]
    exact h

/-- Negation is its own inverse. -/
@[simp] protected theorem neg_neg (i : Interval α) : - -i = i := by
  cases h : i.isEmpty with
  | true => rw [neg_of_isEmpty h, neg_of_isEmpty h]
  | false =>
    rw [neg_of_isEmpty_eq_false (by rw [neg_isEmpty, h]), neg_of_isEmpty_eq_false h]
    simp only [LawfulScalar.neg_neg]

/-- The empty interval is its own opposite. -/
@[simp] theorem neg_empty : -(empty : Interval α) = empty := neg_of_isEmpty empty_isEmpty

/-- The real line is its own opposite. -/
@[simp] theorem neg_univ : -(univ : Interval α) = univ := by
  have hle : (-infinity : α) ≤ infinity := LawfulScalar.neg_infinity_le LawfulScalar.infinity_ne_nan
  have hne : (univ : Interval α).isEmpty = false := isEmpty_of_le hle
  rw [neg_of_isEmpty_eq_false hne]
  exact congrArg (Interval.mk (-infinity)) (LawfulScalar.neg_neg infinity)

/-- The interval of a noise symbol is its own opposite. -/
@[simp] theorem neg_noise : -(noise : Interval α) = noise := by
  have hle : -(Scalar.one : α) ≤ Scalar.zero := by
    rw [← LawfulScalar.neg_zero, LawfulScalar.neg_le_neg_iff]
    exact LawfulScalar.zero_le_one
  have hne : (noise : Interval α).isEmpty = false :=
    isEmpty_of_le (LawfulScalar.le_trans hle LawfulScalar.zero_le_one)
  rw [neg_of_isEmpty_eq_false hne]
  exact congrArg (Interval.mk (-Scalar.one)) (LawfulScalar.neg_neg Scalar.one)

/-- The interval between opposite bounds is the opposite interval. -/
theorem neg_ofBounds (l u : α) : -ofBounds l u = ofBounds (-u) (-l) := by
  by_cases h : InOrder l u
  · rw [ofBounds_of_inOrder h, ofBounds_of_inOrder (inOrder_neg.mpr h),
      neg_of_isEmpty_eq_false (isEmpty_of_le h.1)]
  · rw [ofBounds_of_not_inOrder h, ofBounds_of_not_inOrder (inOrder_neg.not.mpr h), neg_empty]

/-- Computed bounds beyond the reals are pulled back alike at both ends. -/
theorem neg_outward (l u : α) : -outward l u = outward (-u) (-l) := by
  unfold outward
  rw [neg_ofBounds]
  congr 1
  · rw [LawfulScalar.neg_beq]
    split
    · exact LawfulScalar.neg_neg _
    · rfl
  · rw [LawfulScalar.neg_beq, LawfulScalar.neg_neg]
    split <;> rfl

/-- The interval of the opposite scalar is the opposite interval. -/
theorem neg_ofScalar (x : α) : -ofScalar x = ofScalar (-x) := by
  unfold ofScalar
  rw [LawfulScalar.isFinite_neg, LawfulScalar.ite_neg_infinity]
  by_cases hf : isFinite x = true
  · rw [if_pos hf, if_pos hf]
    exact neg_of_isEmpty_eq_false
      (isEmpty_of_le (LawfulScalar.le_rfl (LawfulScalar.ne_nan_of_isFinite hf)))
  · rw [if_neg hf, if_neg hf, apply_ite (-·), apply_ite (-·), neg_ofBounds, neg_ofBounds, neg_univ,
      LawfulScalar.neg_neg, LawfulScalar.neg_neg]

/-! ### Ends, midpoints and sizes -/

/-- The opposite interval reaches down as the interval reaches up. -/
@[simp] theorem neg_isUnboundedBelow (i : Interval α) :
    (-i).isUnboundedBelow = i.isUnboundedAbove := by
  rw [isUnboundedBelow, isUnboundedAbove, neg_isEmpty]
  cases h : i.isEmpty with
  | true => rfl
  | false =>
    rw [neg_of_isEmpty_eq_false h, LawfulScalar.neg_beq, LawfulScalar.neg_neg]

/-- The opposite interval reaches up as the interval reaches down. -/
@[simp] theorem neg_isUnboundedAbove (i : Interval α) :
    (-i).isUnboundedAbove = i.isUnboundedBelow := by
  rw [← neg_isUnboundedBelow, Interval.neg_neg]

/-- The opposite interval has an infinite end as the interval has one. -/
@[simp] theorem neg_isUnbounded (i : Interval α) : (-i).isUnbounded = i.isUnbounded := by
  rw [isUnbounded, neg_isUnboundedBelow, neg_isUnboundedAbove, Bool.or_comm, isUnbounded]

/-- The opposite interval is bounded as the interval is. -/
@[simp] theorem neg_isBounded (i : Interval α) : (-i).isBounded = i.isBounded := by
  rw [isBounded, isBounded, neg_isEmpty, neg_isUnbounded]

/-- The midpoint is odd. -/
@[simp] theorem neg_midpoint (i : Interval α) : (-i).midpoint = -i.midpoint := by
  unfold midpoint
  rw [neg_isEmpty, neg_isUnboundedBelow, neg_isUnboundedAbove]
  cases h : i.isEmpty with
  | true => exact LawfulScalar.neg_nan.symm
  | false =>
    cases i.isUnboundedBelow <;> cases i.isUnboundedAbove
    · have hsum : half * (-i.upper + -i.lower) = -(half * (i.lower + i.upper)) := by
        rw [← LawfulScalar.neg_add, LawfulScalar.mul_neg, LawfulScalar.add_comm]
      have hhalves : half * -i.upper + half * -i.lower =
          -(half * i.lower + half * i.upper) := by
        rw [LawfulScalar.mul_neg, LawfulScalar.mul_neg, ← LawfulScalar.neg_add,
          LawfulScalar.add_comm]
      simp only [neg_of_isEmpty_eq_false h, hsum, hhalves, LawfulScalar.isFinite_neg,
        Bool.false_eq_true, if_false, ← apply_ite (fun a : α ↦ -a)]
    · rfl
    · exact (LawfulScalar.neg_neg _).symm
    · exact LawfulScalar.neg_zero.symm

/-- The radius is even. -/
@[simp] theorem neg_radius (i : Interval α) : (-i).radius = i.radius := by
  unfold radius
  rw [neg_isEmpty, neg_isUnbounded, neg_midpoint]
  cases h : i.isEmpty with
  | true => rfl
  | false =>
    rw [neg_of_isEmpty_eq_false h, LawfulScalar.neg_sub_neg, LawfulScalar.neg_sub_neg,
      LawfulScalar.neg_sub, LawfulScalar.neg_sub, LawfulScalar.max_comm]

/-- The width is even. -/
@[simp] theorem neg_width (i : Interval α) : (-i).width = i.width := by
  unfold width
  rw [neg_isEmpty]
  cases h : i.isEmpty with
  | true => rfl
  | false =>
    rw [neg_of_isEmpty_eq_false h, LawfulScalar.neg_sub_neg, LawfulScalar.neg_sub]

/-- The largest absolute value is even. -/
@[simp] theorem neg_magnitude (i : Interval α) : (-i).magnitude = i.magnitude := by
  unfold magnitude
  rw [neg_isEmpty]
  cases h : i.isEmpty with
  | true => rfl
  | false =>
    rw [neg_of_isEmpty_eq_false h, LawfulScalar.abs_neg, LawfulScalar.abs_neg,
      LawfulScalar.max_comm]

/-- The interval contains the opposites of the points of the opposite interval. -/
theorem neg_contains (h : i.isEmpty = false) (x : α) : (-i).contains x = i.contains (-x) := by
  rw [contains, contains, neg_of_isEmpty_eq_false h, decide_eq_decide, and_comm]
  nth_rewrite 1 2 [← LawfulScalar.neg_neg x]
  rw [LawfulScalar.neg_le_neg_iff, LawfulScalar.neg_le_neg_iff]

/-- The smallest absolute value is even. -/
@[simp] theorem neg_mignitude (i : Interval α) : (-i).mignitude = i.mignitude := by
  unfold mignitude
  rw [neg_isEmpty]
  cases h : i.isEmpty with
  | true => rfl
  | false =>
    rw [neg_contains h, LawfulScalar.neg_zero, neg_of_isEmpty_eq_false h, LawfulScalar.abs_neg,
      LawfulScalar.abs_neg, LawfulScalar.min_comm]

/-- Even powers are even. -/
theorem neg_pow_of_even (i : Interval α) {n : ℕ} (hn : n % 2 = 0) : (-i).pow n = i.pow n := by
  unfold pow
  rw [neg_isEmpty, neg_mignitude, neg_magnitude, if_neg (show n ≠ 1 by omega),
    if_neg (show n ≠ 1 by omega), if_pos hn, if_pos hn]

/-! ### Sums -/

/-- A sum does not depend on the order of its operands. -/
protected theorem add_comm (i j : Interval α) : i + j = j + i := by
  by_cases h : i.isEmpty = true ∨ j.isEmpty = true
  · rw [add_of_isEmpty h, add_of_isEmpty h.symm]
  · rw [not_or, Bool.not_eq_true, Bool.not_eq_true] at h
    rw [add_of_isEmpty_eq_false h.1 h.2, add_of_isEmpty_eq_false h.2 h.1,
      LawfulScalar.add_comm i.lower, LawfulScalar.add_comm i.upper]

/-- The opposite of a sum is the sum of the opposites. -/
protected theorem neg_add (i j : Interval α) : -(i + j) = -i + -j := by
  by_cases h : i.isEmpty = true ∨ j.isEmpty = true
  · rw [add_of_isEmpty h, add_of_isEmpty (by rwa [neg_isEmpty, neg_isEmpty]), neg_empty]
  · rw [not_or, Bool.not_eq_true, Bool.not_eq_true] at h
    rw [add_of_isEmpty_eq_false h.1 h.2, neg_outward,
      add_of_isEmpty_eq_false (by rw [neg_isEmpty, h.1]) (by rw [neg_isEmpty, h.2]),
      neg_of_isEmpty_eq_false h.1, neg_of_isEmpty_eq_false h.2, LawfulScalar.neg_add,
      LawfulScalar.neg_add]

/-! ### Products -/

/-- A product of bounds does not depend on their order. -/
theorem mulBounds_swap (a b : α) : mulBounds a b = mulBounds b a := by
  rw [mulBounds, mulBounds, Bool.or_comm, LawfulScalar.mul_comm]

/-- The product with an opposite bound is the opposite product. -/
theorem neg_mulBounds (a b : α) : mulBounds (-a) b = -mulBounds a b := by
  unfold mulBounds
  rw [LawfulScalar.neg_beq, LawfulScalar.neg_zero, LawfulScalar.neg_mul]
  split
  · exact LawfulScalar.neg_zero.symm
  · rfl

/-- The products of bounds do not depend on the order of the intervals, but for their own order. -/
theorem boundProducts_perm (i j : Interval α) :
    (boundProducts i j).Perm (boundProducts j i) := by
  unfold boundProducts
  rw [mulBounds_swap j.lower, mulBounds_swap j.lower, mulBounds_swap j.upper,
    mulBounds_swap j.upper]
  exact .cons _ (.swap _ _ _)

/-- The opposite interval has the opposite products of bounds. -/
theorem boundProducts_neg (h : i.isEmpty = false) (j : Interval α) :
    (boundProducts (-i) j).Perm ((boundProducts i j).map (-·)) := by
  simp only [boundProducts, neg_of_isEmpty_eq_false h, neg_mulBounds, List.map_cons, List.map_nil]
  exact (List.perm_append_comm : ([_, _] ++ [_, _]).Perm ([_, _] ++ [_, _]))

/-- A product does not depend on the order of its operands. -/
protected theorem mul_comm (i j : Interval α) : i * j = j * i := by
  by_cases h : i.isEmpty = true ∨ j.isEmpty = true
  · rw [mul_of_isEmpty h, mul_of_isEmpty h.symm]
  · rw [not_or, Bool.not_eq_true, Bool.not_eq_true] at h
    rw [mul_of_isEmpty_eq_false h.1 h.2, mul_of_isEmpty_eq_false h.2 h.1,
      (boundProducts_perm i j).foldl_eq, (boundProducts_perm i j).foldl_eq]

/-- The product with the opposite interval is the opposite product. -/
protected theorem neg_mul (i j : Interval α) : -i * j = -(i * j) := by
  by_cases h : i.isEmpty = true ∨ j.isEmpty = true
  · rw [mul_of_isEmpty h, mul_of_isEmpty (by rwa [neg_isEmpty]), neg_empty]
  · rw [not_or, Bool.not_eq_true, Bool.not_eq_true] at h
    rw [mul_of_isEmpty_eq_false h.1 h.2, neg_outward,
      mul_of_isEmpty_eq_false (by rw [neg_isEmpty, h.1]) h.2,
      (boundProducts_neg h.1 j).foldl_eq, (boundProducts_neg h.1 j).foldl_eq,
      ← LawfulScalar.foldl_min_map_neg, ← LawfulScalar.foldl_max_map_neg, LawfulScalar.neg_neg]

/-- The product with the opposite interval is the opposite product. -/
protected theorem mul_neg (i j : Interval α) : i * -j = -(i * j) := by
  rw [Interval.mul_comm, Interval.neg_mul, Interval.mul_comm]

end AffineArithmetic.Interval

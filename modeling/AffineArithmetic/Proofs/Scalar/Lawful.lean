import AffineArithmetic.Proofs.Scalar.Extended

/-!
# The laws of scalars

What exact numbers and rounded ones have in common: all numbers but the undefined one are ordered,
sums and products do not depend on the order of their operands, and negation is an exact symmetry.
Neither associativity nor distributivity is among the laws, since rounding breaks them. The formulas
of the library inherit these laws, however much they overflow.
-/

namespace AffineArithmetic

open Scalar

/-- Scalars with a symmetric order and symmetric, commutative arithmetic. -/
class LawfulScalar (α : Type) [Scalar α] : Prop where
  le_antisymm {a b : α} : a ≤ b → b ≤ a → a = b
  le_trans {a b c : α} : a ≤ b → b ≤ c → a ≤ c
  le_total {a b : α} : a ≠ nan → b ≠ nan → a ≤ b ∨ b ≤ a
  ne_nan_of_le {a b : α} : a ≤ b → a ≠ nan ∧ b ≠ nan
  lt_iff {a b : α} : a < b ↔ a ≤ b ∧ ¬ b ≤ a
  beq_iff {a b : α} : (a == b) = true ↔ a = b ∧ a ≠ nan
  le_infinity {a : α} : a ≠ nan → a ≤ infinity
  neg_neg (a : α) : - -a = a
  neg_le_neg {a b : α} : a ≤ b → -b ≤ -a
  neg_zero : -(zero : α) = zero
  add_comm (a b : α) : a + b = b + a
  neg_add (a b : α) : -(a + b) = -a + -b
  sub_eq_add_neg (a b : α) : a - b = a + -b
  add_zero (a : α) : a + zero = a
  mul_comm (a b : α) : a * b = b * a
  neg_mul (a b : α) : -a * b = -(a * b)
  mul_one (a : α) : a * one = a
  abs_neg (a : α) : Scalar.abs (-a) = Scalar.abs a
  abs_of_nonneg {a : α} : zero ≤ a → Scalar.abs a = a
  zero_le_one : (zero : α) ≤ one
  one_ne_zero : (one : α) ≠ zero
  isFinite_neg (a : α) : isFinite (-a) = isFinite a
  isFinite_abs (a : α) : isFinite (Scalar.abs a) = isFinite a
  isFinite_of_add {a b : α} : isFinite (a + b) = true → isFinite a = true ∧ isFinite b = true
  isFinite_of_mul {a b : α} : isFinite (a * b) = true → isFinite a = true ∧ isFinite b = true
  isFinite_zero : isFinite (zero : α) = true
  isFinite_one : isFinite (one : α) = true
  isFinite_half : isFinite (half : α) = true
  isFinite_nan : isFinite (nan : α) = false
  isFinite_infinity : isFinite (infinity : α) = false
  /-- A finite number is at no distance from itself. -/
  sub_self {a : α} : isFinite a = true → a - a = zero
  mul_zero {a : α} : isFinite a = true → a * zero = zero
  /-- The midpoint of two equal bounds is that bound. -/
  half_add_self {a : α} : isFinite a = true →
    (if isFinite (half * (a + a)) then half * (a + a) else half * a + half * a) = a

namespace LawfulScalar

variable {α : Type} [Scalar α] [LawfulScalar α] {a b c : α}

attribute [simp] LawfulScalar.neg_neg LawfulScalar.neg_zero LawfulScalar.add_zero
  LawfulScalar.mul_one LawfulScalar.abs_neg LawfulScalar.isFinite_neg LawfulScalar.isFinite_abs
  LawfulScalar.isFinite_zero LawfulScalar.isFinite_one LawfulScalar.isFinite_half
  LawfulScalar.isFinite_nan LawfulScalar.isFinite_infinity

/-! ### Negation -/

/-- The opposites of different numbers are different. -/
@[simp] theorem neg_inj : -a = -b ↔ a = b := by
  constructor
  · intro h
    rw [← LawfulScalar.neg_neg a, h, LawfulScalar.neg_neg]
  · exact congrArg _

/-- The opposite of a number is another one if the number is the opposite of that. -/
theorem neg_eq_iff : -a = b ↔ a = -b := by
  rw [← neg_inj, LawfulScalar.neg_neg]

/-- Opposites are in the opposite order. -/
@[simp] theorem neg_le_neg_iff : -b ≤ -a ↔ a ≤ b := by
  constructor
  · intro h
    have := LawfulScalar.neg_le_neg h
    rwa [LawfulScalar.neg_neg, LawfulScalar.neg_neg] at this
  · exact LawfulScalar.neg_le_neg

/-- Opposites are in the opposite strict order. -/
@[simp] theorem neg_lt_neg_iff : -b < -a ↔ a < b := by
  rw [lt_iff, lt_iff, neg_le_neg_iff, neg_le_neg_iff]

/-- The undefined number has no opposite. -/
@[simp] theorem neg_nan : -(nan : α) = nan := by
  by_contra h
  have hle := LawfulScalar.neg_le_neg (le_infinity h)
  rw [LawfulScalar.neg_neg] at hle
  exact (ne_nan_of_le hle).2 rfl

/-- Only the opposite of the undefined number is undefined. -/
@[simp] theorem neg_eq_nan : -a = nan ↔ a = nan := by
  rw [neg_eq_iff, neg_nan]

/-- Opposites are compared as the numbers are. -/
theorem neg_beq : (-a == b) = (a == -b) := by
  rw [Bool.eq_iff_iff, beq_iff, beq_iff, neg_eq_iff, Ne, neg_eq_nan]

/-- The product with the opposite number is the opposite product. -/
protected theorem mul_neg (a b : α) : a * -b = -(a * b) := by
  rw [LawfulScalar.mul_comm, LawfulScalar.neg_mul, LawfulScalar.mul_comm]

/-- The opposite of a difference is the difference of the opposites. -/
protected theorem neg_sub_neg (a b : α) : -a - -b = -(a - b) := by
  rw [LawfulScalar.sub_eq_add_neg, LawfulScalar.sub_eq_add_neg, LawfulScalar.neg_add]

/-- A difference with the opposite is a sum. -/
protected theorem sub_neg (a b : α) : a - -b = a + b := by
  rw [LawfulScalar.sub_eq_add_neg, LawfulScalar.neg_neg]

/-- The opposite of a difference exchanges the operands. -/
protected theorem neg_sub (a b : α) : -(a - b) = b - a := by
  rw [← LawfulScalar.neg_sub_neg, LawfulScalar.sub_neg, LawfulScalar.add_comm,
    LawfulScalar.sub_eq_add_neg]

/-- Subtracting 0 changes nothing. -/
@[simp] protected theorem sub_zero (a : α) : a - zero = a := by
  rw [LawfulScalar.sub_eq_add_neg, LawfulScalar.neg_zero, LawfulScalar.add_zero]

/-- Adding to 0 changes nothing. -/
@[simp] protected theorem zero_add (a : α) : zero + a = a := by
  rw [LawfulScalar.add_comm, LawfulScalar.add_zero]

/-- A finite multiple of 0 is 0. -/
protected theorem zero_mul (h : isFinite a = true) : zero * a = zero := by
  rw [LawfulScalar.mul_comm, LawfulScalar.mul_zero h]

/-! ### Order -/

/-- Finite numbers are not undefined. -/
theorem ne_nan_of_isFinite (h : isFinite a = true) : a ≠ nan := by
  rintro rfl
  rw [isFinite_nan] at h
  contradiction

/-- Numbers other than the undefined one are at most themselves. -/
protected theorem le_rfl (h : a ≠ nan) : a ≤ a := by
  rcases le_total h h with h | h <;> exact h

/-- Numbers in order are not in the opposite strict order. -/
theorem not_lt_of_le (h : a ≤ b) : ¬ b < a := fun hlt ↦ (lt_iff.mp hlt).2 h

/-- Only the undefined number differs from itself. -/
theorem beq_self_iff : (a == a) = true ↔ a ≠ nan := by
  rw [beq_iff, and_iff_right rfl]

/-- Negative infinity is below every number. -/
theorem neg_infinity_le (h : a ≠ nan) : -infinity ≤ a := by
  rw [← LawfulScalar.neg_neg a, neg_le_neg_iff]
  exact le_infinity (neg_eq_nan.not.mpr h)

/-- Infinity is not undefined. -/
theorem infinity_ne_nan : (infinity : α) ≠ nan :=
  (ne_nan_of_le (le_infinity (ne_nan_of_isFinite isFinite_zero))).2

/-- The infinities are not in the opposite order, since 0 lies between them and is finite. -/
theorem not_infinity_le_neg_infinity : ¬ (infinity : α) ≤ -infinity := by
  intro h
  have h0 : (zero : α) ≠ nan := ne_nan_of_isFinite isFinite_zero
  have hle : (infinity : α) ≤ zero := LawfulScalar.le_trans h (neg_infinity_le h0)
  have hf : isFinite (zero : α) = true := isFinite_zero
  rw [LawfulScalar.le_antisymm (le_infinity h0) hle, isFinite_infinity] at hf
  contradiction

/-- The infinities are different. -/
theorem infinity_ne_neg_infinity : (infinity : α) ≠ -infinity := by
  intro h
  have hle : (infinity : α) ≤ infinity := LawfulScalar.le_rfl infinity_ne_nan
  nth_rewrite 2 [h] at hle
  exact not_infinity_le_neg_infinity hle

/-- Telling the infinities apart gives the cases in the opposite order for the opposite number. -/
theorem ite_neg_infinity {β : Type} (a : α) (x y z : β) :
    (if (-a == infinity) = true then x else if (-a == -infinity) = true then y else z) =
      if (a == infinity) = true then y else if (a == -infinity) = true then x else z := by
  rw [neg_beq, neg_beq, LawfulScalar.neg_neg]
  by_cases hp : (a == infinity) = true
  · have hn : ¬ (a == -infinity) = true := by
      intro hn
      exact infinity_ne_neg_infinity ((beq_iff.mp hp).1.symm.trans (beq_iff.mp hn).1)
    rw [if_neg hn, if_pos hp, if_pos hp]
  · rw [if_neg hp, if_neg hp]

/-- The number 0 is its own absolute value. -/
@[simp] theorem abs_zero : Scalar.abs (zero : α) = zero :=
  abs_of_nonneg (LawfulScalar.le_rfl (ne_nan_of_isFinite isFinite_zero))

/-- The number 1 is its own absolute value. -/
@[simp] theorem abs_one : Scalar.abs (one : α) = one := abs_of_nonneg zero_le_one

/-! ### Minima and maxima -/

omit [LawfulScalar α] in
/-- The maximum of numbers in order is the larger one. -/
theorem max_of_le (h : a ≤ b) : Scalar.max a b = b := if_pos h

/-- The maximum of numbers in order is the larger one. -/
theorem max_of_ge (h : b ≤ a) : Scalar.max a b = a := by
  unfold Scalar.max
  split
  · next h' => exact LawfulScalar.le_antisymm h h'
  · exact if_pos (beq_self_iff.mpr (ne_nan_of_le h).2)

/-- A maximum with the undefined number is the other number. -/
theorem max_nan (a : α) : Scalar.max a nan = a := by
  unfold Scalar.max
  rw [if_neg fun h ↦ (ne_nan_of_le h).2 rfl]
  split
  · rfl
  · next h =>
    rw [beq_self_iff, not_not] at h
    exact h.symm

/-- A maximum with the undefined number is the other number. -/
theorem nan_max (a : α) : Scalar.max nan a = a := by
  unfold Scalar.max
  rw [if_neg fun h ↦ (ne_nan_of_le h).1 rfl, if_neg fun h ↦ beq_self_iff.mp h rfl]

/-- A maximum does not depend on the order of its operands. -/
protected theorem max_comm (a b : α) : Scalar.max a b = Scalar.max b a := by
  by_cases ha : a = nan
  · rw [ha, nan_max, max_nan]
  by_cases hb : b = nan
  · rw [hb, nan_max, max_nan]
  rcases le_total ha hb with h | h
  · rw [max_of_le h, max_of_ge h]
  · rw [max_of_ge h, max_of_le h]

/-- The largest of three numbers does not depend on the order of the last two. -/
theorem max_right_comm (a b c : α) :
    Scalar.max (Scalar.max a b) c = Scalar.max (Scalar.max a c) b := by
  by_cases ha : a = nan
  · rw [ha, nan_max, nan_max, LawfulScalar.max_comm]
  by_cases hb : b = nan
  · rw [hb, max_nan, max_nan]
  by_cases hc : c = nan
  · rw [hc, max_nan, max_nan]
  rcases le_total ha hb with hab | hba <;> rcases le_total ha hc with hac | hca
  · rw [max_of_le hab, max_of_le hac, LawfulScalar.max_comm]
  · rw [max_of_le hab, max_of_ge hca, max_of_le hab, max_of_ge (LawfulScalar.le_trans hca hab)]
  · rw [max_of_ge hba, max_of_le hac, max_of_ge (LawfulScalar.le_trans hba hac)]
  · rw [max_of_ge hba, max_of_ge hca, max_of_ge hba]

omit [LawfulScalar α] in
/-- The minimum of numbers in order is the smaller one. -/
theorem min_of_ge (h : b ≤ a) : Scalar.min a b = b := if_pos h

/-- The minimum of numbers in order is the smaller one. -/
theorem min_of_le (h : a ≤ b) : Scalar.min a b = a := by
  unfold Scalar.min
  split
  · next h' => exact LawfulScalar.le_antisymm h' h
  · exact if_pos (beq_self_iff.mpr (ne_nan_of_le h).1)

/-- The opposite of a minimum is the maximum of the opposites. -/
protected theorem neg_min (a b : α) : -Scalar.min a b = Scalar.max (-a) (-b) := by
  have hself : (-a == -a) = (a == a) := by rw [neg_beq, LawfulScalar.neg_neg]
  simp only [Scalar.max, Scalar.min, neg_le_neg_iff, hself]
  split
  · rfl
  · split <;> rfl

/-- The opposite of a maximum is the minimum of the opposites. -/
protected theorem neg_max (a b : α) : -Scalar.max a b = Scalar.min (-a) (-b) := by
  rw [neg_eq_iff, LawfulScalar.neg_min, LawfulScalar.neg_neg, LawfulScalar.neg_neg]

/-- A minimum does not depend on the order of its operands. -/
protected theorem min_comm (a b : α) : Scalar.min a b = Scalar.min b a := by
  rw [← neg_inj, LawfulScalar.neg_min, LawfulScalar.neg_min, LawfulScalar.max_comm]

/-- The smallest of three numbers does not depend on the order of the last two. -/
theorem min_right_comm (a b c : α) :
    Scalar.min (Scalar.min a b) c = Scalar.min (Scalar.min a c) b := by
  rw [← neg_inj]
  simp only [LawfulScalar.neg_min]
  exact max_right_comm _ _ _

instance : RightCommutative (Scalar.max : α → α → α) := ⟨max_right_comm⟩

instance : RightCommutative (Scalar.min : α → α → α) := ⟨min_right_comm⟩

/-- A minimum is at most its first operand. -/
theorem min_le_left (ha : a ≠ nan) : Scalar.min a b ≤ a := by
  unfold Scalar.min
  split
  · next h => exact h
  · rw [if_pos (beq_self_iff.mpr ha)]
    exact LawfulScalar.le_rfl ha

/-- A minimum is at most its second operand. -/
theorem min_le_right (hb : b ≠ nan) : Scalar.min a b ≤ b := by
  rw [LawfulScalar.min_comm]
  exact min_le_left hb

/-- A maximum is at least its first operand. -/
theorem le_max_left (ha : a ≠ nan) : a ≤ Scalar.max a b := by
  rw [← neg_le_neg_iff, LawfulScalar.neg_max]
  exact min_le_left (neg_eq_nan.not.mpr ha)

/-- A maximum is at least its second operand. -/
theorem le_max_right (hb : b ≠ nan) : b ≤ Scalar.max a b := by
  rw [LawfulScalar.max_comm]
  exact le_max_left hb

/-- The minimum of numbers from a first one on is at most each of them. -/
theorem foldl_min_le {xs : List α} (ha : a ≠ nan) (h : ∀ b ∈ xs, b ≠ nan) :
    xs.foldl Scalar.min a ≤ a ∧ ∀ b ∈ xs, xs.foldl Scalar.min a ≤ b := by
  induction xs generalizing a with
  | nil => exact ⟨LawfulScalar.le_rfl ha, fun b hb ↦ absurd hb List.not_mem_nil⟩
  | cons c xs ih =>
    have hl : Scalar.min a c ≤ a := min_le_left ha
    have hr : Scalar.min a c ≤ c := min_le_right (h c List.mem_cons_self)
    obtain ⟨h1, h2⟩ := ih (ne_nan_of_le hl).1 fun b hb ↦ h b (List.mem_cons_of_mem c hb)
    refine ⟨LawfulScalar.le_trans h1 hl, fun b hb ↦ ?_⟩
    rcases List.mem_cons.mp hb with rfl | hb
    · exact LawfulScalar.le_trans h1 hr
    · exact h2 b hb

omit [Scalar α] [LawfulScalar α] in
/-- Choosing one of two numbers again and again gives one of all numbers. -/
theorem foldl_mem {f : α → α → α} (hf : ∀ a b, f a b = a ∨ f a b = b) (xs : List α) (a : α) :
    xs.foldl f a ∈ a :: xs := by
  induction xs generalizing a with
  | nil => exact List.mem_cons_self
  | cons c xs ih =>
    rw [List.foldl_cons]
    rcases hf a c with h | h <;> rw [h]
    · exact List.cons_subset_cons a (List.subset_cons_self c xs) (ih a)
    · exact List.mem_cons_of_mem a (ih c)

/-- The smallest opposite number is the opposite of the largest number. -/
theorem foldl_min_map_neg (xs : List α) (s : α) :
    (xs.map (-·)).foldl Scalar.min (-s) = -xs.foldl Scalar.max s := by
  rw [List.foldl_map]
  exact List.foldl_hom (-·) fun a b ↦ (LawfulScalar.neg_max a b).symm

/-- The largest opposite number is the opposite of the smallest number. -/
theorem foldl_max_map_neg (xs : List α) (s : α) :
    (xs.map (-·)).foldl Scalar.max (-s) = -xs.foldl Scalar.min s := by
  rw [List.foldl_map]
  exact List.foldl_hom (-·) fun a b ↦ (LawfulScalar.neg_min a b).symm

/-- The maximum of numbers from a first one on is at least each of them. -/
theorem le_foldl_max {xs : List α} (ha : a ≠ nan) (h : ∀ b ∈ xs, b ≠ nan) :
    a ≤ xs.foldl Scalar.max a ∧ ∀ b ∈ xs, b ≤ xs.foldl Scalar.max a := by
  have hn : ∀ b ∈ xs.map (-·), b ≠ nan := by
    intro b hb
    obtain ⟨c, hc, rfl⟩ := List.mem_map.mp hb
    exact neg_eq_nan.not.mpr (h c hc)
  obtain ⟨h1, h2⟩ := foldl_min_le (neg_eq_nan.not.mpr ha) hn
  rw [foldl_min_map_neg] at h1 h2
  exact ⟨neg_le_neg_iff.mp h1, fun b hb ↦ neg_le_neg_iff.mp (h2 (-b) (List.mem_map_of_mem hb))⟩

end LawfulScalar

/-! ### Exact numbers -/

variable {K : Type} [Field K] [LinearOrder K] [IsStrictOrderedRing K]

/-- Exact numbers have all laws. -/
instance : LawfulScalar (Extended K) where
  le_antisymm {a b} h h' := (Extended.beq_iff_eq a b (Extended.ne_nan_of_le h).1).mp
    (decide_eq_true ⟨h, h'⟩)
  le_trans := Extended.le_trans
  le_total := Extended.le_total
  ne_nan_of_le := Extended.ne_nan_of_le
  lt_iff := Extended.lt_iff
  beq_iff {a b} := by
    by_cases h : a = .nan
    · rw [h]
      exact ⟨fun hb ↦ absurd (of_decide_eq_true hb).1 (Extended.not_nan_le b),
        fun hb ↦ absurd rfl hb.2⟩
    · rw [Extended.beq_iff_eq a b h]
      exact (and_iff_left h).symm
  le_infinity := Extended.le_posInf
  neg_neg _ := Extended.neg_neg
  neg_le_neg := Extended.neg_le_neg
  neg_zero := congrArg Extended.finite neg_zero
  add_comm := Extended.add_comm
  neg_add := Extended.neg_add
  sub_eq_add_neg := Extended.sub_eq_add_neg
  add_zero a := by cases a <;> simp [zero]
  mul_comm := Extended.mul_comm
  neg_mul := Extended.neg_mul
  mul_one a := (Extended.mul_comm a _).trans (Extended.one_mul a)
  abs_neg := Extended.abs_neg
  abs_of_nonneg := Extended.abs_of_nonneg
  zero_le_one := zero_le_one' K
  one_ne_zero h := one_ne_zero (Extended.finite.inj h)
  isFinite_neg _ := Extended.isFinite_neg
  isFinite_abs _ := Extended.isFinite_abs
  isFinite_of_add h := Bool.and_eq_true_iff.mp (Extended.isFinite_add.symm.trans h)
  isFinite_of_mul h := Bool.and_eq_true_iff.mp (Extended.isFinite_mul.symm.trans h)
  isFinite_zero := rfl
  isFinite_one := rfl
  isFinite_half := rfl
  isFinite_nan := rfl
  isFinite_infinity := rfl
  sub_self {a} h := by
    obtain ⟨x, rfl⟩ := Extended.isFinite_iff.mp h
    exact (Extended.finite_sub_finite x x).trans (congrArg Extended.finite (sub_self x))
  mul_zero {a} h := by
    obtain ⟨x, rfl⟩ := Extended.isFinite_iff.mp h
    exact congrArg Extended.finite (mul_zero x)
  half_add_self {a} h := by
    obtain ⟨x, rfl⟩ := Extended.isFinite_iff.mp h
    refine (if_pos rfl).trans (congrArg Extended.finite ?_)
    linarith

end AffineArithmetic

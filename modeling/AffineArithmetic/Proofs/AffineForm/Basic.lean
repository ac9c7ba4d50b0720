import Mathlib.Algebra.Group.Basic
import AffineArithmetic.AffineForm.Operators
import AffineArithmetic.Proofs.Linear.Basic

/-!
# The cases of the operations on forms

Which formula an operation uses: the linear one where both forms are linear and over the same
symbols, the one with the interval of the smaller form where the symbols differ, and interval
arithmetic otherwise.
-/

namespace AffineArithmetic.AffineForm

variable {α : Type} [Scalar α] {x y : AffineForm α} {p q : Linear α} {r : Interval α} {a : α}

omit [Scalar α] in
/-- A form is linear and the other operand has what that needs, or one of the two fails. -/
theorem active_or_not (x : AffineForm α) (b : Bool) :
    (∃ p, x = active p ∧ b = true) ∨ (x.isActive = false ∨ b = false) := by
  cases x with
  | active p =>
    cases b with
    | true => exact .inl ⟨p, rfl, rfl⟩
    | false => exact .inr (.inr rfl)
  | _ => exact .inr (.inl rfl)

omit [Scalar α] in
/-- Two forms are both linear, or one of them is not. -/
theorem active_active_or_not (x y : AffineForm α) :
    (∃ p q, x = active p ∧ y = active q) ∨ (x.isActive = false ∨ y.isActive = false) := by
  cases y with
  | active q =>
    rcases active_or_not x true with ⟨p, rfl, -⟩ | h | h
    · exact .inl ⟨p, q, rfl, rfl⟩
    · exact .inr (.inl h)
    · contradiction
  | _ => exact .inr (.inr rfl)

/-- Only the opposite of the empty form is empty. -/
theorem neg_eq_empty : -x = empty ↔ x = empty := by
  cases x with
  | empty => exact ⟨fun _ ↦ rfl, fun _ ↦ rfl⟩
  | _ => constructor <;> intro h <;> contradiction

/-- The form of an interval by the ends of the interval. -/
theorem ofInterval_cases (i : Interval α) :
    (i.isEmpty = true ∧ ofInterval i = empty) ∨ (i.isEmpty = false ∧
      ((i.isUnboundedBelow = true ∧ i.isUnboundedAbove = true ∧ ofInterval i = allReals) ∨
      (i.isUnboundedBelow = false ∧ i.isUnboundedAbove = true ∧
        ofInterval i = boundedBelow i.lower) ∨
      (i.isUnboundedBelow = true ∧ i.isUnboundedAbove = false ∧
        ofInterval i = boundedAbove i.upper) ∨
      (i.isBounded = true ∧ ofInterval i = active (.constant i.midpoint i.radius)))) := by
  rw [ofInterval, Interval.isBounded, Interval.isUnbounded]
  cases i.isEmpty with
  | true => exact .inl ⟨rfl, rfl⟩
  | false =>
    refine .inr ⟨rfl, ?_⟩
    cases i.isUnboundedBelow with
    | true =>
      cases i.isUnboundedAbove with
      | true => exact .inl ⟨rfl, rfl, rfl⟩
      | false => exact .inr (.inr (.inl ⟨rfl, rfl, rfl⟩))
    | false =>
      cases i.isUnboundedAbove with
      | true => exact .inr (.inl ⟨rfl, rfl, rfl⟩)
      | false => exact .inr (.inr (.inr ⟨rfl, rfl⟩))

/-- The form of an interval is linear if the interval is bounded. -/
@[simp] theorem isActive_ofInterval (i : Interval α) :
    (ofInterval i).isActive = i.isBounded := by
  rw [Interval.isBounded, Interval.isUnbounded, ofInterval]
  cases i.isEmpty with
  | true => rfl
  | false => cases i.isUnboundedBelow <;> cases i.isUnboundedAbove <;> rfl

/-! ### Steps of an update -/

/-- Linear forms are multiplied by finite scalars. -/
theorem scaleStep_of_isFinite (h : Scalar.isFinite a = true) :
    (active p).scaleStep a = active (p.scale a) := by
  unfold scaleStep
  rw [h]

/-- Other scalars and other forms are multiplied as intervals. -/
theorem scaleStep_of_not (h : x.isActive = false ∨ Scalar.isFinite a = false) :
    x.scaleStep a = ofInterval (x.toInterval * a) := by
  unfold scaleStep
  cases x with
  | active p =>
    rw [h.resolve_left Bool.noConfusion]
  | _ => rfl

/-- Linear forms are moved by finite scalars. -/
theorem shiftStep_of_isFinite (h : Scalar.isFinite a = true) :
    (active p).shiftStep a = active (p.shift a) := by
  unfold shiftStep
  rw [h]

/-- Other scalars and other forms are added as intervals. -/
theorem shiftStep_of_not (h : x.isActive = false ∨ Scalar.isFinite a = false) :
    x.shiftStep a = ofInterval (x.toInterval + a) := by
  unfold shiftStep
  cases x with
  | active p =>
    rw [h.resolve_left Bool.noConfusion]
  | _ => rfl

/-- Linear forms are widened by finite scalars. -/
theorem widenStep_of_isFinite (h : Scalar.isFinite a = true) :
    (active p).widenStep a = active (p.widen a) := by
  unfold widenStep
  rw [h]

/-- Other forms, and linear ones by other scalars, are widened as intervals. -/
theorem widenStep_of_not (h : x.isActive = false ∨ Scalar.isFinite a = false) :
    x.widenStep a = ofInterval (x.toInterval + (Interval.noise : Interval α) * a) := by
  unfold widenStep
  cases x with
  | active p =>
    rw [h.resolve_left Bool.noConfusion]
  | _ => rfl

/-! ### Sums -/

/-- Forms over the same symbols are added entry by entry. -/
theorem addStep_of_eq (h : p.size = q.size) :
    (active p).addStep (active q) = active (p + q) := by
  simp only [addStep, Linear.matchWith_of_eq h]

/-- A second form with fewer symbols is added as an interval. -/
theorem addStep_of_gt (h : q.size < p.size) :
    (active p).addStep (active q) = (active p).addInterval q.toInterval := by
  simp only [addStep, Linear.matchWith_of_gt h]

/-- A first form with fewer symbols is added as an interval. -/
theorem addStep_of_lt (h : p.size < q.size) :
    (active p).addStep (active q) = (active q).addInterval p.toInterval := by
  simp only [addStep, Linear.matchWith_of_lt h]

/-- Forms that are not both linear are added as intervals. -/
theorem addStep_of_not_active (h : x.isActive = false ∨ y.isActive = false) :
    x.addStep y = ofInterval (x.toInterval + y.toInterval) := by
  cases x <;> cases y <;> first | rfl | (rcases h with h | h <;> contradiction)

/-- A difference adds to the opposite form and turns the result around. -/
theorem sub_eq (x y : AffineForm α) :
    x - y = -((x.scaleStep (-Scalar.one)).addStep y).settle := rfl

/-- Bounded intervals are added to the linear part. -/
theorem addInterval_of_isBounded (h : r.isBounded = true) :
    (active p).addInterval r = (((active p).shiftStep r.midpoint).widenStep r.radius).settle := by
  rw [addInterval, addIntervalSteps, if_pos (by rw [h]; rfl)]

/-- Other intervals are added to the enclosed interval. -/
theorem addInterval_of_not_isBounded (h : r.isBounded = false) :
    x.addInterval r = (ofInterval (x.toInterval + r)).settle := by
  rw [addInterval, addIntervalSteps, if_neg (by rw [h, Bool.and_false]; exact Bool.false_ne_true)]

/-- Other forms and other intervals are added as intervals. -/
theorem addInterval_of_not (h : x.isActive = false ∨ r.isBounded = false) :
    x.addInterval r = (ofInterval (x.toInterval + r)).settle := by
  rw [addInterval, addIntervalSteps, if_neg]
  rcases h with h | h <;> rw [h]
  · exact Bool.false_ne_true
  · rw [Bool.and_false]
    exact Bool.false_ne_true

/-! ### Products -/

/-- The linear part is multiplied with a bounded interval. -/
theorem mulInterval_of_isBounded (h : r.isBounded = true) :
    (active p).mulInterval r = (active (p.mulInterval r)).settle := by
  unfold mulInterval
  rw [h]

/-- The enclosed interval is multiplied with any other interval. -/
theorem mulInterval_of_not_isBounded (h : r.isBounded = false) :
    x.mulInterval r = ofInterval (x.toInterval * r) := by
  unfold mulInterval
  rw [h]
  cases x <;> rfl

/-- Other forms and other intervals are multiplied as intervals. -/
theorem mulInterval_of_not (h : x.isActive = false ∨ r.isBounded = false) :
    x.mulInterval r = ofInterval (x.toInterval * r) := by
  rcases h with h | h
  · cases x with
    | active p => contradiction
    | _ => rfl
  · exact mulInterval_of_not_isBounded h

/-- Forms over the same symbols have a linear product. -/
theorem mul_of_eq (h : p.size = q.size) : active p * active q = (active (p * q)).settle := by
  change (active p).mul (active q) = _
  simp only [AffineForm.mul, Linear.matchWith_of_eq h]

/-- A second form with fewer symbols is multiplied as an interval. -/
theorem mul_of_gt (h : q.size < p.size) :
    active p * active q = (active p).mulInterval q.toInterval := by
  change (active p).mul (active q) = _
  simp only [AffineForm.mul, Linear.matchWith_of_gt h]

/-- A first form with fewer symbols is multiplied as an interval. -/
theorem mul_of_lt (h : p.size < q.size) :
    active p * active q = (active q).mulInterval p.toInterval := by
  change (active p).mul (active q) = _
  simp only [AffineForm.mul, Linear.matchWith_of_lt h]

/-- Forms that are not both linear are multiplied as intervals. -/
theorem mul_of_not_active (h : x.isActive = false ∨ y.isActive = false) :
    x * y = ofInterval (x.toInterval * y.toInterval) := by
  cases x <;> cases y <;> first | rfl | (rcases h with h | h <;> contradiction)

/-! ### Squares -/

/-- The linear part is squared unless the interval is preferred. -/
theorem sqr_of_linear (h : (active p).squaresAsInterval = false) :
    (active p).sqr = (active p.sqr).settle := by
  unfold AffineForm.sqr
  rw [h]

/-- The enclosed interval is squared where that is preferred. -/
theorem sqr_of_squaresAsInterval (h : x.squaresAsInterval = true) :
    x.sqr = ofInterval (x.toInterval.pow 2) := by
  unfold AffineForm.sqr
  rw [h]
  cases x <;> rfl

/-- Other forms are squared as intervals. -/
theorem sqr_of_not_active (h : x.isActive = false) : x.sqr = ofInterval (x.toInterval.pow 2) := by
  cases x with
  | active l => contradiction
  | _ => rfl

/-! ### Powers -/

variable {n : Nat}

/-- The last step of repeated squaring. -/
theorem mulPower_of_lt_two (h : n / 2 = 0) :
    x.mulPower y n = if n % 2 = 1 then x * y else x := by
  rw [mulPower, if_pos h]
  rfl

/-- The other steps of repeated squaring go on with the square and half the exponent. -/
theorem mulPower_of_two_le (h : n / 2 ≠ 0) :
    x.mulPower y n = (if n % 2 = 1 then x * y else x).mulPower y.sqr (n / 2) := by
  rw [mulPower, if_neg h]
  rfl

/-- The power with exponent 0 is 1 unless the form is empty. -/
theorem pow_zero_of_ne_empty (h : x ≠ empty) : x.pow 0 = one := by
  rw [pow.eq_def, dif_pos rfl]
  cases x with
  | empty => exact absurd rfl h
  | _ => rfl

/-- All powers of the empty form with exponent 0 are empty. -/
theorem empty_pow_zero : (empty : AffineForm α).pow 0 = empty := by
  rw [pow.eq_def, dif_pos rfl]

/-- An even power is a power of the square. -/
theorem pow_of_even (h0 : n ≠ 0) (h : n % 2 = 0) : x.pow n = x.sqr.pow (n / 2) := by
  rw [pow.eq_def, dif_neg h0, if_pos h]

/-- The power with exponent 1 is the form. -/
protected theorem pow_one : x.pow 1 = x := by
  rw [pow.eq_def, dif_neg Nat.one_ne_zero, if_neg (by decide), if_pos rfl]

/-- Other odd powers are products with a power of the square. -/
theorem pow_of_odd (h1 : n ≠ 1) (h : n % 2 = 1) : x.pow n = x.mulPower x.sqr (n / 2) := by
  rw [pow.eq_def, dif_neg (by omega), if_neg (by omega), if_neg h1]

/-- A relation of forms to the elements of a monoid that products, squares and powers with exponent
0 keep. -/
structure IsMultiplicative {M : Type} [Monoid M] (R : AffineForm α → M → Prop) : Prop where
  mul {x y : AffineForm α} {a b : M} : R x a → R y b → R (x * y) (a * b)
  sqr {x : AffineForm α} {a : M} : R x a → R x.sqr (a ^ 2)
  power_zero {x : AffineForm α} {a : M} : R x a → R (x.pow 0) 1

section IsMultiplicative

variable {M : Type} [Monoid M] {R : AffineForm α → M → Prop} {u v : M}

/-- Multiplicative relations are kept by products with powers. -/
theorem IsMultiplicative.mulPower (h : IsMultiplicative R) (hx : R x u) (hy : R y v) (n : ℕ) :
    R (x.mulPower y n) (u * v ^ n) := by
  induction n using Nat.strongRecOn generalizing x y u v with
  | _ n ih =>
    -- the accumulator takes the lowest binary digit of the exponent, the recursion the others
    have hacc : R (if n % 2 = 1 then x * y else x) (u * v ^ (n % 2)) := by
      rcases Nat.mod_two_eq_zero_or_one n with h2 | h2
      · rw [h2, if_neg (by decide), pow_zero, mul_one]
        exact hx
      · rw [h2, if_pos rfl, pow_one]
        exact h.mul hx hy
    have hpow : u * v ^ n = u * v ^ (n % 2) * (v ^ 2) ^ (n / 2) := by
      rw [← pow_mul, mul_assoc, ← pow_add, Nat.mod_add_div]
    rw [hpow]
    by_cases h2 : n / 2 = 0
    · rw [mulPower_of_lt_two h2, h2, pow_zero, mul_one]
      exact hacc
    · rw [mulPower_of_two_le h2]
      exact ih (n / 2) (by omega) hacc (h.sqr hy)

/-- Multiplicative relations are kept by powers. -/
theorem IsMultiplicative.pow (h : IsMultiplicative R) (hx : R x u) (n : ℕ) :
    R (x.pow n) (u ^ n) := by
  induction n using Nat.strongRecOn generalizing x u with
  | _ n ih =>
    by_cases h0 : n = 0
    · rw [h0, pow_zero]
      exact h.power_zero hx
    by_cases h1 : n = 1
    · rw [h1, AffineForm.pow_one, pow_one]
      exact hx
    rcases Nat.mod_two_eq_zero_or_one n with hn | hn
    · have hpow : u ^ n = (u ^ 2) ^ (n / 2) := by
        rw [← pow_mul]
        exact congrArg (u ^ ·) (by omega)
      rw [pow_of_even h0 hn, hpow]
      exact ih (n / 2) (by omega) (h.sqr hx)
    · have hpow : u ^ n = u * (u ^ 2) ^ (n / 2) := by
        rw [← pow_mul, ← pow_succ']
        exact congrArg (u ^ ·) (by omega)
      rw [pow_of_odd h1 hn, hpow]
      exact h.mulPower hx (h.sqr hx) (n / 2)

end IsMultiplicative

end AffineArithmetic.AffineForm

import Mathlib.Algebra.Order.Ring.Abs
import Mathlib.Tactic.Linarith
import AffineArithmetic.Scalar.Extended

/-!
# Order and arithmetic with infinities

The numbers other than the undefined one are totally ordered, sums and products of them keep the
order as far as they are defined, and a result is finite only if both operands are.
-/

namespace AffineArithmetic.Extended

variable {K : Type}

section Order

variable [LinearOrder K] {a b c : Extended K}

/-- The infinities are in order. -/
@[simp] theorem negInf_le_posInf : (negInf : Extended K) ≤ posInf := trivial

/-- Numbers other than the undefined one are at most themselves. -/
protected theorem le_rfl (h : a ≠ nan) : a ≤ a := by
  cases a with
  | nan => exact absurd rfl h
  | finite x => exact le_refl x
  | negInf => trivial
  | posInf => trivial

/-- The order is transitive. -/
protected theorem le_trans (h : a ≤ b) (h' : b ≤ c) : a ≤ c := by
  cases a <;> cases b <;> cases c <;> simp at h h' ⊢
  exact h.trans h'

/-- Numbers in order are not undefined. -/
theorem ne_nan_of_le (h : a ≤ b) : a ≠ nan ∧ b ≠ nan := by
  constructor
  · rintro rfl
    exact not_nan_le b h
  · rintro rfl
    exact not_le_nan a h

/-- Numbers other than the undefined one are comparable. -/
protected theorem le_total (ha : a ≠ nan) (hb : b ≠ nan) : a ≤ b ∨ b ≤ a := by
  cases a <;> cases b <;> simp at ha hb ⊢
  exact Or.comm.mp (le_total _ _)

/-- A smaller number is at most the larger one and not the other way round. -/
theorem lt_iff : a < b ↔ a ≤ b ∧ ¬ b ≤ a := Iff.rfl

/-- Numbers in order are not in the opposite strict order. -/
theorem not_lt_of_le (h : a ≤ b) : ¬ b < a := fun hlt ↦ hlt.2 h

/-- Negative infinity is below every number. -/
theorem negInf_le (h : a ≠ nan) : negInf ≤ a := by
  cases a with
  | nan => exact absurd rfl h
  | _ => trivial

/-- Infinity is above every number. -/
theorem le_posInf (h : a ≠ nan) : a ≤ posInf := by
  cases a with
  | nan => exact absurd rfl h
  | _ => trivial

/-- Only the undefined number differs from itself. -/
theorem beq_self_iff : (a == a) = true ↔ a ≠ nan := by
  constructor
  · rintro h rfl
    exact not_nan_le _ (of_decide_eq_true h).1
  · exact fun h ↦ (beq_iff_eq a a h).mpr rfl

end Order

section Finite

/-- Elements of the field are finite. -/
@[simp] theorem isFinite_finite (x : K) : (finite x).isFinite = true := rfl

/-- The undefined number is not finite. -/
@[simp] theorem isFinite_nan : (nan : Extended K).isFinite = false := rfl

/-- Infinity is not finite. -/
@[simp] theorem isFinite_posInf : (posInf : Extended K).isFinite = false := rfl

/-- Negative infinity is not finite. -/
@[simp] theorem isFinite_negInf : (negInf : Extended K).isFinite = false := rfl

/-- A number is finite if it is an element of the field. -/
theorem isFinite_iff {a : Extended K} : a.isFinite = true ↔ ∃ x, a = finite x := by
  cases a <;> simp

end Finite

section Field

variable [Field K] {a b : Extended K}

/-- Subtraction adds the opposite number. -/
protected theorem sub_eq_add_neg (a b : Extended K) : a - b = a + -b := rfl

/-- The undefined number has no opposite. -/
@[simp] theorem neg_nan : -(nan : Extended K) = nan := rfl

/-- Nothing can be added to the undefined number. -/
@[simp] theorem nan_add (a : Extended K) : nan + a = nan := by
  cases a <;> rfl

/-- The undefined number can be added to nothing. -/
@[simp] theorem add_nan (a : Extended K) : a + nan = nan := by
  cases a <;> rfl

/-- Infinity absorbs finite numbers. -/
@[simp] theorem posInf_add_finite (x : K) : posInf + finite x = posInf := rfl

/-- Infinity absorbs finite numbers. -/
@[simp] theorem finite_add_posInf (x : K) : finite x + posInf = posInf := rfl

/-- Negative infinity absorbs finite numbers. -/
@[simp] theorem negInf_add_finite (x : K) : negInf + finite x = negInf := rfl

/-- Negative infinity absorbs finite numbers. -/
@[simp] theorem finite_add_negInf (x : K) : finite x + negInf = negInf := rfl

/-- Infinities of one sign add up. -/
@[simp] theorem posInf_add_posInf : (posInf + posInf : Extended K) = posInf := rfl

/-- Infinities of one sign add up. -/
@[simp] theorem negInf_add_negInf : (negInf + negInf : Extended K) = negInf := rfl

/-- Opposite infinities have no sum. -/
@[simp] theorem posInf_add_negInf : (posInf + negInf : Extended K) = nan := rfl

/-- Opposite infinities have no sum. -/
@[simp] theorem negInf_add_posInf : (negInf + posInf : Extended K) = nan := rfl

/-- Only the opposite of the undefined number is undefined. -/
@[simp] theorem neg_eq_nan : -a = nan ↔ a = nan := by
  cases a <;> simp

/-- Only the opposite of negative infinity is infinity. -/
@[simp] theorem neg_eq_posInf : -a = posInf ↔ a = negInf := by
  cases a <;> simp

/-- Only the opposite of infinity is negative infinity. -/
@[simp] theorem neg_eq_negInf : -a = negInf ↔ a = posInf := by
  cases a <;> simp

/-- Negation is its own inverse. -/
@[simp] protected theorem neg_neg : - -a = a := by
  cases a <;> simp

/-- Addition does not depend on the order of its operands. -/
protected theorem add_comm (a b : Extended K) : a + b = b + a := by
  cases a <;> cases b <;> simp [add_comm]

/-- The opposite of a sum is the sum of the opposites. -/
protected theorem neg_add (a b : Extended K) : -(a + b) = -a + -b := by
  cases a <;> cases b <;> simp [add_comm]

/-- Only finite numbers have a finite sum. -/
theorem isFinite_add : (a + b).isFinite = (a.isFinite && b.isFinite) := by
  cases a <;> cases b <;> simp

/-- Only finite numbers have a finite opposite. -/
@[simp] theorem isFinite_neg : (-a).isFinite = a.isFinite := by
  cases a <;> rfl

end Field

section OrderedField

variable [Field K] [LinearOrder K]

/-- Nothing can be multiplied with the undefined number. -/
@[simp] theorem nan_mul (a : Extended K) : nan * a = nan := by
  cases a <;> rfl

/-- The undefined number can be multiplied with nothing. -/
@[simp] theorem mul_nan (a : Extended K) : a * nan = nan := by
  cases a <;> rfl

/-- Infinity times a finite number follows the sign of the number. -/
@[simp] theorem posInf_mul_finite (x : K) : posInf * finite x = infinityTimes x := rfl

/-- Infinity times a finite number follows the sign of the number. -/
@[simp] theorem finite_mul_posInf (x : K) : finite x * posInf = infinityTimes x := rfl

/-- Negative infinity times a finite number follows the opposite sign of the number. -/
@[simp] theorem negInf_mul_finite (x : K) : negInf * finite x = infinityTimes (-x) := rfl

/-- Negative infinity times a finite number follows the opposite sign of the number. -/
@[simp] theorem finite_mul_negInf (x : K) : finite x * negInf = infinityTimes (-x) := rfl

/-- Infinities are multiplied by the rule of signs. -/
@[simp] theorem posInf_mul_posInf : (posInf * posInf : Extended K) = posInf := rfl

/-- Infinities are multiplied by the rule of signs. -/
@[simp] theorem negInf_mul_negInf : (negInf * negInf : Extended K) = posInf := rfl

/-- Infinities are multiplied by the rule of signs. -/
@[simp] theorem posInf_mul_negInf : (posInf * negInf : Extended K) = negInf := rfl

/-- Infinities are multiplied by the rule of signs. -/
@[simp] theorem negInf_mul_posInf : (negInf * posInf : Extended K) = negInf := rfl

/-- Multiplication does not depend on the order of its operands. -/
protected theorem mul_comm (a b : Extended K) : a * b = b * a := by
  cases a <;> cases b <;> simp [mul_comm]

/-- Infinity times a positive number. -/
theorem infinityTimes_of_pos {x : K} (h : 0 < x) : infinityTimes x = posInf := if_pos h

/-- Infinity times a negative number. -/
theorem infinityTimes_of_neg {x : K} (h : x < 0) : infinityTimes x = negInf := by
  rw [infinityTimes, if_neg h.not_gt, if_pos h]

/-- Infinity times 0 is undefined. -/
@[simp] theorem infinityTimes_zero : (infinityTimes 0 : Extended K) = nan := by
  simp [infinityTimes]

/-- Infinity times any other number is defined. -/
@[simp] theorem infinityTimes_eq_nan {x : K} : infinityTimes x = nan ↔ x = 0 := by
  rcases lt_trichotomy x 0 with h | rfl | h
  · simp [infinityTimes_of_neg h, h.ne]
  · simp
  · simp [infinityTimes_of_pos h, h.ne']

/-- Infinity times a number is never finite. -/
theorem isFinite_infinityTimes (x : K) : (infinityTimes x).isFinite = false := by
  unfold infinityTimes
  split
  · rfl
  · split <;> rfl

variable {a b c d : Extended K}

/-- Only finite numbers have a finite product: even 0 turns infinity into something undefined. -/
theorem isFinite_mul : (a * b).isFinite = (a.isFinite && b.isFinite) := by
  cases a <;> cases b <;> simp [isFinite_infinityTimes]

/-- Only finite numbers have a finite absolute value. -/
@[simp] theorem isFinite_abs : a.abs.isFinite = a.isFinite := by
  cases a <;> rfl

/-- Only the absolute value of the undefined number is undefined. -/
@[simp] theorem abs_eq_nan : a.abs = nan ↔ a = nan := by
  cases a <;> simp [abs]

/-- Opposite numbers have the same absolute value. -/
protected theorem abs_neg (a : Extended K) : (-a).abs = a.abs := by
  cases a <;> simp [abs]

/-- Squares of numbers from 0 on are defined. -/
theorem mul_self_ne_nan (h : finite 0 ≤ a) : a * a ≠ nan := by
  cases a <;> simp at h ⊢

/-- Infinity times a number that is not negative is infinity, as far as it is defined. -/
theorem posInf_mul (h : finite 0 ≤ a) (hn : posInf * a ≠ nan) : posInf * a = posInf := by
  cases a with
  | finite x =>
    rcases eq_or_lt_of_le (show 0 ≤ x from h) with rfl | hx
    · simp at hn
    · exact infinityTimes_of_pos hx
  | negInf => simp at h
  | nan => simp at h
  | posInf => rfl

/-- Products of numbers other than 0 and the undefined one are defined. -/
theorem mul_ne_nan (ha : a ≠ nan) (hb : b ≠ nan) (ha0 : a ≠ finite 0) (hb0 : b ≠ finite 0) :
    a * b ≠ nan := by
  cases a <;> cases b <;> simp at ha hb ha0 hb0 ⊢ <;> assumption

/-- Products of numbers from 0 on are undefined only beside infinity. -/
theorem eq_posInf_of_mul_eq_nan (ha : finite 0 ≤ a) (hb : finite 0 ≤ b) (h : a * b = nan) :
    a = posInf ∨ b = posInf := by
  cases a <;> cases b <;> simp at ha hb h ⊢

/-- Repeated squaring computes powers in the field. -/
theorem mulSquares_finite (a x : K) (n : ℕ) :
    Scalar.mulSquares (finite a) (finite x) n = finite (a * x ^ n) := by
  induction n using Nat.strong_induction_on generalizing a x with
  | _ n ih =>
    have hn := Nat.div_add_mod n 2
    have hpow : x ^ n = (x * x) ^ (n / 2) * x ^ (n % 2) := by
      nth_rewrite 1 [← hn]
      rw [pow_add, pow_mul, pow_two]
    have hacc : (if n % 2 = 1 then finite a * finite x else finite a) =
        finite (a * x ^ (n % 2)) := by
      rcases Nat.mod_two_eq_zero_or_one n with h | h
      · rw [h, if_neg Nat.zero_ne_one, pow_zero, mul_one]
      · rw [h, if_pos rfl, pow_one, finite_mul_finite]
    rw [Scalar.mulSquares, hacc, hpow]
    by_cases h2 : n / 2 = 0
    · rw [if_pos h2, h2, pow_zero, one_mul]
    · rw [if_neg h2, finite_mul_finite, ih (n / 2) (by omega), mul_comm ((x * x) ^ _), mul_assoc]

/-- Powers of finite numbers are computed in the field. -/
theorem power_finite (x : K) (n : ℕ) : Scalar.power (finite x) n = finite (x ^ n) := by
  change Scalar.mulSquares (finite 1) (finite x) n = finite (x ^ n)
  rw [mulSquares_finite, one_mul]

/-- Finite numbers are compared with 0 in the field. -/
theorem finite_beq_zero (x : K) : (finite x == Scalar.zero) = true ↔ x = 0 := by
  change (finite x == finite 0) = true ↔ x = 0
  rw [beq_iff_eq (finite x) (finite 0) nofun, finite.injEq]

variable [IsStrictOrderedRing K]

/-- Negation turns the order around. -/
protected theorem neg_le_neg (h : a ≤ b) : -b ≤ -a := by
  cases a <;> cases b <;> simp at h ⊢
  exact h

/-- Sums keep the order as far as they are defined. -/
protected theorem add_le_add (h : a ≤ b) (h' : c ≤ d) (hn : a + c ≠ nan) (hn' : b + d ≠ nan) :
    a + c ≤ b + d := by
  cases a <;> cases b <;> simp at h <;> cases c <;> cases d <;> simp at h' hn hn' ⊢
  exact add_le_add h h'

/-- A sum of upper bounds of finite numbers is an upper bound of their sum. -/
theorem finite_add_le {x y : K} (h : finite x ≤ a) (h' : finite y ≤ b) :
    finite (x + y) ≤ a + b := by
  cases a <;> cases b <;> simp at h h' ⊢
  exact add_le_add h h'

/-- Upper bounds of finite numbers keep the order when both are multiplied by a positive number. -/
theorem finite_mul_le {x y : K} (h : finite x ≤ a) (hy : 0 < y) :
    finite (x * y) ≤ a * finite y := by
  cases a with
  | finite z => exact mul_le_mul_of_nonneg_right h hy.le
  | posInf =>
    rw [posInf_mul_finite, infinityTimes_of_pos hy]
    trivial
  | _ => simp at h

/-- Sums of numbers that are not negative are not negative. -/
protected theorem add_nonneg (ha : finite 0 ≤ a) (hb : finite 0 ≤ b) : finite 0 ≤ a + b := by
  cases a <;> cases b <;> simp at ha hb ⊢
  exact add_nonneg ha hb

/-- Products of numbers that are not negative keep the order as far as they are defined. -/
protected theorem mul_le_mul (ha : finite 0 ≤ a) (hc : finite 0 ≤ c) (h : a ≤ b) (h' : c ≤ d)
    (hn : a * c ≠ nan) (hn' : b * d ≠ nan) : a * c ≤ b * d := by
  cases b with
  | nan => exact absurd h (not_le_nan a)
  | negInf => cases a <;> simp at h ha
  | posInf =>
    have hd : finite 0 ≤ d := Extended.le_trans hc h'
    cases d with
    | nan => exact absurd h' (not_le_nan c)
    | negInf => simp at hd
    | posInf => exact le_posInf hn
    | finite y =>
      rw [posInf_mul_finite, infinityTimes_of_pos (lt_of_le_of_ne hd fun h0 ↦ ?_)]
      · exact le_posInf hn
      · simp [← h0] at hn'
  | finite y =>
    cases a with
    | nan => exact absurd h (not_nan_le _)
    | posInf => simp at h
    | negInf => simp at ha
    | finite x =>
      cases d with
      | nan => exact absurd h' (not_le_nan c)
      | negInf => cases c <;> simp at h' hc
      | posInf =>
        have hy : 0 < y := by
          refine lt_of_le_of_ne (le_trans ha h) fun h0 ↦ ?_
          simp [← h0] at hn'
        rw [finite_mul_posInf, infinityTimes_of_pos hy]
        exact le_posInf hn
      | finite w =>
        cases c with
        | nan => exact absurd h' (not_nan_le _)
        | posInf => simp at h'
        | negInf => simp at hc
        | finite z => exact mul_le_mul h h' hc (le_trans ha h)

/-- Products of numbers that are not negative are not negative, as far as they are defined. -/
protected theorem mul_nonneg (ha : finite 0 ≤ a) (hb : finite 0 ≤ b) (hn : a * b ≠ nan) :
    finite 0 ≤ a * b := by
  have h := Extended.mul_le_mul (Extended.le_rfl (by simp)) (Extended.le_rfl (by simp)) ha hb
    (by simp) hn
  rwa [finite_mul_finite, zero_mul] at h

/-- A sum is not negative if one operand makes up for the other. -/
theorem add_nonneg_of_neg_le (h : -c ≤ a) (h' : c ≤ b) (hn : a + b ≠ nan) :
    finite 0 ≤ a + b := by
  cases c <;> cases a <;> simp at h <;> cases b <;> simp at h' hn ⊢
  linarith

/-- Numbers that are not negative are their absolute values. -/
protected theorem abs_of_nonneg (h : finite 0 ≤ a) : a.abs = a := by
  cases a with
  | finite x => exact congrArg finite (abs_of_nonneg h)
  | negInf => simp at h
  | _ => rfl

/-- The opposites of numbers that are not positive are their absolute values. -/
protected theorem abs_of_nonpos (h : a ≤ finite 0) : a.abs = -a := by
  cases a with
  | finite x => exact congrArg finite (abs_of_nonpos h)
  | posInf => simp at h
  | _ => rfl

/-- Squares are their absolute values. -/
theorem abs_mul_self (a : Extended K) : (a * a).abs = a * a := by
  cases a with
  | finite x => exact congrArg finite (abs_of_nonneg (mul_self_nonneg x))
  | _ => rfl

/-- Infinity times the opposite number has the opposite sign. -/
theorem infinityTimes_neg (x : K) : infinityTimes (-x) = -infinityTimes x := by
  rcases lt_trichotomy x 0 with h | rfl | h
  · rw [infinityTimes_of_neg h, infinityTimes_of_pos (neg_pos.mpr h), neg_negInf]
  · rw [neg_zero, infinityTimes_zero, neg_nan]
  · rw [infinityTimes_of_pos h, infinityTimes_of_neg (neg_neg_of_pos h), neg_posInf]

/-- The product with the opposite number is the opposite product. -/
protected theorem neg_mul (a b : Extended K) : -a * b = -(a * b) := by
  cases a <;> cases b <;> simp [infinityTimes_neg]

/-- Adding a number from 0 on makes no number smaller, as far as the sum is defined. -/
theorem le_add_of_nonneg (hb : finite 0 ≤ b) (hn : a + b ≠ nan) : a ≤ a + b := by
  cases a <;> cases b <;> simp at hb hn ⊢
  exact hb

/-- Subtracting a number from 0 on makes no number larger, as far as the difference is defined. -/
theorem sub_le_of_nonneg (hb : finite 0 ≤ b) (hn : a - b ≠ nan) : a - b ≤ a := by
  rw [Extended.sub_eq_add_neg] at hn ⊢
  cases a <;> cases b <;> simp at hb hn ⊢
  exact hb

/-- The number 1 is neutral. -/
protected theorem one_mul (a : Extended K) : finite 1 * a = a := by
  cases a <;> simp [infinityTimes]

/-- The power with exponent 2 is the square. -/
theorem power_two (a : Extended K) : Scalar.power a 2 = a * a := by
  change Scalar.mulSquares (finite 1) a 2 = a * a
  rw [Scalar.mulSquares]
  change Scalar.mulSquares (finite 1) (a * a) 1 = a * a
  rw [Scalar.mulSquares]
  exact Extended.one_mul (a * a)

/-- Absolute values are not negative. -/
protected theorem abs_nonneg (h : a ≠ nan) : finite 0 ≤ a.abs := by
  cases a with
  | nan => exact absurd rfl h
  | finite x => exact abs_nonneg x
  | _ => trivial

end OrderedField

end AffineArithmetic.Extended

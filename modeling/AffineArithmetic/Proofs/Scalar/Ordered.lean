import AffineArithmetic.Proofs.Scalar.Lawful

/-!
# Ordered arithmetic

Sums and products of lawful scalars that keep the order as far as they are defined. Exact numbers
have this property, and rounded ones inherit it, since rounding is monotone. Powers by repeated
squaring are then monotone from 0 on, and odd or even functions as their exponents are.
-/

namespace AffineArithmetic

open Scalar

/-- Lawful scalars with sums and products that keep the order. -/
class OrderedScalar (α : Type) [Scalar α] : Prop extends LawfulScalar α where
  add_le_add {a b c d : α} : a ≤ b → c ≤ d → a + c ≠ nan → b + d ≠ nan → a + c ≤ b + d
  add_ne_nan {a b : α} : a ≠ nan → b ≠ nan → a ≠ infinity → b ≠ infinity → a + b ≠ nan
  mul_le_mul {a b c d : α} : zero ≤ a → zero ≤ c → a ≤ b → c ≤ d → a * c ≠ nan → b * d ≠ nan →
    a * c ≤ b * d
  mul_ne_nan {a b : α} : a ≠ nan → b ≠ nan → a ≠ zero → b ≠ zero → a * b ≠ nan
  /-- Numbers beyond the finite ones are the infinities. -/
  eq_infinity {a : α} : a ≠ nan → isFinite a = false → a = infinity ∨ a = -infinity
  isFinite_maxFinite : isFinite (maxFinite : α) = true
  power_eq (a : α) (n : ℕ) : power a n = mulSquares one a n

namespace OrderedScalar

variable {α : Type} [Scalar α] [OrderedScalar α] {a b c d : α}

/-! ### Order -/

/-- The number 0 is not undefined. -/
theorem zero_ne_nan : (zero : α) ≠ nan :=
  LawfulScalar.ne_nan_of_isFinite LawfulScalar.isFinite_zero

/-- The number 0 is at most itself. -/
theorem zero_le_zero : (zero : α) ≤ zero := LawfulScalar.le_rfl zero_ne_nan

/-- Numbers are on one side of 0. -/
theorem nonneg_or_nonpos (h : a ≠ nan) : zero ≤ a ∨ a ≤ zero :=
  LawfulScalar.le_total zero_ne_nan h

/-- Opposites of numbers up to 0 are numbers from 0 on. -/
theorem neg_nonneg : zero ≤ -a ↔ a ≤ zero := by
  rw [← LawfulScalar.neg_zero, LawfulScalar.neg_le_neg_iff, LawfulScalar.neg_zero]

/-- Opposites of numbers from 0 on are numbers up to 0. -/
theorem neg_nonpos : -a ≤ zero ↔ zero ≤ a := by
  rw [← LawfulScalar.neg_zero, LawfulScalar.neg_le_neg_iff, LawfulScalar.neg_zero]

/-- Infinity is not finite. -/
theorem ne_infinity_of_isFinite (h : isFinite a = true) : a ≠ infinity ∧ a ≠ -infinity := by
  constructor
  · rintro rfl
    rw [LawfulScalar.isFinite_infinity] at h
    contradiction
  · rintro rfl
    rw [LawfulScalar.isFinite_neg, LawfulScalar.isFinite_infinity] at h
    contradiction

/-- Only infinity is above infinity. -/
theorem eq_infinity_of_le (h : infinity ≤ a) : a = infinity :=
  LawfulScalar.le_antisymm (LawfulScalar.le_infinity (LawfulScalar.ne_nan_of_le h).2) h

/-- Only negative infinity is below negative infinity. -/
theorem eq_neg_infinity_of_le (h : a ≤ -infinity) : a = -infinity := by
  rw [← LawfulScalar.neg_eq_iff]
  apply eq_infinity_of_le
  rwa [← LawfulScalar.neg_le_neg_iff, LawfulScalar.neg_neg]

/-- Numbers between finite ones are finite. -/
theorem isFinite_of_le_of_le (ha : isFinite a = true) (hc : isFinite c = true) (h : a ≤ b)
    (h' : b ≤ c) : isFinite b = true := by
  by_contra hb
  rw [Bool.not_eq_true] at hb
  rcases eq_infinity (LawfulScalar.ne_nan_of_le h').1 hb with rfl | rfl
  · exact (ne_infinity_of_isFinite hc).1 (eq_infinity_of_le h')
  · exact (ne_infinity_of_isFinite ha).2 (eq_neg_infinity_of_le h)

/-- The opposite of a number up to 0 is its absolute value. -/
theorem abs_of_nonpos (h : a ≤ zero) : Scalar.abs a = -a := by
  rw [← LawfulScalar.abs_neg, LawfulScalar.abs_of_nonneg (neg_nonneg.mpr h)]

/-- Absolute values are not negative. -/
theorem abs_nonneg (h : a ≠ nan) : zero ≤ Scalar.abs a := by
  rcases nonneg_or_nonpos h with h | h
  · rwa [LawfulScalar.abs_of_nonneg h]
  · rwa [abs_of_nonpos h, neg_nonneg]

/-- Absolute values are defined. -/
theorem abs_ne_nan (h : a ≠ nan) : Scalar.abs a ≠ nan :=
  (LawfulScalar.ne_nan_of_le (abs_nonneg h)).2

/-! ### Products -/

/-- Products of numbers from 0 on are such numbers, as far as they are defined. -/
theorem mul_nonneg (ha : zero ≤ a) (hb : zero ≤ b) (h : a * b ≠ nan) : zero ≤ a * b := by
  have h0 : (zero : α) * zero = zero := LawfulScalar.mul_zero LawfulScalar.isFinite_zero
  have hle := mul_le_mul zero_le_zero zero_le_zero ha hb (by rw [h0]; exact zero_ne_nan) h
  rwa [h0] at hle

/-- Products of finite numbers are defined. -/
theorem mul_ne_nan_of_isFinite (ha : isFinite a = true) (hb : isFinite b = true) :
    a * b ≠ nan := by
  by_cases ha0 : a = zero
  · rw [ha0, LawfulScalar.zero_mul hb]
    exact zero_ne_nan
  by_cases hb0 : b = zero
  · rw [hb0, LawfulScalar.mul_zero ha]
    exact zero_ne_nan
  exact mul_ne_nan (LawfulScalar.ne_nan_of_isFinite ha) (LawfulScalar.ne_nan_of_isFinite hb)
    ha0 hb0

/-! ### Powers -/

/-- The number is between 0 and 1. -/
def InUnit (a : α) : Prop := zero ≤ a ∧ a ≤ one

/-- The number 1 is between 0 and 1. -/
theorem inUnit_one : InUnit (one : α) :=
  ⟨LawfulScalar.zero_le_one,
    LawfulScalar.le_rfl (LawfulScalar.ne_nan_of_isFinite LawfulScalar.isFinite_one)⟩

private theorem one_mul_one : (one : α) * one = one := LawfulScalar.mul_one one

private theorem one_mul_one_ne_nan : (one : α) * one ≠ nan := by
  rw [one_mul_one]
  exact LawfulScalar.ne_nan_of_isFinite LawfulScalar.isFinite_one

private theorem InUnit.mul_ne_nan (ha : InUnit a) (hb : InUnit b) : a * b ≠ nan :=
  mul_ne_nan_of_isFinite
    (isFinite_of_le_of_le LawfulScalar.isFinite_zero LawfulScalar.isFinite_one ha.1 ha.2)
    (isFinite_of_le_of_le LawfulScalar.isFinite_zero LawfulScalar.isFinite_one hb.1 hb.2)

private theorem InUnit.mul (ha : InUnit a) (hb : InUnit b) : InUnit (a * b) := by
  have hn := ha.mul_ne_nan hb
  have hle := OrderedScalar.mul_le_mul ha.1 hb.1 ha.2 hb.2 hn one_mul_one_ne_nan
  rw [one_mul_one] at hle
  exact ⟨mul_nonneg ha.1 hb.1 hn, hle⟩

private theorem mul_ne_nan_of_one_le (ha : one ≤ a) (hb : one ≤ b) : a * b ≠ nan := by
  have hne : ∀ {a : α}, one ≤ a → a ≠ zero := by
    rintro _ h rfl
    exact LawfulScalar.one_ne_zero (LawfulScalar.le_antisymm h LawfulScalar.zero_le_one)
  exact OrderedScalar.mul_ne_nan (LawfulScalar.ne_nan_of_le ha).2 (LawfulScalar.ne_nan_of_le hb).2
    (hne ha) (hne hb)

private theorem one_le_mul (ha : one ≤ a) (hb : one ≤ b) : one ≤ a * b := by
  have hle := OrderedScalar.mul_le_mul LawfulScalar.zero_le_one LawfulScalar.zero_le_one ha hb
    one_mul_one_ne_nan (mul_ne_nan_of_one_le ha hb)
  rwa [one_mul_one] at hle

/-- Both numbers are between 0 and 1, or both are from 1 on. So are then their products, and none of
them pairs 0 with infinity. -/
def SameSide (a b : α) : Prop := InUnit a ∧ InUnit b ∨ one ≤ a ∧ one ≤ b

/-- A number from 0 on is on one side of 1. -/
theorem sameSide_one (h : zero ≤ a) : SameSide one a := by
  rcases LawfulScalar.le_total (LawfulScalar.ne_nan_of_le h).2
    (LawfulScalar.ne_nan_of_isFinite LawfulScalar.isFinite_one) with h1 | h1
  · exact .inl ⟨inUnit_one, h, h1⟩
  · exact .inr ⟨inUnit_one.2, h1⟩

/-- Products of numbers on one side of 1 are defined. -/
theorem SameSide.mul_ne_nan (h : SameSide a b) : a * b ≠ nan := by
  rcases h with ⟨ha, hb⟩ | ⟨ha, hb⟩
  · exact ha.mul_ne_nan hb
  · exact mul_ne_nan_of_one_le ha hb

/-- Numbers on one side of 1 are from 0 on. -/
theorem SameSide.nonneg (h : SameSide a b) : zero ≤ a ∧ zero ≤ b := by
  rcases h with ⟨ha, hb⟩ | ⟨ha, hb⟩
  · exact ⟨ha.1, hb.1⟩
  · exact ⟨LawfulScalar.le_trans LawfulScalar.zero_le_one ha,
      LawfulScalar.le_trans LawfulScalar.zero_le_one hb⟩

private theorem SameSide.mul_left (h : SameSide a b) : SameSide (a * b) b := by
  rcases h with ⟨ha, hb⟩ | ⟨ha, hb⟩
  · exact .inl ⟨ha.mul hb, hb⟩
  · exact .inr ⟨one_le_mul ha hb, hb⟩

private theorem SameSide.mul_right (h : SameSide a b) : SameSide a (b * b) := by
  rcases h with ⟨ha, hb⟩ | ⟨ha, hb⟩
  · exact .inl ⟨ha, hb.mul hb⟩
  · exact .inr ⟨ha, one_le_mul hb hb⟩

omit [OrderedScalar α] in
private theorem SameSide.self (h : SameSide a b) : SameSide b b := by
  rcases h with ⟨-, hb⟩ | ⟨-, hb⟩
  · exact .inl ⟨hb, hb⟩
  · exact .inr ⟨hb, hb⟩

/-- Repeated squaring keeps the order from 0 on, in the start as in the base. -/
theorem mulSquares_mono (n : ℕ) (h : SameSide a b) (h' : SameSide c d) (hac : a ≤ c)
    (hbd : b ≤ d) : mulSquares a b n ≤ mulSquares c d n := by
  induction n using Nat.strong_induction_on generalizing a b c d with
  | _ n ih =>
    have hmul : a * b ≤ c * d :=
      mul_le_mul h.nonneg.1 h.nonneg.2 hac hbd h.mul_ne_nan h'.mul_ne_nan
    have hsq : b * b ≤ d * d :=
      mul_le_mul h.nonneg.2 h.nonneg.2 hbd hbd h.self.mul_ne_nan h'.self.mul_ne_nan
    rw [mulSquares, mulSquares.eq_def c]
    dsimp only
    by_cases h2 : n / 2 = 0
    · rw [if_pos h2, if_pos h2]
      split
      · exact hmul
      · exact hac
    · rw [if_neg h2, if_neg h2]
      have hlt : n / 2 < n := by omega
      split
      · exact ih _ hlt h.mul_left.mul_right h'.mul_left.mul_right hmul hsq
      · exact ih _ hlt h.mul_right h'.mul_right hac hsq

/-- Powers keep the order from 0 on. -/
theorem power_mono (n : ℕ) (ha : zero ≤ a) (h : a ≤ b) : power a n ≤ power b n := by
  rw [power_eq, power_eq]
  exact mulSquares_mono n (sameSide_one ha) (sameSide_one (LawfulScalar.le_trans ha h))
    inUnit_one.2 h

/-- Repeated squaring passes on the sign of its start. -/
theorem neg_mulSquares (a b : α) (n : ℕ) : mulSquares (-a) b n = -mulSquares a b n := by
  induction n using Nat.strong_induction_on generalizing a b with
  | _ n ih =>
    rw [mulSquares, mulSquares.eq_def a]
    dsimp only
    by_cases h2 : n / 2 = 0
    · rw [if_pos h2, if_pos h2]
      split
      · exact LawfulScalar.neg_mul a b
      · rfl
    · rw [if_neg h2, if_neg h2]
      have hlt : n / 2 < n := by omega
      split
      · rw [LawfulScalar.neg_mul, ih _ hlt]
      · exact ih _ hlt a (b * b)

private theorem neg_mul_neg_self (b : α) : -b * -b = b * b := by
  rw [LawfulScalar.neg_mul, LawfulScalar.mul_neg, LawfulScalar.neg_neg]

/-- Powers with an even exponent are even functions. -/
theorem power_neg_of_even (a : α) {n : ℕ} (h : n % 2 = 0) : power (-a) n = power a n := by
  rw [power_eq, power_eq, mulSquares, mulSquares.eq_def one a]
  simp only [h, neg_mul_neg_self, Nat.zero_ne_one, if_false]

/-- Powers with an odd exponent are odd functions. -/
theorem power_neg_of_odd (a : α) {n : ℕ} (h : n % 2 = 1) : power (-a) n = -power a n := by
  rw [power_eq, power_eq, mulSquares, mulSquares.eq_def one a]
  simp only [h, neg_mul_neg_self, if_true]
  rw [LawfulScalar.mul_neg, neg_mulSquares, ← apply_ite (-·)]

/-- Powers with an odd exponent keep the order. -/
theorem power_mono_of_odd {n : ℕ} (hn : n % 2 = 1) (h : a ≤ b) : power a n ≤ power b n := by
  have hodd : ∀ a : α, power a n = -power (-a) n := by
    intro a
    rw [power_neg_of_odd a hn, LawfulScalar.neg_neg]
  rcases nonneg_or_nonpos (LawfulScalar.ne_nan_of_le h).1 with ha | ha
  · exact power_mono n ha h
  rcases nonneg_or_nonpos (LawfulScalar.ne_nan_of_le h).2 with hb | hb
  · -- the power of 0 lies between, and is its own opposite
    have hle : power a n ≤ power zero n := by
      rw [hodd a, hodd zero, LawfulScalar.neg_le_neg_iff, LawfulScalar.neg_zero]
      exact power_mono n zero_le_zero (neg_nonneg.mpr ha)
    exact LawfulScalar.le_trans hle (power_mono n zero_le_zero hb)
  · rw [hodd a, hodd b, LawfulScalar.neg_le_neg_iff]
    exact power_mono n (neg_nonneg.mpr hb) (LawfulScalar.neg_le_neg_iff.mpr h)

/-- The power with exponent 0 is 1. -/
theorem power_zero (a : α) : power a 0 = one := by
  rw [power_eq, mulSquares]
  rfl

/-- The power with exponent 1 is the number itself. -/
theorem power_one (a : α) : power a 1 = a := by
  rw [power_eq, mulSquares]
  exact (LawfulScalar.mul_comm one a).trans (LawfulScalar.mul_one a)

end OrderedScalar

/-! ### Exact numbers -/

variable {K : Type} [Field K] [LinearOrder K] [IsStrictOrderedRing K]

/-- Exact sums and products keep the order. -/
instance : OrderedScalar (Extended K) where
  add_le_add := Extended.add_le_add
  add_ne_nan {a b} ha hb ha' hb' := by
    cases a <;> cases b <;> simp [infinity, nan] at ha hb ha' hb' ⊢
  mul_le_mul := Extended.mul_le_mul
  mul_ne_nan := Extended.mul_ne_nan
  eq_infinity {a} ha hf := by
    cases a with
    | nan => exact absurd rfl ha
    | negInf => exact .inr rfl
    | finite x => contradiction
    | posInf => exact .inl rfl
  isFinite_maxFinite := rfl
  power_eq _ _ := rfl

end AffineArithmetic

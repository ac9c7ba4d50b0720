import AffineArithmetic.Proofs.Binary64.Scalar
import AffineArithmetic.Proofs.Scalar.Ordered

/-!
# Rounded numbers

The values of the binary64 format as scalars of their own: exact numbers that rounding does not
change, with arithmetic that rounds each exact result. A binary64 number and its value differ in
nothing but the sign of a zero and the bits of the undefined number, which comparison does not see,
so formulas can be compared by their values. Unlike binary64 numbers, rounded ones are lawful.
-/

namespace AffineArithmetic.Binary64

open Scalar

/-- Rounding a second time changes nothing. -/
@[simp] theorem rounded_rounded (a : Extended ℚ) : rounded (rounded a) = rounded a := by
  cases a with
  | finite q =>
    by_cases h : ∃ r, rounded (.finite q) = .finite r
    · obtain ⟨r, hr⟩ := h
      obtain rfl := eq_nearest_of_rounded hr
      rw [hr, rounded, toGrid, nearest_of_onGrid (onGrid_nearest q)]
      exact hr
    · cases hr : rounded (.finite q) with
      | finite r => exact absurd ⟨r, hr⟩ h
      | _ => rfl
  | _ => rfl

/-- A value of the binary64 format; rounding does not change it. -/
@[ext] structure Rounded where
  /-- The exact number that the value is. -/
  exact : Extended ℚ
  rounded_exact : rounded exact = exact

/-- The value of a binary64 number. -/
def toRounded (x : Float) : Rounded := ⟨value x, rounded_value x⟩

namespace Rounded

/-- The nearest value of the format. -/
def ofExact (a : Extended ℚ) : Rounded := ⟨rounded a, rounded_rounded a⟩

/-- Negation is exact. -/
protected def neg (x : Rounded) : Rounded := ⟨-x.exact, by rw [rounded_neg, x.rounded_exact]⟩

/-- The absolute value is exact. -/
protected def abs (x : Rounded) : Rounded := ⟨x.exact.abs, by rw [rounded_abs, x.rounded_exact]⟩

instance : Add Rounded := ⟨fun x y ↦ ofExact (x.exact + y.exact)⟩

instance : Sub Rounded := ⟨fun x y ↦ ofExact (x.exact - y.exact)⟩

instance : Neg Rounded := ⟨Rounded.neg⟩

instance : Mul Rounded := ⟨fun x y ↦ ofExact (x.exact * y.exact)⟩

instance : BEq Rounded := ⟨fun x y ↦ x.exact == y.exact⟩

instance : LE Rounded := ⟨fun x y ↦ x.exact ≤ y.exact⟩

instance : LT Rounded := ⟨fun x y ↦ x.exact < y.exact⟩

instance : Scalar Rounded where
  decidableLE x y := inferInstanceAs (Decidable (x.exact ≤ y.exact))
  decidableLT x y := inferInstanceAs (Decidable (x.exact < y.exact))
  zero := toRounded zero
  one := toRounded one
  half := toRounded half
  maxFinite := toRounded maxFinite
  infinity := toRounded infinity
  nan := toRounded nan
  abs := Rounded.abs
  isFinite x := x.exact.isFinite
  power := mulSquares (toRounded one)

variable {x y : Rounded}

/-! ### The exact numbers of results -/

/-- Sums are rounded. -/
theorem exact_add (x y : Rounded) : (x + y).exact = rounded (x.exact + y.exact) := rfl

/-- Differences are rounded. -/
theorem exact_sub (x y : Rounded) : (x - y).exact = rounded (x.exact - y.exact) := rfl

/-- Products are rounded. -/
theorem exact_mul (x y : Rounded) : (x * y).exact = rounded (x.exact * y.exact) := rfl

/-- Opposites are exact. -/
@[simp] theorem exact_neg (x : Rounded) : (-x).exact = -x.exact := rfl

/-- Absolute values are exact. -/
@[simp] theorem exact_abs (x : Rounded) : (Scalar.abs x).exact = x.exact.abs := rfl

/-- The exact number 0. -/
@[simp] theorem exact_zero : (zero : Rounded).exact = .finite 0 := value_zero

/-- The exact number 1. -/
@[simp] theorem exact_one : (one : Rounded).exact = .finite 1 := value_one

/-- The exact number one half. -/
@[simp] theorem exact_half : (half : Rounded).exact = .finite (1 / 2) := value_half

/-- The exact infinity. -/
@[simp] theorem exact_infinity : (infinity : Rounded).exact = .posInf := value_infinity

/-- The exact undefined number. -/
@[simp] theorem exact_nan : (nan : Rounded).exact = .nan := value_nan

/-- Values are in order as their exact numbers are. -/
theorem le_iff_exact : x ≤ y ↔ x.exact ≤ y.exact := Iff.rfl

/-- Values are undefined as their exact numbers are. -/
theorem eq_nan_iff : x = nan ↔ x.exact = .nan := by
  rw [Rounded.ext_iff, exact_nan]

/-- Values are finite as their exact numbers are. -/
theorem isFinite_iff_exact : Scalar.isFinite x = true ↔ ∃ q, x.exact = .finite q :=
  Extended.isFinite_iff

/-- Only finite numbers round to finite values. -/
theorem isFinite_of_rounded {a : Extended ℚ} (h : (rounded a).isFinite = true) :
    a.isFinite = true := by
  obtain ⟨r, hr⟩ := Extended.isFinite_iff.mp h
  exact Extended.isFinite_iff.mpr (exists_of_rounded hr)

/-- Only factors that are finite have a finite product. -/
theorem isFinite_of_mul (h : Scalar.isFinite (x * y) = true) :
    Scalar.isFinite x = true ∧ Scalar.isFinite y = true :=
  LawfulScalar.isFinite_of_mul (a := x.exact) (isFinite_of_rounded h)

/-! ### The middle of a number and itself -/

variable {q : ℚ}

/-- Finite values are on the grid. -/
theorem onGrid_of_exact (h : x.exact = .finite q) : OnGrid q := by
  have hr := x.rounded_exact
  rw [h] at hr
  rw [eq_nearest_of_rounded hr]
  exact onGrid_nearest q

/-- Finite values are within the bound. -/
theorem abs_lt_bound_of_exact (h : x.exact = .finite q) : |q| < bound := by
  have hr := x.rounded_exact
  rw [h, rounded, toGrid, nearest_of_onGrid (onGrid_of_exact h), saturate] at hr
  rw [abs_lt]
  split at hr
  · contradiction
  · next h1 =>
    split at hr
    · contradiction
    · next h2 => exact ⟨not_le.mp h2, not_le.mp h1⟩

/-- Numbers of the grid that are within the bound are not rounded. -/
theorem rounded_of_onGrid (h : OnGrid q) (hq : |q| < bound) :
    rounded (.finite q) = .finite q := by
  rw [rounded, toGrid, nearest_of_onGrid h]
  exact saturate_of_abs_lt hq

-- Numbers whose double overflows are far from the last place of all.
private theorem one_le_abs_of_bound_le (h : bound ≤ |q + q|) : 1 ≤ |q| := by
  have hb : (2 : ℚ) ^ (1 : ℤ) ≤ bound := by
    rw [bound_eq]
    exact zpow_le_zpow_right₀ one_le_two (by norm_num)
  rw [zpow_one] at hb
  rw [← two_mul, abs_mul, abs_two] at h
  linarith

private theorem exact_half_mul (h : x.exact = .finite q) (hg : OnGrid (q / 2)) :
    (half * x).exact = .finite (q / 2) := by
  have hb : |q / 2| < bound := by
    rw [abs_div, abs_two]
    linarith [abs_lt_bound_of_exact h, abs_nonneg q]
  rw [exact_mul, exact_half, h, Extended.finite_mul_finite, one_div_mul_eq_div]
  exact rounded_of_onGrid hg hb

/-- The midpoint of two equal bounds is that bound, also where their sum overflows: the halves are
exact then. -/
theorem half_add_self (h : Scalar.isFinite x = true) :
    (if Scalar.isFinite (half * (x + x)) then half * (x + x) else half * x + half * x) = x := by
  obtain ⟨q, hq⟩ := isFinite_iff_exact.mp h
  have hg := onGrid_of_exact hq
  have hsum : (x + x).exact = rounded (.finite (q + q)) := by rw [exact_add, hq]; rfl
  by_cases hb : |q + q| < bound
  · -- the double is exact
    rw [rounded_of_onGrid (hg.add_self) hb] at hsum
    have hhalf : (half * (x + x)).exact = x.exact := by
      rw [exact_half_mul hsum (by rwa [add_self_div_two]), add_self_div_two, hq]
    rw [if_pos (isFinite_iff_exact.mpr ⟨q, hhalf.trans hq⟩)]
    exact Rounded.ext hhalf
  · have hhalf := exact_half_mul hq (hg.div_two (one_le_abs_of_bound_le (not_lt.mp hb)))
    have hinf : ¬ Scalar.isFinite (half * (x + x)) = true := by
      intro hf
      obtain ⟨s, hs⟩ := isFinite_iff_exact.mp (isFinite_of_mul hf).2
      have hd := eq_nearest_of_rounded (hsum.symm.trans hs)
      rw [nearest_of_onGrid (hg.add_self)] at hd
      exact hb (hd ▸ abs_lt_bound_of_exact hs)
    rw [if_neg hinf]
    refine Rounded.ext ?_
    rw [exact_add, hhalf, Extended.finite_add_finite, add_halves, ← hq, x.rounded_exact]

/-! ### Laws -/

/-- Rounded numbers have all laws. -/
instance : LawfulScalar Rounded where
  le_antisymm {x y} h h' := Rounded.ext (LawfulScalar.le_antisymm (a := x.exact) h h')
  le_trans h h' := Extended.le_trans h h'
  le_total h h' := Extended.le_total (eq_nan_iff.not.mp h) (eq_nan_iff.not.mp h')
  ne_nan_of_le h := (Extended.ne_nan_of_le h).imp eq_nan_iff.not.mpr eq_nan_iff.not.mpr
  lt_iff := Extended.lt_iff
  beq_iff {x y} := by
    rw [Rounded.ext_iff, Ne, eq_nan_iff]
    exact LawfulScalar.beq_iff (a := x.exact)
  le_infinity h := by
    rw [le_iff_exact, exact_infinity]
    exact Extended.le_posInf (eq_nan_iff.not.mp h)
  neg_neg _ := Rounded.ext Extended.neg_neg
  neg_le_neg h := Extended.neg_le_neg h
  neg_zero := Rounded.ext (by rw [exact_neg, exact_zero, Extended.neg_finite, neg_zero])
  add_comm x y := Rounded.ext (congrArg rounded (Extended.add_comm _ _))
  neg_add x y := Rounded.ext (by
    rw [exact_neg, exact_add, exact_add, exact_neg, exact_neg, ← rounded_neg, Extended.neg_add])
  sub_eq_add_neg _ _ := rfl
  add_zero x := Rounded.ext (by
    have h := LawfulScalar.add_zero x.exact
    rw [exact_add, exact_zero]
    exact (congrArg rounded h).trans x.rounded_exact)
  mul_comm x y := Rounded.ext (congrArg rounded (Extended.mul_comm _ _))
  neg_mul x y := Rounded.ext (by
    rw [exact_neg, exact_mul, exact_mul, exact_neg, ← rounded_neg, Extended.neg_mul])
  mul_one x := Rounded.ext (by
    rw [exact_mul, exact_one, Extended.mul_comm, Extended.one_mul, x.rounded_exact])
  abs_neg x := Rounded.ext (Extended.abs_neg _)
  abs_of_nonneg h := Rounded.ext (Extended.abs_of_nonneg (by
    rwa [le_iff_exact, exact_zero] at h))
  zero_le_one := by
    rw [le_iff_exact, exact_zero, exact_one]
    exact zero_le_one' ℚ
  one_ne_zero h := by
    have := congrArg Rounded.exact h
    rw [exact_zero, exact_one] at this
    exact one_ne_zero (Extended.finite.inj this)
  isFinite_neg x := Extended.isFinite_neg
  isFinite_abs x := Extended.isFinite_abs
  isFinite_of_add {x _} h := LawfulScalar.isFinite_of_add (a := x.exact) (isFinite_of_rounded h)
  isFinite_of_mul := isFinite_of_mul
  isFinite_zero := isFinite_iff_exact.mpr ⟨0, exact_zero⟩
  isFinite_one := isFinite_iff_exact.mpr ⟨1, exact_one⟩
  isFinite_half := isFinite_iff_exact.mpr ⟨1 / 2, exact_half⟩
  isFinite_nan := congrArg Extended.isFinite exact_nan
  isFinite_infinity := congrArg Extended.isFinite exact_infinity
  sub_self {x} h := Rounded.ext (by
    have h0 := LawfulScalar.sub_self (a := x.exact) h
    rw [exact_sub, h0, exact_zero]
    exact rounded_zero)
  mul_zero {x} h := Rounded.ext (by
    have h0 := LawfulScalar.mul_zero (a := x.exact) h
    rw [exact_mul, exact_zero]
    exact (congrArg rounded h0).trans rounded_zero)
  half_add_self := half_add_self

/-! ### Order -/

/-- Rounded sums and products keep the order. -/
instance : OrderedScalar Rounded where
  add_le_add {a b c d} h h' hn hn' := by
    rw [Ne, eq_nan_iff, exact_add, rounded_eq_nan] at hn hn'
    exact rounded_mono (Extended.add_le_add h h' hn hn')
  add_ne_nan {a b} ha hb ha' hb' := by
    rw [Ne, eq_nan_iff] at ha hb ⊢
    rw [Ne, Rounded.ext_iff, exact_infinity] at ha' hb'
    rw [exact_add, rounded_eq_nan]
    exact OrderedScalar.add_ne_nan (α := Extended ℚ) ha hb ha' hb'
  mul_le_mul {a b c d} ha hc h h' hn hn' := by
    rw [Ne, eq_nan_iff, exact_mul, rounded_eq_nan] at hn hn'
    rw [le_iff_exact, exact_zero] at ha hc
    exact rounded_mono (Extended.mul_le_mul ha hc h h' hn hn')
  mul_ne_nan {a b} ha hb ha' hb' := by
    rw [Ne, eq_nan_iff] at ha hb ⊢
    rw [Ne, Rounded.ext_iff, exact_zero] at ha' hb'
    rw [exact_mul, rounded_eq_nan]
    exact Extended.mul_ne_nan ha hb ha' hb'
  eq_infinity {a} ha hf := by
    rw [Ne, eq_nan_iff] at ha
    rw [Rounded.ext_iff, Rounded.ext_iff, exact_neg, exact_infinity]
    exact OrderedScalar.eq_infinity (α := Extended ℚ) ha hf
  isFinite_maxFinite := isFinite_iff_exact.mpr ⟨largest, value_maxFinite⟩
  power_eq _ _ := rfl

-- A significand of 53 digits is followed by a full one in the highest places.
private theorem abs_le_largest (h : OnGrid q) (hb : |q| < bound) : |q| ≤ largest := by
  obtain ⟨m, e, hm, -, rfl⟩ := h
  have hp : (0 : ℚ) < 2 ^ (971 : ℤ) := zpow_pos two_pos _
  rw [abs_mul, abs_of_pos (zpow_pos two_pos e : (0 : ℚ) < 2 ^ e)] at hb ⊢
  rw [largest_eq]
  rcases le_or_gt e 971 with he | he
  · have hm' : |(m : ℚ)| ≤ 2 ^ 53 - 1 := by exact_mod_cast Int.le_sub_one_of_lt hm
    exact mul_le_mul hm' (zpow_le_zpow_right₀ one_le_two he) (zpow_pos two_pos e).le (by norm_num)
  · obtain ⟨k, rfl⟩ := Int.le.dest he.le
    have hbound : bound = 2 ^ 53 * 2 ^ (971 : ℤ) := by
      rw [bound_eq, ← zpow_natCast, ← zpow_add₀ two_ne_zero]
      norm_num
    rw [zpow_add₀ two_ne_zero, zpow_natCast, mul_comm (2 ^ (971 : ℤ) : ℚ), ← mul_assoc] at hb ⊢
    rw [hbound] at hb
    have hlt : |m| * 2 ^ k < 2 ^ 53 := by exact_mod_cast lt_of_mul_lt_mul_right hb hp.le
    refine mul_le_mul_of_nonneg_right ?_ hp.le
    exact_mod_cast Int.le_sub_one_of_lt hlt

/-- Every number but infinity is at most the largest finite one. -/
theorem le_maxFinite (h : x ≠ nan) (h' : x ≠ infinity) : x ≤ maxFinite := by
  rw [Ne, eq_nan_iff] at h
  rw [Ne, Rounded.ext_iff, exact_infinity] at h'
  change x.exact ≤ value maxFinite
  rw [value_maxFinite]
  cases hx : x.exact with
  | nan => exact absurd hx h
  | negInf => trivial
  | posInf => exact absurd hx h'
  | finite q =>
    exact (le_abs_self q).trans (abs_le_largest (onGrid_of_exact hx) (abs_lt_bound_of_exact hx))

end Rounded

/-! ### The values of binary64 results -/

variable {x y : Float}

/-- Results on binary64 numbers have the results on their values as values. -/
@[simp] theorem toRounded_add (x y : Float) :
    toRounded (x + y) = toRounded x + toRounded y := Rounded.ext (value_add x y)

/-- The value of a difference. -/
@[simp] theorem toRounded_sub (x y : Float) :
    toRounded (x - y) = toRounded x - toRounded y := Rounded.ext (value_sub x y)

/-- The value of a product. -/
@[simp] theorem toRounded_mul (x y : Float) :
    toRounded (x * y) = toRounded x * toRounded y := Rounded.ext (value_mul x y)

/-- The value of the opposite. -/
@[simp] theorem toRounded_neg (x : Float) : toRounded (-x) = -toRounded x :=
  Rounded.ext (value_neg x)

/-- The value of the absolute value. -/
@[simp] theorem toRounded_abs (x : Float) :
    toRounded (Scalar.abs x) = Scalar.abs (toRounded x) := Rounded.ext (value_scalar_abs x)

/-- Values are in order as the numbers are. -/
@[simp] theorem toRounded_le : toRounded x ≤ toRounded y ↔ x ≤ y := le_iff.symm

/-- Values are in strict order as the numbers are. -/
@[simp] theorem toRounded_lt : toRounded x < toRounded y ↔ x < y := lt_iff.symm

/-- Values are compared as the numbers are. -/
@[simp] theorem toRounded_beq : (toRounded x == toRounded y) = (x == y) := by
  rw [Bool.eq_iff_iff, beq_iff, LawfulScalar.beq_iff, Rounded.ext_iff, Ne, Rounded.eq_nan_iff]
  rfl

/-- A number other than the undefined one is equal to the numbers with the same value. -/
theorem beq_iff_of_ne_nan (h : toRounded x ≠ nan) :
    (x == y) = true ↔ toRounded x = toRounded y := by
  rw [← toRounded_beq, LawfulScalar.beq_iff, and_iff_left h]

/-- The number 0 has the value 0. -/
@[simp] theorem toRounded_zero : toRounded zero = zero := rfl

/-- The number 1 has the value 1. -/
@[simp] theorem toRounded_one : toRounded one = one := rfl

/-- One half has the value one half. -/
@[simp] theorem toRounded_half : toRounded half = half := rfl

/-- The largest finite number has the largest finite value. -/
@[simp] theorem toRounded_maxFinite : toRounded maxFinite = maxFinite := rfl

/-- Infinity has an infinite value. -/
@[simp] theorem toRounded_infinity : toRounded infinity = infinity := rfl

/-- The undefined number has the undefined value. -/
@[simp] theorem toRounded_nan : toRounded nan = nan := rfl

/-- Values are finite as the numbers are. -/
@[simp] theorem isFinite_toRounded : Scalar.isFinite (toRounded x) = Scalar.isFinite x := by
  rw [Bool.eq_iff_iff, Rounded.isFinite_iff_exact, scalar_isFinite_iff]
  rfl

/-- A finite number is equal to the numbers with the same value. -/
theorem beq_iff_of_isFinite (h : Scalar.isFinite x = true) :
    (x == y) = true ↔ toRounded x = toRounded y :=
  beq_iff_of_ne_nan (LawfulScalar.ne_nan_of_isFinite (isFinite_toRounded.trans h))

/-- The value of the larger number. -/
@[simp] theorem toRounded_max (x y : Float) :
    toRounded (Scalar.max x y) = Scalar.max (toRounded x) (toRounded y) := by
  simp only [Scalar.max, toRounded_le, toRounded_beq, apply_ite toRounded]

/-- The value of the smaller number. -/
@[simp] theorem toRounded_min (x y : Float) :
    toRounded (Scalar.min x y) = Scalar.min (toRounded x) (toRounded y) := by
  simp only [Scalar.min, toRounded_le, toRounded_beq, apply_ite toRounded]

private theorem toRounded_mulSquares (acc x : Float) (n : ℕ) :
    toRounded (mulSquares acc x n) = mulSquares (toRounded acc) (toRounded x) n := by
  induction n using Nat.strong_induction_on generalizing acc x with
  | _ n ih =>
    unfold mulSquares
    by_cases h : n / 2 = 0
    · rw [if_pos h, if_pos h, apply_ite toRounded, toRounded_mul]
    · rw [if_neg h, if_neg h, ih (n / 2) (by omega), apply_ite toRounded, toRounded_mul,
        toRounded_mul]

/-- The value of a power, as long as it is computed by multiplication. -/
theorem toRounded_power (x : Float) {n : ℕ} (h : n ≤ maxSquaringExponent) :
    toRounded (Scalar.power x n) = Scalar.power (toRounded x) n := by
  change toRounded (power x n) = mulSquares (toRounded one) (toRounded x) n
  rw [power, if_pos h]
  exact toRounded_mulSquares one x n

end AffineArithmetic.Binary64

import Mathlib.Algebra.Order.Field.Basic
import AffineArithmetic.Scalar.Basic

/-!
# Exact numbers with infinities

The elements of an ordered field together with both infinities and one undefined number, as scalars.
Finite numbers are never rounded and never overflow, so the formulas of the library mean over these
numbers what they mean on paper. Operations without a result, such as infinity minus infinity, are
undefined, and comparisons with the undefined number are false.
-/

namespace AffineArithmetic

/-- A field with two infinities and an undefined number. -/
inductive Extended (K : Type) where
  | nan
  | negInf
  | finite (x : K)
  | posInf
deriving DecidableEq

namespace Extended

variable {K : Type}

instance : Coe K (Extended K) := ⟨finite⟩

section Field

variable [Field K]

/-- Negation exchanges the infinities. -/
protected def neg : Extended K → Extended K
  | nan => nan
  | negInf => posInf
  | finite x => finite (-x)
  | posInf => negInf

/-- Addition; opposite infinities have no sum. -/
protected def add : Extended K → Extended K → Extended K
  | finite x, finite y => finite (x + y)
  | finite _, posInf => posInf
  | posInf, finite _ => posInf
  | posInf, posInf => posInf
  | finite _, negInf => negInf
  | negInf, finite _ => negInf
  | negInf, negInf => negInf
  | _, _ => nan

instance : Neg (Extended K) := ⟨Extended.neg⟩

instance : Add (Extended K) := ⟨Extended.add⟩

instance : Sub (Extended K) := ⟨fun x y ↦ x + -y⟩

variable (x y : K)

/-- Finite numbers are negated in the field. -/
@[simp] theorem neg_finite : -(finite x) = finite (-x) := rfl

/-- The opposite of infinity. -/
@[simp] theorem neg_posInf : -(posInf : Extended K) = negInf := rfl

/-- The opposite of negative infinity. -/
@[simp] theorem neg_negInf : -(negInf : Extended K) = posInf := rfl

/-- Finite numbers are added in the field. -/
@[simp] theorem finite_add_finite : finite x + finite y = finite (x + y) := rfl

/-- Finite numbers are subtracted in the field. -/
@[simp] theorem finite_sub_finite : finite x - finite y = finite (x - y) :=
  congrArg finite (sub_eq_add_neg x y).symm

end Field

section Order

variable [LinearOrder K]

/-- The order of the field between the infinities. The undefined number is not even below
itself. -/
protected def le : Extended K → Extended K → Prop
  | finite x, finite y => x ≤ y
  | negInf, negInf => True
  | negInf, finite _ => True
  | negInf, posInf => True
  | finite _, posInf => True
  | posInf, posInf => True
  | _, _ => False

instance : LE (Extended K) := ⟨Extended.le⟩

instance : LT (Extended K) := ⟨fun x y ↦ x ≤ y ∧ ¬ y ≤ x⟩

instance : DecidableLE (Extended K) := fun x y ↦ by
  change Decidable (Extended.le x y)
  cases x <;> cases y <;> dsimp only [Extended.le] <;> infer_instance

instance : DecidableLT (Extended K) := fun x y ↦
  inferInstanceAs (Decidable (x ≤ y ∧ ¬ y ≤ x))

/-- Numbers are equal if each is at most the other, so the undefined number differs from itself. -/
instance : BEq (Extended K) := ⟨fun x y ↦ decide (x ≤ y ∧ y ≤ x)⟩

variable (x y : K) (a b : Extended K)

/-- Finite numbers are ordered as in the field. -/
@[simp] theorem finite_le_finite : finite x ≤ finite y ↔ x ≤ y := Iff.rfl

/-- Finite numbers are strictly ordered as in the field. -/
@[simp] theorem finite_lt_finite : finite x < finite y ↔ x < y :=
  lt_iff_le_not_ge.symm

/-- The undefined number is below nothing. -/
@[simp] theorem not_nan_le : ¬ nan ≤ a := by
  cases a <;> exact id

/-- Nothing is below the undefined number. -/
@[simp] theorem not_le_nan : ¬ a ≤ nan := by
  cases a <;> exact id

/-- Every finite number is below infinity. -/
@[simp] theorem finite_le_posInf : finite x ≤ posInf := trivial

/-- Negative infinity is below every finite number. -/
@[simp] theorem negInf_le_finite : negInf ≤ finite x := trivial

/-- Only infinity is above infinity. -/
@[simp] theorem posInf_le_iff : posInf ≤ a ↔ a = posInf := by
  cases a <;> simp [LE.le, Extended.le]

/-- Only negative infinity is below negative infinity. -/
@[simp] theorem le_negInf_iff : a ≤ negInf ↔ a = negInf := by
  cases a <;> simp [LE.le, Extended.le]

/-- Numbers other than the undefined one are equal as scalars exactly if they are equal. -/
theorem beq_iff_eq (h : a ≠ nan) : (a == b) = true ↔ a = b := by
  change decide (a ≤ b ∧ b ≤ a) = true ↔ a = b
  rw [decide_eq_true_iff]
  constructor
  · intro hab
    cases a <;> cases b <;> simp_all
    exact le_antisymm hab.1 hab.2
  · rintro rfl
    cases a with
    | nan => exact absurd rfl h
    | finite x => exact ⟨le_refl x, le_refl x⟩
    | _ => exact ⟨trivial, trivial⟩

end Order

section OrderedField

variable [Field K] [LinearOrder K]

/-- Infinity times a finite number; infinity times 0 is undefined. -/
def infinityTimes (x : K) : Extended K :=
  if 0 < x then posInf else if x < 0 then negInf else nan

/-- Multiplication by the rule of signs. -/
protected def mul : Extended K → Extended K → Extended K
  | finite x, finite y => finite (x * y)
  | finite x, posInf => infinityTimes x
  | posInf, finite x => infinityTimes x
  | finite x, negInf => infinityTimes (-x)
  | negInf, finite x => infinityTimes (-x)
  | posInf, posInf => posInf
  | negInf, negInf => posInf
  | posInf, negInf => negInf
  | negInf, posInf => negInf
  | nan, _ => nan
  | _, nan => nan

instance : Mul (Extended K) := ⟨Extended.mul⟩

/-- The absolute value. -/
def abs : Extended K → Extended K
  | nan => nan
  | finite x => finite |x|
  | _ => posInf

/-- Whether the number is an element of the field. -/
def isFinite : Extended K → Bool
  | finite _ => true
  | _ => false

instance : Scalar (Extended K) where
  zero := finite 0
  one := finite 1
  half := finite (1 / 2)
  maxFinite := finite ((2 ^ 53 - 1) * 2 ^ 971)
  infinity := posInf
  nan := nan
  abs := abs
  isFinite := isFinite
  power := Scalar.mulSquares (finite 1)

/-- Finite numbers are multiplied in the field. -/
@[simp] theorem finite_mul_finite (x y : K) : finite x * finite y = finite (x * y) := rfl

end OrderedField

end Extended
end AffineArithmetic

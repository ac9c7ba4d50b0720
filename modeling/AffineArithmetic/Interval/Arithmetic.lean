import AffineArithmetic.Interval.Basic

/-!
# Interval arithmetic

Negation, absolute value, sum, difference, product and powers of intervals. A result is empty only
if an operand is: bounds that overflow are pulled back onto the finite numbers. A scalar operand
counts as the interval that holds it.
-/

namespace AffineArithmetic.Interval

open Scalar

variable {α : Type} [Scalar α]

/-- The interval of the opposite numbers. -/
protected def neg (i : Interval α) : Interval α :=
  if i.isEmpty then i else ⟨-i.upper, -i.lower⟩

instance : Neg (Interval α) := ⟨Interval.neg⟩

/-- The interval of the absolute values. -/
def abs (i : Interval α) : Interval α :=
  if i.isEmpty then empty else ofBounds i.mignitude i.magnitude

/-- The interval of the sums: bounds are added. -/
protected def add (i j : Interval α) : Interval α :=
  if i.isEmpty || j.isEmpty then empty
  else outward (i.lower + j.lower) (i.upper + j.upper)

instance : Add (Interval α) := ⟨Interval.add⟩

/-- The interval of the differences: the sum with the opposite interval. -/
protected def sub (i j : Interval α) : Interval α := i + -j

instance : Sub (Interval α) := ⟨Interval.sub⟩

/-- The product of two bounds. A bound of 0 stands for the number 0, which an infinite bound does
not turn into something undefined. -/
def mulBounds (a b : α) : α :=
  if a == Scalar.zero || b == Scalar.zero then Scalar.zero else a * b

/-- The products of the bounds of `i` with the bounds of `j`. -/
def boundProducts (i j : Interval α) : List α :=
  [mulBounds i.lower j.lower, mulBounds i.lower j.upper,
    mulBounds i.upper j.lower, mulBounds i.upper j.upper]

/-- The interval of the products, from the smallest to the largest product of bounds. -/
protected def mul (i j : Interval α) : Interval α :=
  if i.isEmpty || j.isEmpty then empty
  else
    outward ((boundProducts i j).foldl Scalar.min infinity)
      ((boundProducts i j).foldl Scalar.max (-infinity))

instance : Mul (Interval α) := ⟨Interval.mul⟩

instance : HAdd (Interval α) α (Interval α) := ⟨fun i x ↦ i + ofScalar x⟩

instance : HAdd α (Interval α) (Interval α) := ⟨fun x i ↦ ofScalar x + i⟩

instance : HSub (Interval α) α (Interval α) := ⟨fun i x ↦ i - ofScalar x⟩

instance : HSub α (Interval α) (Interval α) := ⟨fun x i ↦ ofScalar x - i⟩

instance : HMul (Interval α) α (Interval α) := ⟨fun i x ↦ i * ofScalar x⟩

instance : HMul α (Interval α) (Interval α) := ⟨fun x i ↦ ofScalar x * i⟩

/-- The interval of the `n`-th powers. Even powers start at the smallest absolute value, which is
tighter than repeated multiplication for an interval on both sides of 0. -/
def pow (i : Interval α) (n : Nat) : Interval α :=
  if i.isEmpty then empty
  else if n = 0 then one
  else if n = 1 then i
  else if n % 2 = 0 then outward (power i.mignitude n) (power i.magnitude n)
  else outward (power i.lower n) (power i.upper n)

instance : NatPow (Interval α) := ⟨pow⟩

end AffineArithmetic.Interval

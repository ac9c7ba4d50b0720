/-!
# Scalars

The numbers that bounds, coefficients and error terms are made of. Every formula of the library is
written once over this interface, so that the same definition can be run in binary64 arithmetic and
be read in exact arithmetic. The interface promises no laws: rounding breaks most of them.
-/

namespace AffineArithmetic

/-- Numbers with an order, arithmetic, an infinity and a largest finite value. -/
class Scalar (α : Type) extends Add α, Sub α, Neg α, Mul α, BEq α, LE α, LT α where
  [decidableLE : DecidableLE α]
  [decidableLT : DecidableLT α]
  /-- The neutral element of addition. -/
  zero : α
  /-- The neutral element of multiplication. -/
  one : α
  /-- One half. -/
  half : α
  /-- The largest finite number. -/
  maxFinite : α
  /-- The number above every finite number. -/
  infinity : α
  /-- The result of an operation that has none; it compares with nothing. -/
  nan : α
  /-- The number without its sign. -/
  abs : α → α
  /-- Whether the number is neither infinite nor undefined. -/
  isFinite : α → Bool
  /-- The power with a natural exponent. -/
  power : α → Nat → α

namespace Scalar

attribute [reducible, instance] decidableLE decidableLT

/-- `acc * x ^ n` by repeated squaring, for a positive `n`: the factors enter `acc` from the
lowest binary digit of `n` to the highest. -/
def mulSquares {β : Type} [Mul β] (acc x : β) (n : Nat) : β :=
  let acc := if n % 2 = 1 then acc * x else acc
  if n / 2 = 0 then acc else mulSquares acc (x * x) (n / 2)
termination_by n
decreasing_by omega

variable {α : Type} [Scalar α]

/-- The number two. -/
def two : α := one + one

/-- The larger of two numbers: the second of two equal ones, and the other one beside an undefined
number. -/
protected def max (a b : α) : α :=
  if a ≤ b then b else if a == a then a else b

/-- The smaller of two numbers: the second of two equal ones, and the other one beside an undefined
number. -/
protected def min (a b : α) : α :=
  if b ≤ a then b else if a == a then a else b

/-- The larger of two numbers is one of them. -/
theorem max_eq_or (a b : α) : Scalar.max a b = a ∨ Scalar.max a b = b := by
  unfold Scalar.max
  split
  · exact .inr rfl
  · split
    · exact .inl rfl
    · exact .inr rfl

/-- The smaller of two numbers is one of them. -/
theorem min_eq_or (a b : α) : Scalar.min a b = a ∨ Scalar.min a b = b := by
  unfold Scalar.min
  split
  · exact .inr rfl
  · split
    · exact .inl rfl
    · exact .inr rfl

/-- The sum from left to right. It starts at the negative zero, which is neutral also where the
sign of a zero counts. -/
def sum (xs : List α) : α := xs.foldl (· + ·) (-zero)

/-- The sum of the absolute values, from left to right. -/
def absSum (xs : List α) : α := sum (xs.map abs)

end Scalar
end AffineArithmetic

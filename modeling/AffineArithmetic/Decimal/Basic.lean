import AffineArithmetic.Binary64.Grid

/-!
# Decimals

A non-negative decimal number as a whole significand and a power of ten, and the binary64 magnitude
nearest to it.
-/

namespace AffineArithmetic

/-- The number `significand * 10 ^ exponent`. -/
structure Decimal where
  significand : Nat
  exponent : Int
deriving DecidableEq

namespace Decimal

/-- The numerator of the decimal as a quotient of naturals. -/
def numerator (d : Decimal) : Nat := d.significand * Nat.pow 10 d.exponent.toNat

/-- The denominator of the decimal as a quotient of naturals. -/
def denominator (d : Decimal) : Nat := Nat.pow 10 (-d.exponent).toNat

/-- The bit pattern of the magnitude nearest to the decimal, ties to even. Decimals that are
plainly beyond the largest finite number or plainly below half a unit are told by their exponent,
so that no huge power of ten is computed. -/
def toBits (d : Decimal) : Nat :=
  if d.significand = 0 then 0
  else if 310 < d.exponent then Binary64.infinityBits
  else if d.exponent < -(330 + d.significand.log2) then 0
  else Binary64.bitsOfUnits (d.numerator * Binary64.unitsPerOne) d.denominator

/-- The same number with its trailing zeros moved into the exponent. -/
def stripZeros (d : Decimal) : Decimal :=
  if d.significand ≠ 0 ∧ d.significand % 10 = 0 then
    stripZeros ⟨d.significand / 10, d.exponent + 1⟩
  else d
termination_by d.significand
decreasing_by omega

end Decimal
end AffineArithmetic

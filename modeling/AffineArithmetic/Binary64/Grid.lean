/-!
# The grid of finite binary64 numbers

Every finite binary64 number is a whole multiple of the smallest positive one, the *unit*
`2 ^ (-1074)`. The bit pattern of a magnitude and its number of units determine each other; a
quotient of naturals is rounded to the nearest number of the grid, ties to the even bit pattern.
-/

namespace AffineArithmetic.Binary64

/-- The places after the point of a unit, in binary and in decimal notation. -/
def unitPlaces : Nat := 1074

/-- How many units make 1. -/
def unitsPerOne : Nat := 1 <<< unitPlaces

/-- The bit pattern of infinity, which is above that of every finite magnitude. -/
def infinityBits : Nat := 0x7ff0000000000000

/-- The sign bit of a bit pattern. -/
def signBit : Nat := 0x8000000000000000

/-- The leading bit `2 ^ 52` of a significand of full length, which is also the first bit pattern
of such a magnitude. -/
def leadingBit : Nat := 0x10000000000000

/-- The bit pattern without the sign. -/
def magnitudeBits (x : Float) : Nat := x.toBits.toNat % signBit

/-- Whether the sign bit is set. -/
def isNegative (x : Float) : Bool := signBit ≤ x.toBits.toNat

/-- The exponent of the gap between a magnitude and the next one, in units. -/
def gapExponent (bits : Nat) : Nat := bits / leadingBit - 1

/-- The number of units in a finite magnitude. -/
def unitsOfBits (bits : Nat) : Nat :=
  (bits - gapExponent bits * leadingBit) <<< gapExponent bits

/-- The quotient rounded to the nearest natural, ties to even. -/
def roundQuotient (num den : Nat) : Nat :=
  let q := num / den
  let twiceRest := 2 * (num % den)
  if den < twiceRest ∨ twiceRest = den ∧ q % 2 = 1 then q + 1 else q

/-- The bit pattern of the magnitude nearest to `num / den` units, ties to even, and that of
infinity where no finite magnitude is near enough. A significand that rounds up to `2 ^ 53` carries
into the exponent by the addition itself. -/
def bitsOfUnits (num den : Nat) : Nat :=
  let gap := (num / den).log2 - 52
  min (gap * leadingBit + roundQuotient num (den <<< gap)) infinityBits

/-- A whole quotient is not rounded. -/
theorem roundQuotient_mul (q : Nat) {den : Nat} (h : 0 < den) :
    roundQuotient (q * den) den = q := by
  simp only [roundQuotient, Nat.mul_div_cancel q h, Nat.mul_mod_left]
  exact if_neg (by omega)

/-- A significand of 53 binary digits, or a shorter one with gap exponent 0, shows its gap. -/
private theorem log2_units {m g : Nat} (hu : m < 2 * leadingBit) (hl : g = 0 ∨ leadingBit ≤ m) :
    (m <<< g).log2 - 52 = g := by
  rw [Nat.shiftLeft_eq]
  unfold leadingBit at hu hl
  by_cases h0 : m = 0
  · simp [h0]
    omega
  · have hu' : m * 2 ^ g < 2 ^ (53 + g) := by
      rw [Nat.pow_add]
      exact Nat.mul_lt_mul_of_pos_right hu (Nat.two_pow_pos g)
    have hp : m * 2 ^ g ≠ 0 := Nat.mul_ne_zero h0 (Nat.ne_of_gt (Nat.two_pow_pos g))
    have := (Nat.log2_lt hp).mpr hu'
    rcases hl with rfl | hl
    · omega
    · have hl' : 2 ^ (52 + g) ≤ m * 2 ^ g := by
        rw [Nat.pow_add]
        exact Nat.mul_le_mul_right _ hl
      have := (Nat.le_log2 hp).mpr hl'
      omega

/-- A magnitude on the grid is rounded to itself. -/
theorem bitsOfUnits_unitsOfBits {bits den : Nat} (hb : bits < infinityBits) (hd : 0 < den) :
    bitsOfUnits (unitsOfBits bits * den) den = bits := by
  have hm : bits - gapExponent bits * leadingBit < 2 * leadingBit := by
    unfold gapExponent leadingBit
    omega
  have hl : gapExponent bits = 0 ∨ leadingBit ≤ bits - gapExponent bits * leadingBit := by
    unfold gapExponent leadingBit
    omega
  have hs : gapExponent bits * leadingBit + (bits - gapExponent bits * leadingBit) = bits := by
    unfold gapExponent leadingBit
    omega
  have hg := log2_units hm hl
  have hr : roundQuotient (unitsOfBits bits * den) (den <<< gapExponent bits) =
      bits - gapExponent bits * leadingBit := by
    rw [unitsOfBits, Nat.shiftLeft_eq, Nat.shiftLeft_eq, Nat.mul_assoc,
      Nat.mul_comm (2 ^ gapExponent bits) den]
    exact roundQuotient_mul _ (Nat.mul_pos hd (Nat.two_pow_pos _))
  rw [bitsOfUnits, Nat.mul_div_cancel _ hd]
  unfold unitsOfBits at hr ⊢
  simp only [hg, hr, hs]
  exact Nat.min_eq_left (Nat.le_of_lt hb)

end AffineArithmetic.Binary64

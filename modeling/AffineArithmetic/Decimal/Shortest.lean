import AffineArithmetic.Decimal.Basic

/-!
# The shortest decimal of a magnitude

The decimal with the fewest digits that reads back to a given finite binary64 magnitude, and the
nearest one of those. It is found among the two neighbours of the magnitude on the decimal grids of
one, two, and more digits.
-/

namespace AffineArithmetic.Decimal

/-- The least power of ten above a positive number of units. -/
def leadingExponent (units : Nat) : Int :=
  if Binary64.unitsPerOne ≤ units then
    (Nat.toDigits 10 (units / Binary64.unitsPerOne)).length
  else 1 - (Nat.toDigits 10 ((Binary64.unitsPerOne - 1) / units)).length

/-- The neighbour on the grid of `10 ^ exponent` that reads back to the magnitude: the nearer one
if both do, and the upper one of two equally near. -/
def onGrid? (bits : Nat) (exponent : Int) : Option Decimal :=
  let num := Binary64.unitsOfBits bits * Nat.pow 10 (-exponent).toNat
  let den := Binary64.unitsPerOne * Nat.pow 10 exponent.toNat
  let below := stripZeros ⟨num / den, exponent⟩
  let above := stripZeros ⟨num / den + 1, exponent⟩
  if above.toBits = bits ∧ (below.toBits ≠ bits ∨ den ≤ 2 * (num % den)) then some above
  else if below.toBits = bits then some below
  else none

/-- All digits of a finite magnitude. -/
def exact (bits : Nat) : Decimal :=
  ⟨Binary64.unitsOfBits bits * Nat.pow 5 Binary64.unitPlaces, -Binary64.unitPlaces⟩

/-- The shortest decimal that reads back to the magnitude. Seventeen digits are enough for every
magnitude. -/
def shortest (bits : Nat) : Decimal :=
  if bits = 0 then ⟨0, 0⟩
  else
    let top := leadingExponent (Binary64.unitsOfBits bits)
    ((List.range 17).findSome? fun (n : Nat) ↦ onGrid? bits (top - (n + 1))).getD (exact bits)

/-- A neighbour on a grid reads back. -/
theorem toBits_of_onGrid? {bits : Nat} {exponent : Int} {d : Decimal}
    (h : onGrid? bits exponent = some d) : d.toBits = bits := by
  simp only [onGrid?] at h
  split at h
  · next ha => exact Option.some.inj h ▸ ha.1
  · split at h
    · next hb => exact Option.some.inj h ▸ hb
    · cases h

private theorem numerator_units (u n : Nat) :
    numerator ⟨u * Nat.pow 5 n, -n⟩ * (1 <<< n) = u * denominator ⟨u * Nat.pow 5 n, -n⟩ := by
  have hn : (-(n : Int)).toNat = 0 := by omega
  rw [numerator, denominator, hn, Int.neg_neg, Int.toNat_natCast, Nat.one_shiftLeft]
  simp only [Nat.pow_eq]
  rw [Nat.pow_zero, Nat.mul_one, Nat.mul_assoc, ← Nat.mul_pow]

private theorem mul_five_pow_ne_zero {u : Nat} (hu : u ≠ 0) (n : Nat) : u * Nat.pow 5 n ≠ 0 :=
  Nat.mul_ne_zero hu (Nat.ne_of_gt (Nat.pow_pos (by decide)))

private theorem le_log2_mul_five_pow {u : Nat} (hu : u ≠ 0) (n : Nat) :
    n ≤ (u * Nat.pow 5 n).log2 :=
  (Nat.le_log2 (mul_five_pow_ne_zero hu n)).mpr (Nat.le_trans (Nat.pow_le_pow_left (by decide) n)
    (Nat.le_mul_of_pos_left _ (Nat.pos_of_ne_zero hu)))

/-- All digits of a magnitude read back. -/
theorem toBits_exact {bits : Nat} (hb : bits < Binary64.infinityBits) :
    (exact bits).toBits = bits := by
  have hd : 0 < (exact bits).denominator := Nat.pow_pos (by decide)
  have hu := Binary64.bitsOfUnits_unitsOfBits hb hd
  by_cases h0 : Binary64.unitsOfBits bits = 0
  · have hz : (exact bits).significand = 0 := by
      rw [exact, h0]
      exact Nat.zero_mul _
    rw [h0, Nat.zero_mul] at hu
    rw [toBits, if_pos hz, ← hu]
    simp [Binary64.bitsOfUnits, Binary64.roundQuotient]
  · have hs : (exact bits).significand ≠ 0 := mul_five_pow_ne_zero h0 _
    have hl : Binary64.unitPlaces ≤ (exact bits).significand.log2 := le_log2_mul_five_pow h0 _
    have he : (exact bits).exponent = -Binary64.unitPlaces := rfl
    have hn : (exact bits).numerator * Binary64.unitsPerOne =
        Binary64.unitsOfBits bits * (exact bits).denominator := numerator_units _ _
    rw [toBits, if_neg hs, if_neg (by omega), if_neg (by omega), hn, hu]

/-- The shortest decimal of a finite magnitude reads back. -/
theorem toBits_shortest {bits : Nat} (hb : bits < Binary64.infinityBits) :
    (shortest bits).toBits = bits := by
  unfold shortest
  split
  · next h0 => rw [h0]; rfl
  · next h0 =>
    cases hf : (List.range 17).findSome? fun (n : Nat) ↦
        onGrid? bits (leadingExponent (Binary64.unitsOfBits bits) - (n + 1)) with
    | none => simpa [hf] using toBits_exact hb
    | some d =>
      obtain ⟨n, -, hn⟩ := List.exists_of_findSome?_eq_some hf
      simpa [hf] using toBits_of_onGrid? hn

end AffineArithmetic.Decimal

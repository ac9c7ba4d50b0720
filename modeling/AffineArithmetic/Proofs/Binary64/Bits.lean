import AffineArithmetic.Binary64.Grid
import AffineArithmetic.Proofs.Binary64.Value

/-!
# Bit patterns

A binary64 number has a sign, an exponent field and a mantissa field, and numbers other than the
undefined one are made from these by packing them next to each other. So such a number is known from
its sign bit and its magnitude, and negation changes the sign bit only.
-/

namespace AffineArithmetic.Binary64

open Float.Model (UnpackedFloat Format)
open Float.Model.UnpackedFloat (Sign packComponents pack unpack)

variable {s : Sign} {e : BitVec 11} {m : BitVec 52} {x : Float}

/-! ### Fields -/

/-- The fields of a bit pattern as digits. -/
theorem toNat_packComponents (s : Sign) (e : BitVec 11) (m : BitVec 52) :
    (packComponents Format.binary64 s e m).toNat =
      s.toBitVec.toNat * 2 ^ 63 + e.toNat * 2 ^ 52 + m.toNat := by
  change ((s.toBitVec ++ e) ++ m).toNat = _
  rw [BitVec.toNat_append, BitVec.toNat_append, ← Nat.shiftLeft_add_eq_or_of_lt m.isLt,
    ← Nat.shiftLeft_add_eq_or_of_lt e.isLt, Nat.shiftLeft_eq, Nat.shiftLeft_eq]
  omega

/-- A bit pattern consists of its fields. -/
theorem exists_packComponents (b : BitVec 64) :
    ∃ s e m, b = packComponents Format.binary64 s e m := by
  have hsign : ∀ b : BitVec 1, (Sign.ofBitVec b).toBitVec = b := by decide
  refine ⟨.ofBitVec (b.extractLsb' 63 1), b.extractLsb' 52 11, b.extractLsb' 0 52, ?_⟩
  apply BitVec.eq_of_toNat_eq
  rw [toNat_packComponents, hsign, BitVec.extractLsb'_toNat, BitVec.extractLsb'_toNat,
    BitVec.extractLsb'_toNat, Nat.shiftRight_eq_div_pow, Nat.shiftRight_eq_div_pow,
    Nat.shiftRight_eq_div_pow]
  have hb : b.toNat < 2 ^ 64 := b.isLt
  omega

-- What the fields of a bit pattern stand for.
private theorem unpack_fields (s : Sign) (e : BitVec 11) (m : BitVec 52) :
    unpack Format.binary64 (packComponents Format.binary64 s e m) =
      if e = -1#11 then if m = 0#52 then .infinity s else .notANumber
      else if e = 0#11 then
        if h : m = 0#52 then .zero s
        else .finite s m.toNat (-1074) (Nat.pos_of_ne_zero fun h0 ↦ h (BitVec.eq_of_toNat_eq h0))
      else .finite s (1#1 ++ m).toNat (e.toNat - 1075) (by
        rw [toNat_one_append]
        omega) := by
  unfold unpack
  simp only [UnpackedFloat.unpackExponent_packComponents,
    UnpackedFloat.unpackMantissa_packComponents, UnpackedFloat.unpackSign_packComponents,
    Sign.ofBitVec_toBitVec]
  split
  · rfl
  split
  · next h0 =>
    split
    · rfl
    · subst h0
      rfl
  · rfl

-- A short significand is stored as it is.
private theorem pack_short (s : Sign) {m : BitVec 52} (h : 0 < m.toNat) :
    pack Format.binary64 (.finite s m.toNat (-1074) h) =
      packComponents Format.binary64 s 0#11 m := by
  have hlog : m.toNat.log2 < 52 := (Nat.log2_lt (Nat.ne_of_gt h)).mpr m.isLt
  unfold pack
  rw [if_neg (by decide), if_neg (by change ¬ m.toNat.log2 + 1 = 53; omega),
    BitVec.ofNat_toNat, BitVec.setWidth_eq]

-- The leading bit of a full significand is left out.
private theorem pack_full (s : Sign) {e : BitVec 11} {m : BitVec 52} (h1 : e ≠ -1#11)
    (h : 0 < (1#1 ++ m).toNat) :
    pack Format.binary64 (.finite s (1#1 ++ m).toNat (e.toNat - 1075) h) =
      packComponents Format.binary64 s e m := by
  have he : e.toNat < 2048 := e.isLt
  have hm : m.toNat < 2 ^ 52 := m.isLt
  have hne : e.toNat ≠ 2047 := fun hz ↦
    h1 (BitVec.eq_of_toNat_eq (hz.trans neg_one_toNat.symm))
  have hbiased : ((e.toNat - 1075 : ℤ) + 1023 + 52).toNat = e.toNat := by omega
  have hlog : (2 ^ 52 + m.toNat).log2 = 52 := by
    rw [Nat.log2_eq_iff (by omega)]
    omega
  have hlow : BitVec.ofNat 52 (2 ^ 52 + m.toNat) = m := by
    apply BitVec.eq_of_toNat_eq
    rw [BitVec.toNat_ofNat]
    omega
  unfold pack
  extract_lets digits biased
  have hb : biased = e.toNat := hbiased
  have hsmall : ¬ 2 ^ 11 ≤ biased + 1 := by omega
  have hd : digits + 1 = Format.binary64.mantissaBits := by
    change (1#1 ++ m).toNat.log2 + 1 = 53
    rw [toNat_one_append, hlog]
  rw [if_neg hsmall, if_pos hd, hb, BitVec.ofNat_toNat, BitVec.setWidth_eq, toNat_one_append]
  exact congrArg (packComponents Format.binary64 s e) hlow

/-- Packing what a bit pattern stands for gives the pattern back, but for the undefined number. -/
theorem pack_unpack (h : e = -1#11 → m = 0#52) :
    pack Format.binary64 (unpack Format.binary64 (packComponents Format.binary64 s e m)) =
      packComponents Format.binary64 s e m := by
  rw [unpack_fields]
  split
  · next h1 =>
    rw [if_pos (h h1), h1, h h1]
    rfl
  next h1 =>
  split
  · next h0 =>
    rw [h0]
    split
    · next hm0 =>
      rw [hm0]
      rfl
    · exact pack_short s _
  · exact pack_full s h1 _

/-- The opposite of what a bit pattern stands for has the opposite sign and the same fields. -/
theorem neg_unpack (s : Sign) (e : BitVec 11) (m : BitVec 52) :
    (unpack Format.binary64 (packComponents Format.binary64 s e m)).neg =
      unpack Format.binary64 (packComponents Format.binary64 (-s) e m) := by
  rw [unpack_fields, unpack_fields]
  split
  · split <;> rfl
  split
  · split <;> rfl
  · rfl

/-! ### Numbers from their fields -/

/-- The number with the given fields. -/
def ofFields (s : Sign) (e : BitVec 11) (m : BitVec 52) : Float :=
  Float.ofBits (.ofBitVec (packComponents Format.binary64 s e m))

/-- The bit pattern of a number consists of its fields. -/
theorem toBits_ofFields (h : e = -1#11 → m = 0#52) :
    (ofFields s e m).toBits.toBitVec = packComponents Format.binary64 s e m :=
  pack_unpack h

/-- The bit pattern of a number as digits. -/
theorem toNat_toBits_ofFields (h : e = -1#11 → m = 0#52) :
    (ofFields s e m).toBits.toNat = s.toBitVec.toNat * 2 ^ 63 + e.toNat * 2 ^ 52 + m.toNat :=
  (congrArg BitVec.toNat (toBits_ofFields h)).trans (toNat_packComponents s e m)

private theorem ext_bits {x y : Float} (h : x.toBits.toBitVec = y.toBits.toBitVec) : x = y := by
  obtain ⟨⟨a, ha⟩⟩ := x
  obtain ⟨⟨b, hb⟩⟩ := y
  have hab : a = b := UInt64.toBitVec_inj.mp h
  subst hab
  rfl

private theorem unpack_toModel (x : Float) {b : BitVec 64} (h : x.toBits.toBitVec = b) :
    x.toModel.unpack = unpack Format.binary64 b := congrArg (unpack Format.binary64) h

/-- Every number but the undefined one has fields. -/
theorem exists_ofFields (h : x.isNaN = false) :
    ∃ s e m, (e = -1#11 → m = 0#52) ∧ x = ofFields s e m := by
  obtain ⟨s, e, m, hb⟩ := exists_packComponents x.toBits.toBitVec
  have hem : e = -1#11 → m = 0#52 := by
    intro he
    by_contra hm
    have hn : x.isNaN = true := by
      change x.toModel.unpack.isNaN = true
      rw [unpack_toModel x hb, unpack_fields, if_pos he, if_neg hm]
      rfl
    rw [hn] at h
    contradiction
  refine ⟨s, e, m, hem, ext_bits ?_⟩
  rw [toBits_ofFields hem, hb]

/-- Negation changes the sign only. -/
theorem neg_ofFields (h : e = -1#11 → m = 0#52) : -ofFields s e m = ofFields (-s) e m := by
  change Float.ofModel (.pack (ofFields s e m).toModel.unpack.neg) = _
  rw [unpack_toModel _ (toBits_ofFields h), neg_unpack]
  rfl

/-- Negation takes itself back, also for a zero. -/
theorem neg_neg_of_not_isNaN (h : x.isNaN = false) : - -x = x := by
  obtain ⟨s, e, m, hem, rfl⟩ := exists_ofFields h
  rw [neg_ofFields hem, neg_ofFields hem]
  cases s <;> rfl

/-- The magnitude of a number is in its other fields. -/
theorem magnitudeBits_ofFields (h : e = -1#11 → m = 0#52) :
    magnitudeBits (ofFields s e m) = e.toNat * leadingBit + m.toNat := by
  have he : e.toNat < 2048 := e.isLt
  have hm : m.toNat < 2 ^ 52 := m.isLt
  rw [magnitudeBits, toNat_toBits_ofFields h, signBit, leadingBit]
  omega

/-- A number is negative if its sign is. -/
theorem isNegative_ofFields (h : e = -1#11 → m = 0#52) :
    isNegative (ofFields s e m) = decide (s.toBitVec.toNat = 1) := by
  have he : e.toNat < 2048 := e.isLt
  have hm : m.toNat < 2 ^ 52 := m.isLt
  have hs : s.toBitVec.toNat < 2 := s.toBitVec.isLt
  rw [isNegative, toNat_toBits_ofFields h, decide_eq_decide, signBit]
  omega

private theorem ofBits_magnitude (e : BitVec 11) (m : BitVec 52) :
    Float.ofBits (e.toNat * leadingBit + m.toNat).toUInt64 = ofFields .positive e m := by
  have hbits : BitVec.ofNat 64 (e.toNat * leadingBit + m.toNat) =
      packComponents Format.binary64 .positive e m := by
    have he : e.toNat < 2048 := e.isLt
    have hm : m.toNat < 2 ^ 52 := m.isLt
    apply BitVec.eq_of_toNat_eq
    rw [toNat_packComponents, BitVec.toNat_ofNat, leadingBit]
    change _ = 0 * 2 ^ 63 + _ + _
    omega
  exact congrArg (fun b ↦ Float.ofBits (.ofBitVec b)) hbits

/-- A number that is not negative has its magnitude as bit pattern. -/
theorem ofBits_magnitudeBits_of_not_isNegative (h : x.isNaN = false)
    (hs : isNegative x = false) : Float.ofBits (magnitudeBits x).toUInt64 = x := by
  obtain ⟨s, e, m, hem, rfl⟩ := exists_ofFields h
  rw [isNegative_ofFields hem] at hs
  rw [magnitudeBits_ofFields hem, ofBits_magnitude]
  cases s with
  | positive => rfl
  | negative => contradiction

/-- A negative number is the opposite of the number with its magnitude as bit pattern. -/
theorem neg_ofBits_magnitudeBits_of_isNegative (h : x.isNaN = false)
    (hs : isNegative x = true) : -Float.ofBits (magnitudeBits x).toUInt64 = x := by
  obtain ⟨s, e, m, hem, rfl⟩ := exists_ofFields h
  rw [isNegative_ofFields hem] at hs
  rw [magnitudeBits_ofFields hem, ofBits_magnitude, neg_ofFields hem]
  cases s with
  | positive => contradiction
  | negative => rfl

/-- Infinite numbers have the magnitude of infinity. -/
theorem magnitudeBits_of_isInf (h : x.isNaN = false) (hi : x.isInf = true) :
    magnitudeBits x = infinityBits := by
  obtain ⟨s, e, m, hem, rfl⟩ := exists_ofFields h
  change (ofFields s e m).toModel.unpack.isInf = true at hi
  rw [unpack_toModel _ (toBits_ofFields hem), unpack_fields] at hi
  rw [magnitudeBits_ofFields hem]
  split at hi
  · next he =>
    rw [hem he, he, neg_one_toNat]
    rfl
  split at hi
  · split at hi <;> contradiction
  · contradiction

/-- Finite numbers have magnitudes below that of infinity. -/
theorem magnitudeBits_lt_infinityBits (h : x.isNaN = false) (hi : x.isInf = false) :
    magnitudeBits x < infinityBits := by
  obtain ⟨s, e, m, hem, rfl⟩ := exists_ofFields h
  change (ofFields s e m).toModel.unpack.isInf = false at hi
  rw [unpack_toModel _ (toBits_ofFields hem), unpack_fields] at hi
  have hne : e ≠ -1#11 := by
    intro he
    rw [if_pos he, if_pos (hem he)] at hi
    contradiction
  have hnat : e.toNat ≠ 2047 := fun hz ↦
    hne (BitVec.eq_of_toNat_eq (hz.trans neg_one_toNat.symm))
  have he : e.toNat < 2048 := e.isLt
  have hm : m.toNat < 2 ^ 52 := m.isLt
  rw [magnitudeBits_ofFields hem, leadingBit, infinityBits]
  omega

end AffineArithmetic.Binary64

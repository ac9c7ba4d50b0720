import Mathlib
import AffineArithmetic.Proofs.Binary64.Rounding
import AffineArithmetic.Proofs.Scalar.Extended
import AffineArithmetic.Scalar.Binary64

/-!
# The values of binary64 numbers

The rational number, infinity or undefined number that a binary64 number stands for. Bit patterns
and unpacked numbers in canonical form determine each other up to overflow, so comparisons and the
operations without rounding can be read off the values.
-/

namespace AffineArithmetic.Binary64

open Float.Model (UnpackedFloat Format)
open Float.Model.UnpackedFloat (Sign)

/-! ### Unpacked numbers -/

/-- The number that an unpacked float stands for. -/
def unpackedValue : UnpackedFloat → Extended ℚ
  | .notANumber => .nan
  | .infinity .negative => .negInf
  | .infinity .positive => .posInf
  | .zero _ => .finite 0
  | .finite s m e _ => .finite (s.apply m * 2 ^ e)

/-- The significand has 53 binary digits, or fewer with the lowest exponent. -/
def Canonical : UnpackedFloat → Prop
  | .finite _ m e _ => m < 2 ^ 53 ∧ -1074 ≤ e ∧ (2 ^ 52 ≤ m ∨ e = -1074)
  | _ => True

/-- Infinity in place of a number whose exponent is too large for the format. -/
def overflow : UnpackedFloat → UnpackedFloat
  | .finite s m e h => if 971 < e then .infinity s else .finite s m e h
  | u => u

/-- The power of two above the finite numbers of the format. -/
@[irreducible]
def bound : ℚ := 2 ^ (1024 : ℤ)

/-- The bound of the finite numbers is a power of two. -/
theorem bound_eq : bound = 2 ^ (1024 : ℤ) := by
  unfold bound
  rfl

/-- The bound of the finite numbers is positive. -/
theorem bound_pos : 0 < bound := by
  rw [bound_eq]
  exact zpow_pos two_pos _

/-- The largest finite number of the format. -/
@[irreducible]
def largest : ℚ := (2 ^ 53 - 1) * 2 ^ (971 : ℤ)

/-- The largest finite number has 53 digits in the highest places. -/
theorem largest_eq : largest = (2 ^ 53 - 1) * 2 ^ (971 : ℤ) := by
  unfold largest
  rfl

/-- Infinity in place of a number beyond the finite ones of the format. -/
def saturate : Extended ℚ → Extended ℚ
  | .finite q => if bound ≤ q then .posInf else if q ≤ -bound then .negInf else .finite q
  | a => a

/-- Numbers within the bound are kept. -/
theorem saturate_of_abs_lt {q : ℚ} (h : |q| < bound) : saturate (.finite q) = .finite q := by
  rw [abs_lt] at h
  rw [saturate, if_neg (not_le.mpr h.2), if_neg (not_le.mpr h.1)]

/-- Numbers from the bound on become infinity. -/
theorem saturate_of_le {q : ℚ} (h : bound ≤ q) : saturate (.finite q) = .posInf := if_pos h

/-- Numbers up to the opposite bound become negative infinity. -/
theorem saturate_of_le_neg {q : ℚ} (h : q ≤ -bound) : saturate (.finite q) = .negInf := by
  have hb := bound_pos
  rw [saturate, if_neg (by linarith), if_pos h]

private theorem two_pow_mul_two_zpow (n : ℕ) (e : ℤ) : (2 : ℚ) ^ n * 2 ^ e = 2 ^ (n + e) := by
  rw [zpow_add₀ two_ne_zero, zpow_natCast]

private theorem abs_apply_mul (s : Sign) (m : ℕ) (e : ℤ) :
    |((s.apply m : ℤ) : ℚ) * 2 ^ e| = m * 2 ^ e := by
  have hp : (0 : ℚ) < 2 ^ e := zpow_pos two_pos e
  cases s <;> simp [Sign.apply, abs_mul, abs_of_pos hp]

/-- Canonical numbers overflow where their values leave the finite range of the format. -/
theorem unpackedValue_overflow {u : UnpackedFloat} (h : Canonical u) :
    unpackedValue (overflow u) = saturate (unpackedValue u) := by
  cases u with
  | notANumber => rfl
  | infinity s => cases s <;> rfl
  | zero s => exact (saturate_of_abs_lt (by simpa using bound_pos)).symm
  | finite s m e hm =>
    obtain ⟨hlt, he, hn⟩ := h
    have hp : (0 : ℚ) < 2 ^ e := zpow_pos two_pos e
    by_cases hbig : 971 < e
    · -- the significand is a full one, so the value is at least `2 ^ 52 * 2 ^ 972`
      have hle : bound ≤ m * 2 ^ e := by
        have hm52 : (2 : ℚ) ^ 52 ≤ m := by exact_mod_cast hn.resolve_right (by omega)
        calc bound = 2 ^ 52 * 2 ^ (972 : ℤ) := bound_eq.trans (two_pow_mul_two_zpow 52 972).symm
          _ ≤ 2 ^ 52 * 2 ^ e :=
            mul_le_mul_of_nonneg_left (zpow_le_zpow_right₀ one_le_two (by omega)) (by positivity)
          _ ≤ m * 2 ^ e := mul_le_mul_of_nonneg_right hm52 hp.le
      rw [overflow, if_pos hbig]
      cases s with
      | positive => exact (saturate_of_le (by simpa [Sign.apply] using hle)).symm
      | negative => exact (saturate_of_le_neg (by simpa [Sign.apply] using hle)).symm
    · have hlt' : (m : ℚ) * 2 ^ e < bound := by
        have hm53 : (m : ℚ) < 2 ^ 53 := by exact_mod_cast hlt
        calc (m : ℚ) * 2 ^ e < 2 ^ 53 * 2 ^ e := mul_lt_mul_of_pos_right hm53 hp
          _ ≤ 2 ^ 53 * 2 ^ (971 : ℤ) :=
            mul_le_mul_of_nonneg_left (zpow_le_zpow_right₀ one_le_two (by omega)) (by positivity)
          _ = bound := (two_pow_mul_two_zpow 53 971).trans bound_eq.symm
      rw [overflow, if_neg hbig]
      exact (saturate_of_abs_lt (by rwa [abs_apply_mul])).symm

/-! ### Packing -/

/-- The largest exponent field. -/
theorem neg_one_toNat : (-1#11 : BitVec 11).toNat = 2047 := by decide

/-- The significand of a mantissa field with its leading bit. -/
theorem toNat_one_append (v : BitVec 52) : (1#1 ++ v).toNat = 2 ^ 52 + v.toNat := by
  rw [BitVec.toNat_append, ← Nat.shiftLeft_add_eq_or_of_lt v.isLt]
  rfl

private theorem canonical_unpack_bits (b : BitVec 64) :
    Canonical (UnpackedFloat.unpack Format.binary64 b) ∧
      overflow (UnpackedFloat.unpack Format.binary64 b) =
        UnpackedFloat.unpack Format.binary64 b := by
  unfold UnpackedFloat.unpack
  extract_lets mantissaVec exponentVec exponent signVec sign
  have hm : mantissaVec.toNat < 2 ^ 52 := mantissaVec.isLt
  have he : exponentVec.toNat < 2048 := exponentVec.isLt
  have hx : exponent = exponentVec.toNat - 1075 := rfl
  split
  · split <;> exact ⟨trivial, rfl⟩
  · next h1 =>
    have hne : exponentVec.toNat ≠ 2047 := fun h ↦
      h1 (BitVec.eq_of_toNat_eq (h.trans neg_one_toNat.symm))
    split
    · next h0 =>
      split
      · exact ⟨trivial, rfl⟩
      · have hz : exponentVec.toNat = 0 := congrArg BitVec.toNat h0
        exact ⟨⟨by omega, by omega, .inr (by omega)⟩, if_neg (by omega)⟩
    · next h0 =>
      have hpos : exponentVec.toNat ≠ 0 := fun h ↦ h0 (BitVec.eq_of_toNat_eq h)
      have hmant : (1#1 ++ mantissaVec).toNat = 2 ^ 52 + mantissaVec.toNat := toNat_one_append _
      exact ⟨⟨by omega, by omega, .inl (by omega)⟩, if_neg (by omega)⟩

/-- Bit patterns stand for canonical numbers. -/
theorem canonical_unpack (x : Float.Model) : Canonical x.unpack :=
  (canonical_unpack_bits _).1

/-- Bit patterns stand for numbers that do not overflow. -/
theorem overflow_unpack (x : Float.Model) : overflow x.unpack = x.unpack :=
  (canonical_unpack_bits _).2

private theorem unpack_packComponents_normal (s : Sign) (x : ℕ) (m : ℕ) (hm : 0 < m)
    (hx : x < 2046) (hl : 2 ^ 52 ≤ m) (hu : m < 2 ^ 53) :
    UnpackedFloat.unpack Format.binary64
      (UnpackedFloat.packComponents Format.binary64 s (BitVec.ofNat 11 (x + 1))
        (BitVec.ofNat 52 m)) = .finite s m (x - 1074) hm := by
  have hxn : (BitVec.ofNat 11 (x + 1)).toNat = x + 1 := by
    rw [BitVec.toNat_ofNat, Nat.mod_eq_of_lt (by omega)]
  have hmant : (1#1 ++ BitVec.ofNat 52 m).toNat = m := by
    rw [toNat_one_append, BitVec.toNat_ofNat]
    omega
  have h1 : BitVec.ofNat 11 (x + 1) ≠ -1#11 := fun h ↦ by
    have := congrArg BitVec.toNat h
    rw [hxn, neg_one_toNat] at this
    omega
  have h0 : BitVec.ofNat 11 (x + 1) ≠ 0#11 := fun h ↦ by
    have : x + 1 = 0 := hxn.symm.trans (congrArg BitVec.toNat h)
    omega
  unfold UnpackedFloat.unpack
  simp only [UnpackedFloat.unpackExponent_packComponents,
    UnpackedFloat.unpackMantissa_packComponents, UnpackedFloat.unpackSign_packComponents,
    Sign.ofBitVec_toBitVec]
  rw [if_neg h1, if_neg h0]
  congr 1
  rw [hxn]
  change ((x + 1 : ℕ) : ℤ) - 1075 = _
  omega

private theorem unpack_packComponents_subnormal (s : Sign) (m : ℕ) (hm : 0 < m)
    (hu : m < 2 ^ 52) :
    UnpackedFloat.unpack Format.binary64
      (UnpackedFloat.packComponents Format.binary64 s 0#11 (BitVec.ofNat 52 m)) =
        .finite s m (-1074) hm := by
  have hmn : (BitVec.ofNat 52 m).toNat = m := by
    rw [BitVec.toNat_ofNat, Nat.mod_eq_of_lt hu]
  have h0 : BitVec.ofNat 52 m ≠ 0#52 := fun h ↦ by
    have : m = 0 := hmn.symm.trans (congrArg BitVec.toNat h)
    omega
  unfold UnpackedFloat.unpack
  simp only [UnpackedFloat.unpackExponent_packComponents,
    UnpackedFloat.unpackMantissa_packComponents, UnpackedFloat.unpackSign_packComponents,
    Sign.ofBitVec_toBitVec]
  rw [if_neg (by decide), if_pos trivial, dif_neg h0]
  congr 1

/-- Packing a canonical number loses nothing but numbers that overflow. -/
theorem unpack_pack {u : UnpackedFloat} (h : Canonical u) :
    (Float.Model.pack u).unpack = overflow u := by
  change UnpackedFloat.unpack Format.binary64 (UnpackedFloat.pack Format.binary64 u) = _
  cases u with
  | notANumber => rfl
  | infinity s => cases s <;> rfl
  | zero s => cases s <;> rfl
  | finite s m e hm =>
    obtain ⟨hlt, he, hn⟩ := h
    unfold UnpackedFloat.pack
    extract_lets digits biased
    have hb : biased = (e + 1075).toNat := by
      change (e + 1023 + 52).toNat = _
      rw [add_assoc]
      rfl
    by_cases hbig : 971 < e
    · rw [if_pos (by change 2 ^ 11 ≤ biased + 1; omega), overflow, if_pos hbig]
      cases s <;> rfl
    rw [if_neg (by change ¬ 2 ^ 11 ≤ biased + 1; omega), overflow, if_neg hbig]
    by_cases hd : digits + 1 = Format.binary64.mantissaBits
    · have hl : 2 ^ 52 ≤ m := (Nat.le_log2 hm.ne').mp (Nat.succ.inj hd).ge
      obtain ⟨x, hx⟩ : ∃ x : ℕ, e = x - 1074 := ⟨(e + 1074).toNat, by omega⟩
      have hbx : biased = x + 1 := by omega
      rw [if_pos hd, hbx]
      subst hx
      exact unpack_packComponents_normal s x m hm (by omega) hl hlt
    · have hu : m < 2 ^ 52 := by
        have hle := (Nat.log2_lt hm.ne').mpr hlt
        have hne : m.log2 ≠ 52 := fun h ↦ hd (congrArg (· + 1) h)
        exact (Nat.log2_lt hm.ne').mp (by omega)
      have hx : e = -1074 := hn.resolve_left (by omega)
      subst hx
      rw [if_neg hd]
      exact unpack_packComponents_subnormal s m hm hu

/-! ### Comparison -/

-- How two numbers compare, unless one of them is undefined.
private def order : Extended ℚ → Extended ℚ → Option Ordering
  | .nan, _ => none
  | _, .nan => none
  | .negInf, .negInf => some .eq
  | .negInf, _ => some .lt
  | _, .negInf => some .gt
  | .posInf, .posInf => some .eq
  | .posInf, _ => some .gt
  | _, .posInf => some .lt
  | .finite x, .finite y => some (compare x y)

private theorem any_order (a b : Extended ℚ) :
    (order a b).any (·.isLE) = true ↔ a ≤ b := by
  cases a <;> cases b <;> simp [order, ← Ordering.ne_gt_iff_isLE, ← compare_le_iff_le]

private theorem order_eq_lt (a b : Extended ℚ) : order a b = some .lt ↔ a < b := by
  rw [Extended.lt_iff]
  cases a <;> cases b <;> simp [order, compare_lt_iff_lt]
  exact le_of_lt

private theorem order_eq_eq (a b : Extended ℚ) :
    order a b = some .eq ↔ a = b ∧ a ≠ .nan := by
  cases a <;> cases b <;> simp [order]

private theorem magnitude_lt {m n : ℕ} {e f : ℤ} (hm : m < 2 ^ 53) (hn : 2 ^ 52 ≤ n)
    (h : e < f) : (m : ℚ) * 2 ^ e < n * 2 ^ f := by
  have hp : (0 : ℚ) < 2 ^ e := zpow_pos two_pos e
  have hm' : (m : ℚ) < 2 ^ 53 := by exact_mod_cast hm
  have hn' : (2 : ℚ) ^ 52 ≤ n := by exact_mod_cast hn
  have hf : (2 : ℚ) ^ (1 : ℕ) * 2 ^ e ≤ 2 ^ f := by
    rw [two_pow_mul_two_zpow]
    exact zpow_le_zpow_right₀ one_le_two (by omega)
  calc (m : ℚ) * 2 ^ e < 2 ^ 53 * 2 ^ e := mul_lt_mul_of_pos_right hm' hp
    _ = 2 ^ 52 * (2 ^ (1 : ℕ) * 2 ^ e) := by ring
    _ ≤ n * 2 ^ f := mul_le_mul hn' hf (by positivity) (by positivity)

-- Canonical magnitudes compare by the exponent first.
private theorem compare_magnitude {m n : ℕ} {e f : ℤ}
    (hm : m < 2 ^ 53 ∧ -1074 ≤ e ∧ (2 ^ 52 ≤ m ∨ e = -1074))
    (hn : n < 2 ^ 53 ∧ -1074 ≤ f ∧ (2 ^ 52 ≤ n ∨ f = -1074)) :
    (compare e f).then (compare m n) = compare ((m : ℚ) * 2 ^ e) (n * 2 ^ f) := by
  rcases lt_trichotomy e f with h | rfl | h
  · have hlt := magnitude_lt hm.1 (hn.2.2.resolve_right (by omega)) h
    rw [compare_lt_iff_lt.mpr h, compare_lt_iff_lt.mpr hlt]
    rfl
  · have hp : (0 : ℚ) < 2 ^ e := zpow_pos two_pos e
    rw [compare_eq_iff_eq.mpr rfl]
    change compare m n = _
    rcases lt_trichotomy m n with h | rfl | h
    · rw [compare_lt_iff_lt.mpr h, eq_comm, compare_lt_iff_lt]
      exact mul_lt_mul_of_pos_right (by exact_mod_cast h) hp
    · rw [compare_eq_iff_eq.mpr rfl, eq_comm, compare_eq_iff_eq]
    · rw [compare_gt_iff_gt.mpr h, eq_comm, compare_gt_iff_gt]
      exact mul_lt_mul_of_pos_right (by exact_mod_cast h) hp
  · have hlt := magnitude_lt hn.1 (hm.2.2.resolve_right (by omega)) h
    rw [compare_gt_iff_gt.mpr h, compare_gt_iff_gt.mpr hlt]
    rfl

/-- The value of a positive number. -/
theorem unpackedValue_positive (m : ℕ) (e : ℤ) (h : 0 < m) :
    unpackedValue (.finite .positive m e h) = .finite (m * 2 ^ e) := by
  simp [unpackedValue, Sign.apply]

/-- The value of a negative number. -/
theorem unpackedValue_negative (m : ℕ) (e : ℤ) (h : 0 < m) :
    unpackedValue (.finite .negative m e h) = .finite (-(m * 2 ^ e)) := by
  simp [unpackedValue, Sign.apply]

/-- Magnitudes are positive. -/
theorem magnitude_pos {m : ℕ} (h : 0 < m) (e : ℤ) : (0 : ℚ) < m * 2 ^ e := by
  have hm : (0 : ℚ) < m := by exact_mod_cast h
  exact mul_pos hm (zpow_pos two_pos e)

private theorem compare_unpacked {a b : UnpackedFloat} (ha : Canonical a) (hb : Canonical b) :
    a.compare b = order (unpackedValue a) (unpackedValue b) := by
  cases a with
  | notANumber => rfl
  | infinity s => cases b <;> cases s <;> first | rfl | (next t => cases t <;> rfl)
  | zero s =>
    cases b with
    | notANumber => rfl
    | infinity t => cases t <;> rfl
    | zero t => simp [UnpackedFloat.compare, unpackedValue, order]
    | finite t n f hn =>
      have hp := magnitude_pos hn f
      cases t with
      | positive =>
        rw [unpackedValue_positive]
        exact congrArg some (compare_lt_iff_lt.mpr hp).symm
      | negative =>
        rw [unpackedValue_negative]
        exact congrArg some (compare_gt_iff_gt.mpr (neg_neg_of_pos hp)).symm
  | finite s m e hm =>
    have hp := magnitude_pos hm e
    cases b with
    | notANumber => rfl
    | infinity t => cases s <;> cases t <;> rfl
    | zero t =>
      cases s with
      | positive =>
        rw [unpackedValue_positive]
        exact congrArg some (compare_gt_iff_gt.mpr hp).symm
      | negative =>
        rw [unpackedValue_negative]
        exact congrArg some (compare_lt_iff_lt.mpr (neg_neg_of_pos hp)).symm
    | finite t n f hn =>
      have hp' := magnitude_pos hn f
      have hc := compare_magnitude ha hb
      cases s with
      | positive =>
        rw [unpackedValue_positive]
        cases t with
        | positive =>
          rw [unpackedValue_positive]
          exact congrArg some hc
        | negative =>
          rw [unpackedValue_negative]
          exact congrArg some (compare_gt_iff_gt.mpr (by linarith)).symm
      | negative =>
        rw [unpackedValue_negative]
        cases t with
        | positive =>
          rw [unpackedValue_positive]
          exact congrArg some (compare_lt_iff_lt.mpr (by linarith)).symm
        | negative =>
          rw [unpackedValue_negative]
          refine congrArg some ((congrArg Ordering.swap hc).trans ?_)
          rcases lt_trichotomy ((m : ℚ) * 2 ^ e) (n * 2 ^ f) with h | h | h
          · rw [compare_lt_iff_lt.mpr h, eq_comm]
            exact compare_gt_iff_gt.mpr (neg_lt_neg h)
          · rw [h, compare_eq_iff_eq.mpr rfl, compare_eq_iff_eq.mpr rfl]
            rfl
          · rw [compare_gt_iff_gt.mpr h, eq_comm]
            exact compare_lt_iff_lt.mpr (neg_lt_neg h)

/-! ### Binary64 numbers -/

/-- The number that a binary64 number stands for. -/
def value (x : Float) : Extended ℚ := unpackedValue x.toModel.unpack

variable {x y : Float}

/-- Binary64 numbers are in order as their values are. -/
theorem le_iff : x ≤ y ↔ value x ≤ value y := by
  change decide (x.toModel ≤ y.toModel) = true ↔ _
  rw [decide_eq_true_iff]
  change (x.toModel.unpack.compare y.toModel.unpack).any (·.isLE) = true ↔ _
  rw [compare_unpacked (canonical_unpack _) (canonical_unpack _)]
  exact any_order _ _

/-- Binary64 numbers are in strict order as their values are. -/
theorem lt_iff : x < y ↔ value x < value y := by
  change decide (x.toModel < y.toModel) = true ↔ _
  rw [decide_eq_true_iff]
  change (x.toModel.unpack.compare y.toModel.unpack == some .lt) = true ↔ _
  rw [compare_unpacked (canonical_unpack _) (canonical_unpack _), beq_iff_eq]
  exact order_eq_lt _ _

/-- Binary64 numbers are equal as scalars if they have the same value, and one at all. -/
theorem beq_iff : (x == y) = true ↔ value x = value y ∧ value x ≠ .nan := by
  change (x.toModel.unpack.compare y.toModel.unpack == some .eq) = true ↔ _
  rw [compare_unpacked (canonical_unpack _) (canonical_unpack _), beq_iff_eq]
  exact order_eq_eq _ _

/-- The finite binary64 numbers are those with a rational value. -/
theorem isFinite_iff : x.isFinite = true ↔ ∃ q, value x = .finite q := by
  change x.toModel.unpack.isFinite = true ↔ ∃ q, unpackedValue x.toModel.unpack = .finite q
  generalize x.toModel.unpack = u
  cases u with
  | notANumber => simp [UnpackedFloat.isFinite, unpackedValue]
  | infinity s => cases s <;> simp [UnpackedFloat.isFinite, unpackedValue]
  | zero s => simp [UnpackedFloat.isFinite, unpackedValue]
  | finite s m e h => simp [UnpackedFloat.isFinite, unpackedValue]

/-- The undefined binary64 number is the one with an undefined value. -/
theorem isNaN_iff : x.isNaN = true ↔ value x = .nan := by
  change x.toModel.unpack.isNaN = true ↔ unpackedValue x.toModel.unpack = .nan
  generalize x.toModel.unpack = u
  cases u with
  | notANumber => simp [UnpackedFloat.isNaN, unpackedValue]
  | infinity s => cases s <;> simp [UnpackedFloat.isNaN, unpackedValue]
  | zero s => simp [UnpackedFloat.isNaN, unpackedValue]
  | finite s m e h => simp [UnpackedFloat.isNaN, unpackedValue]

/-- Finite binary64 numbers are not undefined. -/
theorem isNaN_of_isFinite (h : x.isFinite = true) : x.isNaN = false := by
  obtain ⟨q, hq⟩ := isFinite_iff.mp h
  rw [← Bool.not_eq_true, isNaN_iff, hq]
  simp

/-- The value of a packed number is that of the unpacked one, as far as it does not overflow. -/
theorem value_ofModel_pack {u : UnpackedFloat} (h : Canonical u) :
    value (.ofModel (.pack u)) = saturate (unpackedValue u) := by
  rw [value, unpack_pack h, unpackedValue_overflow h]

/-- Values do not overflow. -/
@[simp] theorem saturate_value (x : Float) : saturate (value x) = value x := by
  rw [value, ← unpackedValue_overflow (canonical_unpack _), overflow_unpack]

/-- Rational values are within the bound. -/
theorem abs_lt_bound_of_value {q : ℚ} (h : value x = .finite q) : |q| < bound := by
  have hs := saturate_value x
  rw [h, saturate] at hs
  rw [abs_lt]
  by_cases h1 : bound ≤ q
  · rw [if_pos h1] at hs
    contradiction
  rw [if_neg h1] at hs
  by_cases h2 : q ≤ -bound
  · rw [if_pos h2] at hs
    contradiction
  · exact ⟨not_le.mp h2, not_le.mp h1⟩

/-- Rational values are at most the largest finite number. -/
theorem abs_le_largest_of_value {q : ℚ} (h : value x = .finite q) : |q| ≤ largest := by
  have hc := canonical_unpack x.toModel
  have ho := overflow_unpack x.toModel
  have hl : (0 : ℚ) ≤ (2 ^ 53 - 1) * 2 ^ (971 : ℤ) :=
    mul_nonneg (by norm_num) (zpow_pos two_pos _).le
  unfold value at h
  rw [largest_eq]
  generalize x.toModel.unpack = u at h hc ho
  cases u with
  | notANumber => contradiction
  | infinity s => cases s <;> contradiction
  | zero s =>
    obtain rfl := Extended.finite.inj h
    rwa [abs_zero]
  | finite s m e hm =>
    obtain rfl := Extended.finite.inj h
    have he : e ≤ 971 := by
      by_contra hgt
      rw [overflow, if_pos (not_le.mp hgt)] at ho
      contradiction
    have hm' : (m : ℚ) ≤ 2 ^ 53 - 1 := by
      have : m + 1 ≤ 2 ^ 53 := hc.1
      have : (m : ℚ) + 1 ≤ 2 ^ 53 := by exact_mod_cast this
      linarith
    rw [abs_apply_mul]
    exact mul_le_mul hm' (zpow_le_zpow_right₀ one_le_two he) (zpow_pos two_pos _).le (by norm_num)

/-- Rational values of canonical numbers are on the grid. -/
theorem Canonical.onGrid {u : UnpackedFloat} (hc : Canonical u) {q : ℚ}
    (h : unpackedValue u = .finite q) : OnGrid q := by
  cases u with
  | notANumber => contradiction
  | infinity s => cases s <;> contradiction
  | zero s =>
    obtain rfl := Extended.finite.inj h
    exact ⟨0, 0, by norm_num, by norm_num, by norm_num⟩
  | finite s m e hm =>
    obtain rfl := Extended.finite.inj h
    refine ⟨s.apply m, e, ?_, hc.2.1, rfl⟩
    have hm' : |s.apply m| = (m : ℤ) := by cases s <;> simp [Sign.apply]
    rw [hm']
    exact_mod_cast hc.1

/-- Rational values are on the grid. -/
theorem onGrid_of_value {q : ℚ} (h : value x = .finite q) : OnGrid q :=
  (canonical_unpack _).onGrid h

/-- The opposite of a canonical number is canonical. -/
theorem Canonical.neg {u : UnpackedFloat} (h : Canonical u) : Canonical u.neg := by
  cases u <;> exact h

/-- The absolute value of a canonical number is canonical. -/
theorem Canonical.abs {u : UnpackedFloat} (h : Canonical u) : Canonical u.abs := by
  cases u <;> exact h

/-- The opposite of an unpacked number stands for the opposite number. -/
theorem unpackedValue_neg (u : UnpackedFloat) : unpackedValue u.neg = -unpackedValue u := by
  cases u with
  | notANumber => rfl
  | infinity s => cases s <;> rfl
  | zero s => exact congrArg Extended.finite neg_zero.symm
  | finite s m e h =>
    cases s with
    | positive =>
      rw [unpackedValue_positive]
      exact unpackedValue_negative m e h
    | negative =>
      rw [unpackedValue_negative, Extended.neg_finite, neg_neg]
      exact unpackedValue_positive m e h

/-- The absolute value of an unpacked number stands for the absolute value. -/
theorem unpackedValue_abs (u : UnpackedFloat) :
    unpackedValue u.abs = (unpackedValue u).abs := by
  cases u with
  | notANumber => rfl
  | infinity s => cases s <;> rfl
  | zero s => exact congrArg Extended.finite abs_zero.symm
  | finite s m e h =>
    have hp := magnitude_pos h e
    cases s with
    | positive =>
      rw [unpackedValue_positive, Extended.abs, abs_of_pos hp]
      exact unpackedValue_positive m e h
    | negative =>
      rw [unpackedValue_negative, Extended.abs, abs_neg, abs_of_pos hp]
      exact unpackedValue_positive m e h

/-- Negation is exact. -/
@[simp] theorem value_neg (x : Float) : value (-x) = -value x := by
  change value (.ofModel (.pack x.toModel.unpack.neg)) = _
  rw [value_ofModel_pack (canonical_unpack _).neg, unpackedValue_neg]
  change saturate (-value x) = -value x
  cases hx : value x with
  | finite q => exact saturate_of_abs_lt (by rw [abs_neg]; exact abs_lt_bound_of_value hx)
  | _ => rfl

/-- Absolute values are exact. -/
@[simp] theorem value_abs (x : Float) : value x.abs = (value x).abs := by
  change value (.ofModel (.pack x.toModel.unpack.abs)) = _
  rw [value_ofModel_pack (canonical_unpack _).abs, unpackedValue_abs]
  change saturate (value x).abs = (value x).abs
  cases hx : value x with
  | finite q => exact saturate_of_abs_lt (by rw [abs_abs]; exact abs_lt_bound_of_value hx)
  | _ => rfl

end AffineArithmetic.Binary64

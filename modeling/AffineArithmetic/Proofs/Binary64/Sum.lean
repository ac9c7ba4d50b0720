import AffineArithmetic.Linear.Product
import AffineArithmetic.Proofs.Binary64.Scalar

/-!
# Rounded sums of products

The rounded sum of the absolute products of two lists is at most the rounded product of their
rounded absolute sums, for lists of any length and entries of any size. Every step rounds twice in
the sum and three times in the product, each time in either direction. What makes up for the errors
are the cross terms of the product: either one of the two numbers that are added absorbs the other,
or the cross terms are large beside both.
-/

namespace AffineArithmetic.Binary64

open Scalar

/-! ### One step on rational numbers -/

private theorem nearest_add_ge {v w : ℚ} (hv : OnGrid v) (hw : OnGrid w) (hv0 : 0 ≤ v)
    (hw0 : 0 ≤ w) : (1 - 1 / 2 ^ 53) * (v + w) ≤ nearest (v + w) := by
  have h := abs_nearest_add_sub_le hv hw
  rw [abs_of_nonneg (add_nonneg hv0 hw0), abs_le] at h
  linarith

private theorem nearest_le_add {a : ℚ} (h : 0 ≤ a) :
    nearest a ≤ a + a / 2 ^ 53 + 2 ^ (-1074 : ℤ) / 2 := by
  have he := abs_nearest_sub_le_add a
  rw [abs_of_nonneg h, abs_le] at he
  linarith

-- A positive number of the grid is a unit at least, so it was not rounded up from less than half.
private theorem nearest_le_two_mul {a : ℚ} (h : 0 ≤ a) : nearest a ≤ 2 * a := by
  obtain ⟨n, hn⟩ := (onGrid_nearest a).exists_eq_mul
  have he := abs_nearest_sub_le_max a
  rw [abs_of_nonneg h, abs_le, hn] at he
  have hp : (0 : ℚ) < 2 ^ (-1074 : ℤ) := zpow_pos two_pos _
  rw [hn]
  generalize (2 : ℚ) ^ (-1074 : ℤ) = p at hp he
  by_cases h0 : n ≤ 0
  · have : (n : ℚ) * p ≤ 0 := mul_nonpos_of_nonpos_of_nonneg (by exact_mod_cast h0) hp.le
    linarith
  · have h1 : (1 : ℚ) ≤ n := by exact_mod_cast Int.not_le.mp h0
    have h1' : p ≤ n * p := le_mul_of_one_le_left hp.le h1
    rcases max_cases (a / 2 ^ 53) (1 / 2 * p) with ⟨hm, -⟩ | ⟨hm, -⟩ <;> rw [hm] at he <;> linarith

private theorem le_nearest_of_lt {v w : ℚ} (hw : OnGrid w) (h : w - 2 ^ (-1074 : ℤ) / 2 < v) :
    w ≤ nearest v := by
  have he := abs_nearest_sub_le (q := v) hw
  obtain ⟨m, hm⟩ := hw.exists_eq_mul
  obtain ⟨n, hn⟩ := (onGrid_nearest v).exists_eq_mul
  by_cases hv : w ≤ v
  · exact hw.le_nearest hv
  · rw [not_le] at hv
    rw [abs_of_pos (sub_pos.mpr hv), abs_le] at he
    have hp : (0 : ℚ) < 2 ^ (-1074 : ℤ) := zpow_pos two_pos _
    have hlt : ((m - 1 : ℤ) : ℚ) * 2 ^ (-1074 : ℤ) < n * 2 ^ (-1074 : ℤ) := by
      rw [← hn, Int.cast_sub, sub_mul, ← hm, Int.cast_one, one_mul]
      linarith
    have hz : m - 1 < n := by exact_mod_cast lt_of_mul_lt_mul_right hlt hp.le
    have hle : (m : ℚ) ≤ n := by exact_mod_cast Int.sub_one_lt_iff.mp hz
    rw [hm, hn]
    exact mul_le_mul_of_nonneg_right hle hp.le

-- The cross terms `c` are at least the geometric mean of both summands. That exceeds all rounding
-- errors, since neither summand is negligible beside the other.
private theorem add_le_of_cross {a b c t q p : ℚ} (hp : 0 < p) (hc : 0 ≤ c)
    (ht : t ≤ a + a / 2 ^ 53 + p / 2) (hq : q ≤ b + b / 2 ^ 53 + p / 2) (hm : t * q ≤ c ^ 2)
    (ht0 : 0 < t) (hq0 : 0 < q) (htq : t < q * 2 ^ 54) (hqt : q < t * 2 ^ 54)
    (h2 : 2 * p ^ 2 ≤ t * q) : t + q ≤ (1 - 1 / 2 ^ 53) ^ 2 * (a + b + c) := by
  have hcp : 7 / 5 * p ≤ c := by
    refine (sq_le_sq₀ (by positivity) hc).mp ?_
    calc (7 / 5 * p) ^ 2 = 49 / 25 * p ^ 2 := by ring
      _ ≤ 2 * p ^ 2 := mul_le_mul_of_nonneg_right (by norm_num) (sq_nonneg p)
      _ ≤ c ^ 2 := h2.trans hm
  have hcs : t + q ≤ 2 ^ 28 * c := by
    refine (sq_le_sq₀ (by positivity) (by positivity)).mp ?_
    have htt : t * t ≤ t * (q * 2 ^ 54) := mul_le_mul_of_nonneg_left htq.le ht0.le
    have hqq : q * q ≤ q * (t * 2 ^ 54) := mul_le_mul_of_nonneg_left hqt.le hq0.le
    calc (t + q) ^ 2 = t * t + q * q + 2 * (t * q) := by ring
      _ ≤ 2 ^ 56 * (t * q) := by linarith [mul_pos ht0 hq0]
      _ ≤ 2 ^ 56 * c ^ 2 := mul_le_mul_of_nonneg_left hm (by norm_num)
      _ = (2 ^ 28 * c) ^ 2 := by ring
  linarith

-- Two units are the only sum that the rounding errors can reach; half a unit below it will do.
private theorem half_unit_lt_of_cross {s c p : ℚ} (hp : 0 < p) (hc : p ≤ c)
    (hs : 2 * p ≤ s + s / 2 ^ 53 + p) : 2 * p - p / 2 < (1 - 1 / 2 ^ 53) ^ 2 * (s + c) := by
  linarith

private theorem le_nearest_add_left {v w : ℚ} (hv : OnGrid v) (hw : 0 ≤ w) :
    v ≤ nearest (v + w) :=
  hv.le_nearest (le_add_of_nonneg_right hw)

private theorem exists_natCast_mul {t : ℚ} (ht : OnGrid t) (h : 0 < t) :
    ∃ n : ℤ, 1 ≤ n ∧ t = n * 2 ^ (-1074 : ℤ) := by
  obtain ⟨n, hn⟩ := ht.exists_eq_mul
  refine ⟨n, ?_, hn⟩
  rw [hn] at h
  have hp : (0 : ℚ) < 2 ^ (-1074 : ℤ) := zpow_pos two_pos _
  have hn0 : (0 : ℚ) < n := (mul_pos_iff_of_pos_right hp).mp h
  exact_mod_cast hn0

-- The rounded sum of two summands of which neither absorbs the other, up to the cross terms `c`.
private theorem nearest_add_le_of_cross {a b c s t q : ℚ} (ht : OnGrid t) (hq : OnGrid q)
    (ht0 : 0 < t) (hq0 : 0 < q) (hc : 0 ≤ c) (hta : t ≤ a + a / 2 ^ 53 + 2 ^ (-1074 : ℤ) / 2)
    (hqb : q ≤ b + b / 2 ^ 53 + 2 ^ (-1074 : ℤ) / 2) (hm : t * q ≤ c ^ 2)
    (htq : t < q * 2 ^ 54) (hqt : q < t * 2 ^ 54)
    (hs : (1 - 1 / 2 ^ 53) ^ 2 * (a + b + c) ≤ s) : nearest (t + q) ≤ nearest s := by
  have hp : (0 : ℚ) < 2 ^ (-1074 : ℤ) := zpow_pos two_pos _
  obtain ⟨m, hm1, hmt⟩ := exists_natCast_mul ht ht0
  obtain ⟨n, hn1, hnq⟩ := exists_natCast_mul hq hq0
  by_cases hmn : m * n = 1
  · -- both summands are one unit, and so is the least size of the cross terms
    obtain rfl : m = 1 := by nlinarith
    obtain rfl : n = 1 := by omega
    rw [Int.cast_one, one_mul] at hmt hnq
    have hcp : (2 : ℚ) ^ (-1074 : ℤ) ≤ c := by
      refine (sq_le_sq₀ hp.le hc).mp ?_
      rwa [hnq, hmt, ← sq] at hm
    have hgrid : OnGrid (t + q) :=
      ⟨2, -1074, by norm_num, le_rfl, by rw [hmt, hnq, Int.cast_ofNat, two_mul]⟩
    rw [nearest_of_onGrid hgrid]
    refine le_nearest_of_lt hgrid (lt_of_lt_of_le ?_ hs)
    rw [hnq, hmt, ← two_mul]
    exact half_unit_lt_of_cross hp hcp (by linarith)
  · have hmn1 : 1 ≤ m * n := by nlinarith
    have hmn2 : (2 : ℚ) ≤ m * n := by exact_mod_cast (show 2 ≤ m * n by omega)
    have h2 : 2 * (2 ^ (-1074 : ℤ)) ^ 2 ≤ t * q := by
      calc 2 * (2 ^ (-1074 : ℤ)) ^ 2 ≤ (m * n : ℚ) * (2 ^ (-1074 : ℤ)) ^ 2 :=
            mul_le_mul_of_nonneg_right hmn2 (sq_nonneg _)
        _ = t * q := by
          rw [hmt, hnq]
          ring
    exact nearest_mono ((add_le_of_cross hp hc hta hqb hm ht0 hq0 htq hqt h2).trans hs)

-- A part of each factor makes a part of the product.
private theorem nearest_mul_le {v w x y : ℚ} (hv : OnGrid v) (hw : OnGrid w) (hv0 : 0 ≤ v)
    (hw0 : 0 ≤ w) (hx0 : 0 ≤ x) (hy0 : 0 ≤ y) :
    nearest (v * w) ≤ nearest (nearest (v + x) * nearest (w + y)) := by
  have hvx := le_nearest_add_left hv hx0
  exact nearest_mono (mul_le_mul hvx (le_nearest_add_left hw hy0) hw0 (hv0.trans hvx))

/-- A rounded sum stays below the rounded product as one product is added to it and the factors are
added to those of the product. -/
theorem nearest_add_le_nearest_mul {v w x y t : ℚ} (hv : OnGrid v) (hw : OnGrid w)
    (hx : OnGrid x) (hy : OnGrid y) (ht : OnGrid t) (hv0 : 0 ≤ v) (hw0 : 0 ≤ w) (hx0 : 0 ≤ x)
    (hy0 : 0 ≤ y) (ht0 : 0 ≤ t) (h : t ≤ nearest (v * w)) :
    nearest (t + nearest (x * y)) ≤ nearest (nearest (v + x) * nearest (w + y)) := by
  have hvw0 : 0 ≤ v * w := mul_nonneg hv0 hw0
  have hxy0 : 0 ≤ x * y := mul_nonneg hx0 hy0
  have hq0 : 0 ≤ nearest (x * y) := nearest_nonneg hxy0
  have hq := onGrid_nearest (x * y)
  by_cases hqt : nearest (x * y) * 2 ^ 54 ≤ t
  · -- the sum absorbs the product
    calc nearest (t + nearest (x * y)) ≤ t := nearest_add_le ht ht0 hq0 hqt
      _ ≤ nearest (v * w) := h
      _ ≤ nearest (nearest (v + x) * nearest (w + y)) := nearest_mul_le hv hw hv0 hw0 hx0 hy0
  by_cases htq : t * 2 ^ 54 ≤ nearest (x * y)
  · -- the product absorbs the sum
    calc nearest (t + nearest (x * y)) = nearest (nearest (x * y) + t) := by rw [add_comm]
      _ ≤ nearest (x * y) := nearest_add_le hq hq0 ht0 htq
      _ ≤ nearest (nearest (x + v) * nearest (y + w)) := nearest_mul_le hx hy hx0 hy0 hv0 hw0
      _ = nearest (nearest (v + x) * nearest (w + y)) := by rw [add_comm x, add_comm y]
  rw [not_le] at hqt htq
  have hcross : t * nearest (x * y) ≤ (v * y + x * w) ^ 2 := by
    calc t * nearest (x * y) ≤ (2 * (v * w)) * (2 * (x * y)) :=
          mul_le_mul (h.trans (nearest_le_two_mul hvw0)) (nearest_le_two_mul hxy0) hq0
            (by positivity)
      _ ≤ (v * y + x * w) ^ 2 := by nlinarith [sq_nonneg (v * y - x * w)]
  have hprod : (1 - 1 / 2 ^ 53) ^ 2 * (v * w + x * y + (v * y + x * w)) ≤
      nearest (v + x) * nearest (w + y) := by
    calc (1 - 1 / 2 ^ 53) ^ 2 * (v * w + x * y + (v * y + x * w))
        = ((1 - 1 / 2 ^ 53) * (v + x)) * ((1 - 1 / 2 ^ 53) * (w + y)) := by ring
      _ ≤ nearest (v + x) * nearest (w + y) :=
        mul_le_mul (nearest_add_ge hv hx hv0 hx0) (nearest_add_ge hw hy hw0 hy0)
          (mul_nonneg (by norm_num) (add_nonneg hw0 hy0)) (nearest_nonneg (add_nonneg hv0 hx0))
  exact nearest_add_le_of_cross ht hq (by linarith) (by linarith) (by positivity)
    (h.trans (nearest_le_add hvw0)) (nearest_le_add hxy0) hcross (by linarith) (by linarith) hprod

/-! ### Whole lists -/

/-- The rounded sum `t` is at most the rounded product of the rounded sums `v` and `w`, unless that
product is undefined. -/
structure ProductBound (t v w : Float) : Prop where
  nonneg : .finite 0 ≤ value t
  left_nonneg : .finite 0 ≤ value v
  right_nonneg : .finite 0 ≤ value w
  le : value v * value w ≠ .nan → value t ≤ value (v * w)

private theorem finite_of_rounded_add {v : Float} {q a : ℚ} (hv : .finite 0 ≤ value v)
    (h : rounded (value v + .finite q) = .finite a) :
    ∃ r, value v = .finite r ∧ 0 ≤ r ∧ a = nearest (r + q) := by
  cases hr : value v with
  | finite r =>
    rw [hr] at h hv
    exact ⟨r, rfl, hv, eq_nearest_of_rounded h⟩
  | _ =>
    rw [hr] at h
    contradiction

private theorem rounded_of_lt {q : ℚ} (h0 : 0 ≤ q) (h : nearest q < bound) :
    rounded (.finite q) = .finite (nearest q) :=
  saturate_of_abs_lt (by rwa [abs_of_nonneg (nearest_nonneg h0)])

-- The step on values, once the factors are known to be finite after it.
private theorem rounded_step {t : Float} {v w x y : ℚ} (hv : OnGrid v) (hw : OnGrid w)
    (hx : OnGrid x) (hy : OnGrid y) (hv0 : 0 ≤ v) (hw0 : 0 ≤ w) (hx0 : 0 ≤ x) (hy0 : 0 ≤ y)
    (ht0 : .finite 0 ≤ value t) (h : value t ≤ rounded (.finite (v * w))) :
    rounded (value t + rounded (.finite (x * y))) ≤
      rounded (.finite (nearest (v + x) * nearest (w + y))) := by
  have hxy0 : 0 ≤ x * y := mul_nonneg hx0 hy0
  have hvw0 : 0 ≤ v * w := mul_nonneg hv0 hw0
  by_cases hbig : bound ≤ nearest (nearest (v + x) * nearest (w + y))
  · have hn := rounded_nonneg (Extended.add_nonneg ht0 (rounded_nonneg (a := .finite _) hxy0))
    rw [rounded_eq_posInf.mpr hbig]
    exact Extended.le_posInf (Extended.ne_nan_of_le hn).2
  · rw [not_le] at hbig
    have hvw := nearest_mul_le hv hw hv0 hw0 hx0 hy0
    have hxy := nearest_mul_le hx hy hx0 hy0 hv0 hw0
    rw [add_comm x, add_comm y] at hxy
    rw [rounded_of_lt hvw0 (hvw.trans_lt hbig)] at h
    rw [rounded_of_lt hxy0 (hxy.trans_lt hbig)]
    cases ht : value t with
    | finite q =>
      rw [ht] at h ht0
      exact saturate_mono (nearest_add_le_nearest_mul hv hw hx hy (onGrid_of_value ht) hv0 hw0 hx0
        hy0 ht0 h)
    | posInf => simp [ht] at h
    | negInf => simp [ht] at ht0
    | nan => simp [ht] at ht0

/-- The bound is kept as two more entries are added to the sums. -/
theorem ProductBound.step {t v w x y : Float} (h : ProductBound t v w) (hx : x.isFinite = true)
    (hy : y.isFinite = true) : ProductBound (t + (x * y).abs) (v + x.abs) (w + y.abs) := by
  obtain ⟨p, hp⟩ := isFinite_iff.mp hx
  obtain ⟨r, hr⟩ := isFinite_iff.mp hy
  have hpa : value x.abs = .finite |p| := by rw [value_abs, hp, Extended.abs]
  have hra : value y.abs = .finite |r| := by rw [value_abs, hr, Extended.abs]
  have hpr : value (x * y).abs = rounded (.finite (|p| * |r|)) := by
    rw [value_abs, value_mul, hp, hr, ← rounded_abs, ← abs_mul]
    rfl
  have hpr0 : .finite 0 ≤ value (x * y).abs := by
    rw [hpr]
    exact rounded_nonneg (a := .finite _) (mul_nonneg (abs_nonneg p) (abs_nonneg r))
  have hv0 := nonneg_value_add h.left_nonneg (nonneg_value_abs hx)
  have hw0 := nonneg_value_add h.right_nonneg (nonneg_value_abs hy)
  have ht0 := nonneg_value_add h.nonneg hpr0
  refine ⟨ht0, hv0, hw0, fun hn ↦ ?_⟩
  rw [value_mul]
  cases ha : value (v + x.abs) with
  | nan => exact absurd ha (Extended.ne_nan_of_le hv0).2
  | negInf => simp [ha] at hv0
  | posInf =>
    rw [ha] at hn
    rw [Extended.posInf_mul hw0 hn]
    exact Extended.le_posInf (Extended.ne_nan_of_le ht0).2
  | finite a =>
    cases hb : value (w + y.abs) with
    | nan => exact absurd hb (Extended.ne_nan_of_le hw0).2
    | negInf => simp [hb] at hw0
    | posInf =>
      rw [hb, Extended.mul_comm] at hn
      rw [← ha, Extended.mul_comm, Extended.posInf_mul hv0 hn]
      exact Extended.le_posInf (Extended.ne_nan_of_le ht0).2
    | finite b =>
      rw [value_add, hpa] at ha
      rw [value_add, hra] at hb
      obtain ⟨v', hv, hv', rfl⟩ := finite_of_rounded_add h.left_nonneg ha
      obtain ⟨w', hw, hw', rfl⟩ := finite_of_rounded_add h.right_nonneg hb
      have hle := h.le (by rw [hv, hw]; simp)
      rw [value_mul, hv, hw] at hle
      rw [value_add, hpr]
      exact rounded_step (onGrid_of_value hv) (onGrid_of_value hw) (onGrid_of_value hpa)
        (onGrid_of_value hra) hv' hw' (abs_nonneg p) (abs_nonneg r) h.nonneg hle

/-- Larger factors keep the bound. -/
theorem ProductBound.mono {t v w v' w' : Float} (h : ProductBound t v w)
    (hv : value v ≤ value v') (hw : value w ≤ value w') : ProductBound t v' w' := by
  have hv0 := Extended.le_trans h.left_nonneg hv
  have hw0 := Extended.le_trans h.right_nonneg hw
  refine ⟨h.nonneg, hv0, hw0, fun hn ↦ ?_⟩
  have hinf : value v' * value w' = .posInf → value t ≤ value (v' * w') := by
    intro hi
    rw [value_mul, hi]
    exact Extended.le_posInf (Extended.ne_nan_of_le h.nonneg).2
  by_cases hvw : value v * value w = .nan
  · rcases Extended.eq_posInf_of_mul_eq_nan h.left_nonneg h.right_nonneg hvw with hi | hi
    · rw [hi, Extended.posInf_le_iff] at hv
      rw [hv] at hn hinf
      exact hinf (Extended.posInf_mul hw0 hn)
    · rw [hi, Extended.posInf_le_iff] at hw
      rw [hw, Extended.mul_comm] at hn hinf
      exact hinf (Extended.posInf_mul hv0 hn)
  · refine Extended.le_trans (h.le hvw) ?_
    rw [value_mul, value_mul]
    exact rounded_mono (Extended.mul_le_mul h.left_nonneg h.right_nonneg hv hw hvw hn)

/-- The bound holds for the sums over two lists of finite numbers of the same length. -/
theorem productBound_absTotal {xs ys : List Float} (hx : ∀ x ∈ xs, x.isFinite = true)
    (hy : ∀ y ∈ ys, y.isFinite = true) (h : xs.length = ys.length) :
    ProductBound (Linear.absTotal (List.zipWith (· * ·) xs ys)) (Linear.absTotal xs)
      (Linear.absTotal ys) := by
  have main : ∀ t v w, ProductBound t v w →
      ProductBound (((List.zipWith (· * ·) xs ys).map Scalar.abs).foldl (· + ·) t)
        ((xs.map Scalar.abs).foldl (· + ·) v) ((ys.map Scalar.abs).foldl (· + ·) w) := by
    induction xs generalizing ys with
    | nil =>
      intro t v w hb
      obtain rfl : ys = [] := List.length_eq_zero_iff.mp h.symm
      exact hb
    | cons x xs ih =>
      intro t v w hb
      cases ys with
      | nil => contradiction
      | cons y ys =>
        exact ih (fun a ha ↦ hx a (List.mem_cons_of_mem x ha))
          (fun a ha ↦ hy a (List.mem_cons_of_mem y ha)) (Nat.succ.inj h) _ _ _
          (hb.step (hx x List.mem_cons_self) (hy y List.mem_cons_self))
  refine main zero zero zero ⟨?_, ?_, ?_, fun _ ↦ ?_⟩ <;> rw [value_zero]
  · exact le_refl (0 : ℚ)
  · exact le_refl (0 : ℚ)
  · exact le_refl (0 : ℚ)
  · rw [value_mul, value_zero, Extended.finite_mul_finite, mul_zero, rounded_zero]
    exact le_refl (0 : ℚ)

end AffineArithmetic.Binary64

import AffineArithmetic.AffineForm.Value
import AffineArithmetic.Proofs.Interval.Points
import AffineArithmetic.Proofs.Linear.Exact

/-!
# The values of linear forms

Over exact numbers the operations on linear forms admit the results of the operations on admitted
values, for the same values of the noise symbols. A form that admits a value has a finite centre and
finite coefficients; its error may be infinite. All enclosed values of a finite form are admitted
for some values of the symbols.
-/

namespace AffineArithmetic.Linear

open Scalar

variable {K : Type} [Field K] [LinearOrder K] {x y : Linear (Extended K)} {ε : ℕ → K} {v w : K}

/-! ### Admitted values -/

private theorem foldl_mapIdx_finite (cs : List K) (ε : ℕ → K) (s : K) :
    ((cs.map Extended.finite).mapIdx fun i c ↦ c * .finite (ε i)).foldl (· + ·) (.finite s) =
      .finite (s + deviation cs ε) := by
  induction cs generalizing ε s with
  | nil => rw [deviation_nil, add_zero]; rfl
  | cons c cs ih =>
    rw [List.map_cons, List.mapIdx_cons, List.foldl_cons, deviation_cons, ← add_assoc]
    exact ih (fun i ↦ ε (i + 1)) (s + c * ε 0)

-- A finite sum has finite summands only.
private theorem exists_of_isFinite_foldl {xs : List (Extended K)} {ε : ℕ → K} {s : Extended K}
    (h : ((xs.mapIdx fun i c ↦ c * .finite (ε i)).foldl (· + ·) s).isFinite = true) :
    s.isFinite = true ∧ ∃ cs : List K, xs = cs.map .finite := by
  induction xs generalizing ε s with
  | nil => exact ⟨h, [], rfl⟩
  | cons a xs ih =>
    rw [List.mapIdx_cons, List.foldl_cons] at h
    obtain ⟨hs, cs, rfl⟩ := ih (ε := fun i ↦ ε (i + 1)) h
    rw [Extended.isFinite_add, Extended.isFinite_mul, Bool.and_eq_true, Bool.and_eq_true] at hs
    obtain ⟨c, rfl⟩ := Extended.isFinite_iff.mp hs.2.1
    exact ⟨hs.1, c :: cs, rfl⟩

/-- The linear part of a form with finite entries is the centre and the deviation. -/
theorem evaluate_eq {c : K} {cs : List K} (hc : x.center = .finite c)
    (hcs : x.coeffs = cs.map .finite) (ε : ℕ → K) :
    x.evaluate ε = .finite (c + deviation cs ε) := by
  have hsum : sum (x.coeffs.mapIdx fun i c ↦ c * .finite (ε i)) =
      (.finite (deviation cs ε) : Extended K) := by
    rw [hcs, ← zero_add (deviation cs ε), ← neg_zero]
    exact foldl_mapIdx_finite cs ε (-0)
  rw [evaluate, hsum, hc]
  rfl

/-- A form admits the values within its error of the centre and the deviation, which are finite. -/
theorem admits_iff : x.Admits ε v ↔ ∃ c cs, x.center = .finite c ∧ x.coeffs = cs.map .finite ∧
    .finite |v - (c + deviation cs ε)| ≤ x.error := by
  constructor
  · rintro ⟨t, hv, ht⟩
    have hf : (x.evaluate ε).isFinite = true := by
      have h := congrArg Extended.isFinite hv
      rw [Extended.isFinite_finite, Extended.isFinite_add, eq_comm, Bool.and_eq_true] at h
      exact h.1
    rw [evaluate, Extended.isFinite_add, Bool.and_eq_true] at hf
    obtain ⟨c, hc⟩ := Extended.isFinite_iff.mp hf.1
    obtain ⟨-, cs, hcs⟩ := exists_of_isFinite_foldl hf.2
    refine ⟨c, cs, hc, hcs, ?_⟩
    rw [evaluate_eq hc hcs, Extended.finite_add_finite, Extended.finite.injEq] at hv
    rwa [hv, add_sub_cancel_left]
  · rintro ⟨c, cs, hc, hcs, h⟩
    refine ⟨v - (c + deviation cs ε), ?_, h⟩
    rw [evaluate_eq hc hcs, Extended.finite_add_finite, add_sub_cancel]

/-! ### Linear operations -/

/-- The opposite form admits opposite values. -/
theorem Admits.neg (h : x.Admits ε v) : (-x).Admits ε (-v) := by
  obtain ⟨c, cs, hc, hcs, he⟩ := admits_iff.mp h
  refine admits_iff.mpr ⟨-c, cs.map (· * -1), congrArg (- ·) hc, ?_, ?_⟩
  · change x.coeffs.map (- ·) = _
    rw [hcs, List.map_map, List.map_map]
    refine List.map_congr_left fun a _ ↦ ?_
    rw [Function.comp_apply, Function.comp_apply, mul_neg_one]
    rfl
  · rwa [deviation_map_mul, show -v - (-c + deviation cs ε * -1) = -(v - (c + deviation cs ε)) by
      ring, abs_neg]

/-- The shifted form admits shifted values. -/
theorem Admits.shift (h : x.Admits ε v) (b : K) : (x.shift (.finite b)).Admits ε (v + b) := by
  obtain ⟨c, cs, hc, hcs, he⟩ := admits_iff.mp h
  refine admits_iff.mpr ⟨c + b, cs, ?_, hcs, ?_⟩
  · change x.center + .finite b = _
    rw [hc, Extended.finite_add_finite]
  · rwa [show v + b - (c + b + deviation cs ε) = v - (c + deviation cs ε) by ring]

private theorem map_mul_finite (cs : List K) (a : K) :
    (cs.map Extended.finite).map (· * .finite a) = (cs.map (· * a)).map .finite := by
  rw [List.map_map, List.map_map]
  rfl

variable [IsStrictOrderedRing K]

/-- The scaled form admits scaled values. -/
theorem Admits.scale (h : x.Admits ε v) (a : K) : (x.scale (.finite a)).Admits ε (a * v) := by
  obtain ⟨c, cs, hc, hcs, he⟩ := admits_iff.mp h
  have hval : a * v - (c * a + deviation (cs.map (· * a)) ε) = (v - (c + deviation cs ε)) * a := by
    rw [deviation_map_mul]
    ring
  by_cases ha : a = 0
  · subst ha
    have hx : x.scale (.finite 0) =
        ⟨.finite (c * 0), (cs.map (· * 0)).map .finite, .finite 0⟩ := by
      rw [scale_of_eq_zero ((Extended.finite_beq_zero 0).mpr rfl), hcs, List.map_map, List.map_map,
        mul_zero]
      simp only [mul_zero]
      rfl
    refine admits_iff.mpr ⟨_, cs.map (· * 0), by rw [hx], by rw [hx], ?_⟩
    rw [hval, hx, mul_zero, abs_zero]
    exact le_refl (0 : K)
  · have hx : x.scale (.finite a) =
        ⟨.finite (c * a), (cs.map (· * a)).map .finite, x.error * .finite |a|⟩ := by
      rw [scale_of_ne_zero ((Extended.finite_beq_zero a).not.mpr ha), hc, hcs, map_mul_finite]
      rfl
    refine admits_iff.mpr ⟨_, cs.map (· * a), by rw [hx], by rw [hx], ?_⟩
    rw [hval, hx, abs_mul]
    exact Extended.finite_mul_le he (abs_pos.mpr ha)

/-- The sum of forms over the same symbols admits sums of values. -/
theorem Admits.add (hx : x.Admits ε v) (hy : y.Admits ε w) (h : x.size = y.size) :
    (x + y).Admits ε (v + w) := by
  obtain ⟨c, cs, hc, hcs, he⟩ := admits_iff.mp hx
  obtain ⟨d, ds, hd, hds, hf⟩ := admits_iff.mp hy
  have hlen : cs.length = ds.length := by simpa [size, hcs, hds] using h
  have hdev : deviation (List.zipWith (· + ·) cs ds) ε = deviation cs ε + deviation ds ε := by
    have hzip := deviation_zipWith 1 1 ε hlen
    simp only [one_mul] at hzip
    rw [add_comm, ← hzip]
    simp only [add_comm]
  refine admits_iff.mpr ⟨c + d, List.zipWith (· + ·) cs ds, ?_, ?_, ?_⟩
  · change x.center + y.center = _
    rw [hc, hd, Extended.finite_add_finite]
  · change List.zipWith (· + ·) x.coeffs y.coeffs = _
    rw [hcs, hds, List.zipWith_map, List.map_zipWith]
    rfl
  · refine Extended.le_trans ?_ (Extended.finite_add_le he hf)
    rw [hdev, show v + w - (c + d + (deviation cs ε + deviation ds ε)) =
      v - (c + deviation cs ε) + (w - (d + deviation ds ε)) by ring]
    exact abs_add_le _ _

/-- The widened form admits values moved by at most the size of the widening. -/
theorem Admits.widen (h : x.Admits ε v) {d t : K} (ht : |t| ≤ |d|) :
    (x.widen (.finite d)).Admits ε (v + t) := by
  obtain ⟨c, cs, hc, hcs, he⟩ := admits_iff.mp h
  refine admits_iff.mpr ⟨c, cs, hc, hcs, ?_⟩
  refine Extended.le_trans ?_ (Extended.finite_add_le (b := .finite |d|) he ht)
  rw [show v + t - (c + deviation cs ε) = v - (c + deviation cs ε) + t by ring]
  exact abs_add_le _ _

/-! ### Enclosure -/

/-- Admitted values are enclosed. -/
theorem Admits.mem_toInterval (hε : ∀ i, |ε i| ≤ 1) (h : x.Admits ε v) : v ∈ x.toInterval := by
  obtain ⟨c, cs, hc, hcs, he⟩ := admits_iff.mp h
  have hdev := abs_le.mp (abs_deviation_le hε cs)
  rw [toInterval, radius, hc, hcs, absSum_finite]
  cases hx : x.error with
  | finite e =>
    rw [hx] at he
    have hv := abs_le.mp (show |v - (c + deviation cs ε)| ≤ e from he)
    refine Interval.mem_ofBounds ?_ ?_
    · rw [Extended.sub_eq_add_neg]
      change c + -(spread cs + e) ≤ v
      linarith
    · change v ≤ c + (spread cs + e)
      linarith
  | posInf => exact Interval.mem_ofBounds trivial trivial
  | _ => simp [hx] at he

/-- Enclosed values are admitted for some values of the noise symbols. -/
theorem exists_admits {p : Linear K} (hp : 0 ≤ p.error) (h : v ∈ p.lift.toInterval) :
    ∃ ε : ℕ → K, (∀ i, |ε i| ≤ 1) ∧ p.lift.Admits ε v := by
  rw [toInterval_lift hp] at h
  obtain ⟨t, ht, hv⟩ := Interval.exists_share_of_mem_ball h
  obtain ⟨ε, hε, hdev⟩ := exists_deviation ht p.coeffs
  refine ⟨ε, hε, admits_iff.mpr ⟨p.center, p.coeffs, rfl, rfl, ?_⟩⟩
  have herr : v - (p.center + deviation p.coeffs ε) = p.error * t := by
    rw [hdev, ← sub_sub, hv]
    ring
  change |v - (p.center + deviation p.coeffs ε)| ≤ p.error
  rw [herr, abs_mul, abs_of_nonneg hp]
  exact mul_le_of_le_one_right hp ht

/-- The values of a finite form are the points of its interval. -/
theorem mem_toInterval_iff {p : Linear K} (hp : 0 ≤ p.error) :
    v ∈ p.lift.toInterval ↔ v ∈ p.lift.values :=
  ⟨exists_admits hp, fun ⟨_, hε, h⟩ ↦ h.mem_toInterval hε⟩

/-! ### Products

A product can have an undefined entry. Where it has none, the errors of the operands are finite. -/

/-- The product with a bounded interval admits products of values with points, if it is finite. -/
theorem Admits.mulInterval (hε : ∀ i, |ε i| ≤ 1) (h : x.Admits ε v) {r : Interval (Extended K)}
    (hw : w ∈ r) (hb : r.isBounded = true) (hf : (x.mulInterval r).isFinite = true) :
    (x.mulInterval r).Admits ε (v * w) := by
  obtain ⟨c, cs, hc, hcs, he⟩ := admits_iff.mp h
  obtain ⟨m, ρ, hρ, rfl⟩ := Interval.exists_ball (.inr (Interval.inOrder_of_mem hw)) hb
  obtain ⟨e, hxe⟩ : ∃ e, x.error = .finite e := by
    have hfe : (x.error * (Interval.ball m ρ).magnitude +
        (Interval.ball m ρ).radius * absSum x.entries).isFinite = true := (isFinite_iff.mp hf).1
    rw [Extended.isFinite_add, Extended.isFinite_mul, Bool.and_eq_true, Bool.and_eq_true] at hfe
    exact Extended.isFinite_iff.mp hfe.1.1
  have hx : x = lift ⟨c, cs, e⟩ := Linear.ext hc hcs hxe
  rw [hxe] at he
  rw [hx, mulInterval_ball _ hρ]
  refine admits_iff.mpr ⟨c * m, cs.map (· * m), rfl, rfl, ?_⟩
  -- The value deviates by `w` times the error and by the rest times the distance of `w` from the
  -- midpoint.
  have hsplit : v * w - (c * m + deviation (cs.map (· * m)) ε) =
      (v - (c + deviation cs ε)) * w + (w - m) * (c + deviation cs ε) := by
    rw [deviation_map_mul]
    ring
  have hwm : |w - m| ≤ ρ := Interval.mem_ball.mp hw
  have hlin : |c + deviation cs ε| ≤ |c| + spread cs :=
    (abs_add_le _ _).trans (add_le_add le_rfl (abs_deviation_le hε cs))
  change |v * w - (c * m + deviation (cs.map (· * m)) ε)| ≤
    e * (|m| + ρ) + ρ * (|c| + spread cs)
  rw [hsplit]
  refine (abs_add_le _ _).trans (add_le_add ?_ ?_) <;> rw [abs_mul]
  · exact mul_le_mul he (Interval.abs_le_of_mem_ball hw) (abs_nonneg w) ((abs_nonneg _).trans he)
  · exact mul_le_mul hwm hlin (abs_nonneg _) hρ

-- What the product of two values differs from the centre and the deviation of the product form.
private theorem abs_mul_sub_le (hε : ∀ i, |ε i| ≤ 1) {p q : Linear K} (h : p.size = q.size)
    (hv : |v - (p.center + deviation p.coeffs ε)| ≤ p.error)
    (hw : |w - (q.center + deviation q.coeffs ε)| ≤ q.error) :
    |v * w - ((p.product q).center + deviation (p.product q).coeffs ε)| ≤ (p.product q).error := by
  have hdiag := abs_deviation_mul_sub_le hε p.coeffs q.coeffs
  have hp := abs_deviation_le hε p.coeffs
  have hq := abs_deviation_le hε q.coeffs
  have hsplit : v * w - ((p.product q).center + deviation (p.product q).coeffs ε) =
      q.center * (v - (p.center + deviation p.coeffs ε)) +
        p.center * (w - (q.center + deviation q.coeffs ε)) +
        ((v - (p.center + deviation p.coeffs ε)) * (w - (q.center + deviation q.coeffs ε)) +
          (v - (p.center + deviation p.coeffs ε)) * deviation q.coeffs ε +
          deviation p.coeffs ε * (w - (q.center + deviation q.coeffs ε))) +
        (deviation p.coeffs ε * deviation q.coeffs ε -
          1 / 2 * (List.zipWith (· * ·) p.coeffs q.coeffs).sum) := by
    rw [center_product, product, deviation_zipWith p.center q.center ε h]
    ring
  have hmul : ∀ {a b s t : K}, |a| ≤ s → |b| ≤ t → |a * b| ≤ s * t := by
    intro a b s t ha hb
    rw [abs_mul]
    exact mul_le_mul ha hb (abs_nonneg b) ((abs_nonneg a).trans ha)
  calc _ ≤ |q.center| * p.error + |p.center| * q.error +
        (p.error * q.error + p.error * spread q.coeffs + spread p.coeffs * q.error) +
        (spread p.coeffs * spread q.coeffs -
          1 / 2 * spread (List.zipWith (· * ·) p.coeffs q.coeffs)) := by
        rw [hsplit]
        refine (abs_add_le _ _).trans (add_le_add ((abs_add_le _ _).trans (add_le_add ?_ ?_)) hdiag)
        · exact (abs_add_le _ _).trans (add_le_add (hmul le_rfl hv) (hmul le_rfl hw))
        · exact (abs_add_three _ _ _).trans
            (add_le_add (add_le_add (hmul hv hw) (hmul hv hq)) (hmul hp hw))
    _ = _ := by
        rw [error_product]
        ring

/-- The product of forms over the same symbols admits products of values, if it is finite. -/
theorem Admits.mul (hε : ∀ i, |ε i| ≤ 1) (hx : x.Admits ε v) (hy : y.Admits ε w)
    (h : x.size = y.size) (hf : (x * y).isFinite = true) : (x * y).Admits ε (v * w) := by
  obtain ⟨c, cs, hc, hcs, he⟩ := admits_iff.mp hx
  obtain ⟨d, ds, hd, hds, hf'⟩ := admits_iff.mp hy
  have hlen : cs.length = ds.length := by simpa [size, hcs, hds] using h
  obtain ⟨⟨e, hxe⟩, f, hyf⟩ : (∃ e, x.error = .finite e) ∧ ∃ f, y.error = .finite f := by
    have hfe : (Scalar.abs y.center * x.error + Scalar.abs x.center * y.error +
        (x.error + absTotal x.coeffs) * (y.error + absTotal y.coeffs) -
        half * absTotal (diagonal x y)).isFinite = true := (isFinite_iff.mp hf).1
    simp only [Extended.sub_eq_add_neg, Extended.isFinite_add, Extended.isFinite_mul,
      Bool.and_eq_true] at hfe
    exact ⟨Extended.isFinite_iff.mp hfe.1.1.1.2, Extended.isFinite_iff.mp hfe.1.1.2.2⟩
  have hx : x = lift ⟨c, cs, e⟩ := Linear.ext hc hcs hxe
  have hy : y = lift ⟨d, ds, f⟩ := Linear.ext hd hds hyf
  rw [hxe] at he
  rw [hyf] at hf'
  rw [hx, hy, mul_lift]
  exact admits_iff.mpr ⟨_, _, rfl, rfl, abs_mul_sub_le hε hlen he hf'⟩

/-- The square admits squares of values, if it is finite. -/
theorem Admits.sqr (hε : ∀ i, |ε i| ≤ 1) (h : x.Admits ε v) (hf : x.sqr.isFinite = true) :
    x.sqr.Admits ε (v ^ 2) := by
  obtain ⟨c, cs, hc, hcs, -⟩ := admits_iff.mp h
  obtain ⟨e, he⟩ : ∃ e, x.error = .finite e := by
    have hfe : (two * Scalar.abs x.center * x.error -
        half * total (x.coeffs.map fun a ↦ a * a) +
        power (x.error + absTotal x.coeffs) 2).isFinite = true := (isFinite_iff.mp hf).1
    simp only [Extended.sub_eq_add_neg, Extended.isFinite_add, Extended.isFinite_mul,
      Bool.and_eq_true] at hfe
    exact Extended.isFinite_iff.mp hfe.1.1.2
  have hx : x = lift ⟨c, cs, e⟩ := Linear.ext hc hcs he
  have hsq : x.sqr = x * x := by
    rw [hx, sqr_lift, mul_lift]
  rw [hsq] at hf
  rw [hsq, sq]
  exact h.mul hε h rfl hf

end AffineArithmetic.Linear

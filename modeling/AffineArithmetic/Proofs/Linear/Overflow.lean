import AffineArithmetic.Proofs.Interval.Ends
import AffineArithmetic.Proofs.Linear.Error
import AffineArithmetic.Proofs.Linear.Rounded

/-!
# Linear forms that overflow

Finite operands turn the entries of a linear form into numbers, though not always into finite ones,
and entries that are infinite stay so. A form with such an entry encloses the real line as long as
its centre is finite. Otherwise its bounds lie beyond the reals on one side, or are undefined, and
it encloses nothing.
-/

namespace AffineArithmetic

open Binary64 Scalar

/-! ### Numbers -/

section Numbers

variable {a b : Float}

private theorem value_add_ne_nan (ha : value a ≠ .nan) (hb : Scalar.isFinite b = true) :
    value (a + b) ≠ .nan := by
  obtain ⟨q, hq⟩ := scalar_isFinite_iff.mp hb
  rw [value_add, Ne, rounded_eq_nan, hq]
  cases hv : value a with
  | nan => exact absurd hv ha
  | _ => simp

private theorem value_mul_ne_nan (ha : Scalar.isFinite a = true) (hb : Scalar.isFinite b = true) :
    value (a * b) ≠ .nan := by
  obtain ⟨p, hp⟩ := scalar_isFinite_iff.mp ha
  obtain ⟨q, hq⟩ := scalar_isFinite_iff.mp hb
  rw [value_mul, Ne, rounded_eq_nan, hp, hq]
  simp

private theorem value_negInf_add (ha : value a = .negInf) (hb : .finite 0 ≤ value b) :
    value (a + b) = .negInf ∨ value (a + b) = .nan := by
  rw [value_add, ha]
  cases hv : value b with
  | finite q => exact .inl rfl
  | posInf => exact .inr rfl
  | _ => simp [hv] at hb

private theorem value_posInf_sub (ha : value a = .posInf) (hb : .finite 0 ≤ value b) :
    value (a - b) = .posInf ∨ value (a - b) = .nan := by
  rw [value_sub, ha]
  cases hv : value b with
  | finite q => exact .inl rfl
  | posInf => exact .inr rfl
  | _ => simp [hv] at hb

private theorem isFinite_of_add (h : Scalar.isFinite (a + b) = true) :
    Scalar.isFinite a = true ∧ Scalar.isFinite b = true := by
  rw [← isFinite_toRounded, toRounded_add] at h
  rw [← isFinite_toRounded, ← isFinite_toRounded (x := b)]
  exact LawfulScalar.isFinite_of_add h

private theorem isFinite_of_foldl {xs : List Float} {s : Float}
    (h : Scalar.isFinite (xs.foldl (· + ·) s) = true) :
    Scalar.isFinite s = true ∧ ∀ a ∈ xs, Scalar.isFinite a = true := by
  induction xs generalizing s with
  | nil => exact ⟨h, fun _ ha ↦ nomatch ha⟩
  | cons a xs ih =>
    obtain ⟨hsum, hxs⟩ := ih h
    obtain ⟨hs, ha⟩ := isFinite_of_add hsum
    exact ⟨hs, List.forall_mem_cons.mpr ⟨ha, hxs⟩⟩

private theorem isFinite_abs (a : Float) : Scalar.isFinite (Scalar.abs a) = Scalar.isFinite a := by
  rw [← isFinite_toRounded, toRounded_abs, LawfulScalar.isFinite_abs, isFinite_toRounded]

-- Absolute values that add up to a finite number belong to finite numbers.
private theorem isFinite_of_absSum {xs : List Float} (h : Scalar.isFinite (absSum xs) = true) :
    ∀ a ∈ xs, Scalar.isFinite a = true := by
  intro a ha
  rw [← isFinite_abs]
  exact (isFinite_of_foldl h).2 _ (List.mem_map_of_mem ha)

end Numbers

/-! ### Linear forms with numbers as entries -/

namespace Linear

variable {p q : Linear Float} {a : Float}

/-- Products with finite scalars have numbers as entries. -/
theorem defined_scale (h : p.isFinite = true) (he : p.Defined) (ha : Scalar.isFinite a = true) :
    (p.scale a).Defined := by
  have hzero : value (Scalar.zero : Float) ≠ .nan := by simp
  obtain ⟨hef, hc, hcs⟩ := isFinite_iff.mp h
  by_cases h0 : (a == Scalar.zero) = true
  · rw [scale_of_eq_zero h0]
    refine ⟨hzero, ?_, ?_⟩
    · intro b hb
      obtain ⟨c, -, rfl⟩ := List.mem_map.mp hb
      exact hzero
    · rw [value_zero]
      exact le_refl (0 : ℚ)
  · rw [scale_of_ne_zero h0]
    refine ⟨value_mul_ne_nan hc ha, ?_, ?_⟩
    · intro b hb
      obtain ⟨c, hc', rfl⟩ := List.mem_map.mp hb
      exact value_mul_ne_nan (hcs c hc') ha
    · have hprod := value_mul_ne_nan hef ((isFinite_abs a).trans ha)
      rw [value_mul, Ne, rounded_eq_nan] at hprod
      exact nonneg_value_mul he.error (nonneg_value_abs ha) hprod

/-- Sums with finite forms have numbers as entries. -/
theorem Defined.add (h : p.Defined) (hq : q.isFinite = true) (hq' : q.Defined) :
    (p + q).Defined := by
  obtain ⟨-, hc, hcs⟩ := isFinite_iff.mp hq
  refine ⟨value_add_ne_nan h.center hc, ?_, nonneg_value_add h.error hq'.error⟩
  intro a ha
  rw [coeffs_add, ← List.map_uncurry_zip_eq_zipWith] at ha
  obtain ⟨⟨b, c⟩, hbc, rfl⟩ := List.mem_map.mp ha
  obtain ⟨hb, hc'⟩ := List.of_mem_zip hbc
  exact value_add_ne_nan (h.coeffs b hb) (hcs c hc')

/-- A form moved by a finite constant has numbers as entries. -/
theorem Defined.shift (h : p.Defined) (ha : Scalar.isFinite a = true) : (p.shift a).Defined :=
  ⟨value_add_ne_nan h.center ha, h.coeffs, h.error⟩

/-- A form widened by a finite scalar has numbers as entries. -/
theorem Defined.widen (h : p.Defined) (ha : Scalar.isFinite a = true) : (p.widen a).Defined :=
  ⟨h.center, h.coeffs, nonneg_value_add h.error (nonneg_value_abs ha)⟩

/-- A form with numbers as entries encloses nothing exactly if its centre is not finite. -/
theorem Defined.isEmpty_toInterval (h : p.Defined) :
    p.toInterval.isEmpty = true ↔ Scalar.isFinite p.center = false := by
  constructor
  · intro he
    rw [← Bool.not_eq_true]
    intro hc
    rw [toInterval, (Interval.ofBounds_eq_of_inOrder (h.inOrder_of_center hc)).1] at he
    contradiction
  · intro hc
    -- the centre is infinite, and the bound on its other side is infinite as well or undefined
    have hout : ¬ Interval.InOrder (p.center - p.radius) (p.center + p.radius) := by
      rw [Interval.inOrder_iff]
      rintro ⟨hle, hl, hu⟩
      obtain ⟨hln, hun⟩ := Extended.ne_nan_of_le hle
      cases hv : value p.center with
      | finite c =>
        rw [scalar_isFinite_iff.mpr ⟨c, hv⟩] at hc
        contradiction
      | nan => exact h.center hv
      | posInf => exact (value_posInf_sub hv h.nonneg_radius).elim hl hln
      | negInf => exact (value_negInf_add hv h.nonneg_radius).elim hu hun
    rw [toInterval, Interval.ofBounds_of_not_inOrder hout]
    exact Interval.isEmpty_empty

/-- A form with a finite centre and another entry that is not finite encloses the real line. -/
theorem Defined.isWhole_toInterval (h : p.Defined) (hc : Scalar.isFinite p.center = true)
    (hf : p.isFinite = false) : p.toInterval.IsWhole := by
  have hr : value p.radius = .posInf := by
    have hnn := h.nonneg_radius
    cases hv : value p.radius with
    | posInf => rfl
    | finite r =>
      obtain ⟨hs, he⟩ := isFinite_of_add (scalar_isFinite_iff.mpr ⟨r, hv⟩)
      rw [isFinite_iff.mpr ⟨he, hc, isFinite_of_absSum hs⟩] at hf
      contradiction
    | _ => simp [hv] at hnn
  obtain ⟨c, hcv⟩ := scalar_isFinite_iff.mp hc
  rw [toInterval, Interval.ofBounds_of_inOrder (h.inOrder_of_center hc), Interval.IsWhole,
    value_sub, value_add, hcv, hr]
  exact ⟨rfl, rfl⟩

/-- A form with numbers as entries that are not all finite encloses no bounded interval. -/
theorem Defined.isBounded_toInterval (h : p.Defined) (hf : p.isFinite = false) :
    p.toInterval.isBounded = false := by
  cases hc : Scalar.isFinite p.center with
  | false =>
    rw [Interval.isBounded, h.isEmpty_toInterval.mpr hc]
    rfl
  | true => exact (h.isWhole_toInterval hc hf).isBounded

/-! ### Entries that stay infinite -/

/-- A moved form is finite only if the form is. -/
theorem isFinite_shift_eq_false (h : p.isFinite = false) : (p.shift a).isFinite = false := by
  rw [← Bool.not_eq_true] at h ⊢
  intro hf
  obtain ⟨he, hc, hcs⟩ := isFinite_iff.mp hf
  exact h (isFinite_iff.mpr ⟨he, (isFinite_of_add hc).1, hcs⟩)

/-- A widened form is finite only if the form is. -/
theorem isFinite_widen_eq_false (h : p.isFinite = false) : (p.widen a).isFinite = false := by
  rw [← Bool.not_eq_true] at h ⊢
  intro hf
  obtain ⟨he, hc, hcs⟩ := isFinite_iff.mp hf
  exact h (isFinite_iff.mpr ⟨(isFinite_of_add he).1, hc, hcs⟩)

/-- A sum over the same symbols is finite only if the first form is. -/
theorem isFinite_add_eq_false (hs : p.size = q.size) (h : p.isFinite = false) :
    (p + q).isFinite = false := by
  rw [← Bool.not_eq_true] at h ⊢
  intro hf
  obtain ⟨he, hc, hcs⟩ := isFinite_iff.mp hf
  refine h (isFinite_iff.mpr ⟨(isFinite_of_add he).1, (isFinite_of_add hc).1, fun b hb ↦ ?_⟩)
  obtain ⟨i, hi, rfl⟩ := List.getElem_of_mem hb
  have hi' : i < (p + q).coeffs.length := hi.trans_eq (size_add hs).symm
  have hsum := hcs _ (List.getElem_mem hi')
  simp only [coeffs_add, List.getElem_zipWith] at hsum
  exact (isFinite_of_add hsum).1

end Linear
end AffineArithmetic

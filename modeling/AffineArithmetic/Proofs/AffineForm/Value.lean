import AffineArithmetic.AffineForm.Operators
import AffineArithmetic.Proofs.AffineForm.Basic
import AffineArithmetic.Proofs.Linear.Value

/-!
# The values of affine forms

Over exact numbers every operation on affine forms admits the results of the operation on admitted
values, under the same values of the noise symbols, whichever states and numbers of symbols the
operands have. Where an operation gives up the linear part, the enclosed intervals take over.
-/

namespace AffineArithmetic.AffineForm

open Scalar

variable {K : Type} [Field K] [LinearOrder K] {x y : AffineForm (Extended K)}
  {l : Linear (Extended K)} {i r : Interval (Extended K)} {ε : Noise K} {v w : K}

/-! ### Conversions -/

/-- Settling keeps the values that a finite form admits. -/
theorem admits_settle (h : l.isFinite = true → l.Admits (ε l.size) v) :
    (active l).settle.Admits ε v := by
  by_cases hf : l.isFinite = true
  · rw [settle, if_pos hf]
    exact h hf
  · rw [settle, if_neg hf]
    exact Interval.mem_univ v

/-- Settling keeps admitted values. -/
theorem Admits.settle (h : x.Admits ε v) : x.settle.Admits ε v := by
  cases x with
  | active l => exact admits_settle fun _ ↦ h
  | _ => exact h

/-- The opposite form admits opposite values. -/
theorem Admits.neg [IsStrictOrderedRing K] (h : x.Admits ε v) : (-x).Admits ε (-v) := by
  cases x with
  | active l =>
    change (-l).Admits (ε (-l).size) (-v)
    rw [Linear.size_neg]
    exact Linear.Admits.neg h
  | empty => exact absurd h (Interval.not_mem_empty v)
  | allReals => exact Interval.mem_univ (-v)
  | boundedBelow b =>
    exact Interval.mem_ofBounds trivial (Extended.neg_le_neg (Interval.le_of_mem_ofBounds h).1)
  | boundedAbove b =>
    exact Interval.mem_ofBounds (Extended.neg_le_neg (Interval.le_of_mem_ofBounds h).2) trivial

variable [IsStrictOrderedRing K]

/-- The form of a finite scalar admits it. -/
theorem admits_ofScalar (ε : Noise K) (v : K) : (ofScalar (.finite v)).Admits ε v := by
  refine Linear.admits_iff.mpr ⟨v, [], rfl, rfl, ?_⟩
  rw [Linear.deviation_nil, add_zero, sub_self, abs_zero]
  exact le_refl (0 : K)

/-- The form of an interval admits its points. -/
theorem admits_ofInterval (ε : Noise K) (h : v ∈ i) : (ofInterval i).Admits ε v := by
  rcases ofInterval_cases i with ⟨he, -⟩ | ⟨-, ⟨-, -, hi⟩ | ⟨-, -, hi⟩ | ⟨-, -, hi⟩ | ⟨hb, hi⟩⟩
  · rw [Interval.isEmpty_of_mem h] at he
    contradiction
  · rw [hi]
    exact Interval.mem_univ v
  · rw [hi]
    exact Interval.mem_ofBounds h.1 trivial
  · rw [hi]
    exact Interval.mem_ofBounds trivial h.2
  · obtain ⟨m, ρ, μ, hm, hρ, -, hv, -⟩ := Interval.exists_midpoint_of_mem h hb
    rw [hi, hm, hρ]
    refine Linear.admits_iff.mpr ⟨m, [], rfl, rfl, ?_⟩
    rw [Linear.deviation_nil, add_zero]
    exact hv

/-- Admitted values are enclosed. -/
theorem Admits.mem_toInterval (hε : ε.InRange) (h : x.Admits ε v) : v ∈ x.toInterval := by
  cases x with
  | active l => exact Linear.Admits.mem_toInterval (hε l.size) h
  | _ => exact h

/-! ### Steps of an update -/

/-- Scaling by a finite scalar admits scaled values. -/
theorem Admits.scaleStep (h : x.Admits ε v) (a : K) :
    (x.scaleStep (.finite a)).Admits ε (a * v) := by
  cases x with
  | active l =>
    change (l.scale (.finite a)).Admits (ε (l.scale (.finite a)).size) (a * v)
    rw [Linear.size_scale]
    exact Linear.Admits.scale h a
  | _ =>
    rw [mul_comm]
    exact admits_ofInterval ε (Interval.mem_mul h (Interval.mem_ofScalar a))

/-- Adding a finite constant admits shifted values. -/
theorem Admits.shiftStep (h : x.Admits ε v) (b : K) :
    (x.shiftStep (.finite b)).Admits ε (v + b) := by
  cases x with
  | active l => exact Linear.Admits.shift h b
  | _ => exact admits_ofInterval ε (Interval.mem_add h (Interval.mem_ofScalar b))

/-- Widening by the size of a finite scalar admits values moved by at most this size. -/
theorem Admits.widenStep (h : x.Admits ε v) {d t : K} (ht : |t| ≤ |d|) :
    (x.widenStep (.finite d)).Admits ε (v + t) := by
  cases x with
  | active l => exact Linear.Admits.widen h ht
  | _ => exact admits_ofInterval ε (Interval.mem_add h (Interval.mem_noise_mul ht))

/-- Adding an interval admits sums of values with points. -/
theorem Admits.addInterval (hε : ε.InRange) (h : x.Admits ε v) (hw : w ∈ r) :
    (x.addInterval r).Admits ε (v + w) := by
  by_cases hact : x.isActive && r.isBounded
  · obtain ⟨-, hb⟩ := Bool.and_eq_true_iff.mp hact
    obtain ⟨m, ρ, -, hm, hρ, -, hwm, -⟩ := Interval.exists_midpoint_of_mem hw hb
    have hsteps := (h.shiftStep m).widenStep (hwm.trans (le_abs_self ρ))
    rw [add_assoc, add_sub_cancel, ← hm, ← hρ] at hsteps
    rw [AffineForm.addInterval, addIntervalSteps, if_pos hact]
    exact hsteps.settle
  · rw [AffineForm.addInterval, addIntervalSteps, if_neg hact]
    exact (admits_ofInterval ε (Interval.mem_add (h.mem_toInterval hε) hw)).settle

/-- Adding a form admits sums of values. -/
theorem Admits.addStep (hε : ε.InRange) (hx : x.Admits ε v) (hy : y.Admits ε w) :
    (x.addStep y).Admits ε (v + w) := by
  by_cases hact : x.isActive = false ∨ y.isActive = false
  · rw [addStep_of_not_active hact]
    exact admits_ofInterval ε (Interval.mem_add (hx.mem_toInterval hε) (hy.mem_toInterval hε))
  · cases x with
    | active p =>
      cases y with
      | active q =>
        rcases lt_trichotomy p.size q.size with hlt | heq | hgt
        · rw [addStep_of_lt hlt, add_comm]
          exact hy.addInterval hε (hx.mem_toInterval hε)
        · rw [addStep_of_eq heq]
          change (p + q).Admits (ε (p + q).size) (v + w)
          rw [Linear.size_add heq]
          exact Linear.Admits.add hx (heq ▸ hy) heq
        · rw [addStep_of_gt hgt]
          exact hx.addInterval hε (hy.mem_toInterval hε)
      | _ => exact absurd (.inr rfl) hact
    | _ => exact absurd (.inl rfl) hact

/-- The sum of forms admits sums of values. -/
theorem Admits.add (hε : ε.InRange) (hx : x.Admits ε v) (hy : y.Admits ε w) :
    (x + y).Admits ε (v + w) :=
  (hx.addStep hε hy).settle

/-- The difference of forms admits differences of values. -/
theorem Admits.sub (hε : ε.InRange) (hx : x.Admits ε v) (hy : y.Admits ε w) :
    (x - y).Admits ε (v - w) := by
  have h := (((hx.scaleStep (-1)).addStep hε hy).settle).neg
  rw [show -(-1 * v + w) = v - w by ring] at h
  exact h

/-! ### Products and powers -/

/-- The product with an interval admits products of values with points. -/
theorem Admits.mulInterval (hε : ε.InRange) (h : x.Admits ε v) (hw : w ∈ r) :
    (x.mulInterval r).Admits ε (v * w) := by
  have hitv := admits_ofInterval ε (Interval.mem_mul (h.mem_toInterval hε) hw)
  cases x with
  | active l =>
    cases hb : r.isBounded with
    | true =>
      rw [mulInterval_of_isBounded hb]
      refine admits_settle fun hf ↦ ?_
      rw [Linear.size_mulInterval]
      exact Linear.Admits.mulInterval (hε l.size) h hw hb hf
    | false => rwa [mulInterval_of_not_isBounded hb]
  | _ => exact hitv

/-- The product of forms admits products of values. -/
theorem Admits.mul (hε : ε.InRange) (hx : x.Admits ε v) (hy : y.Admits ε w) :
    (x * y).Admits ε (v * w) := by
  by_cases hact : x.isActive = false ∨ y.isActive = false
  · rw [mul_of_not_active hact]
    exact admits_ofInterval ε (Interval.mem_mul (hx.mem_toInterval hε) (hy.mem_toInterval hε))
  · cases x with
    | active p =>
      cases y with
      | active q =>
        rcases lt_trichotomy p.size q.size with hlt | heq | hgt
        · rw [mul_of_lt hlt, mul_comm]
          exact hy.mulInterval hε (hx.mem_toInterval hε)
        · rw [mul_of_eq heq]
          refine admits_settle fun hf ↦ ?_
          rw [Linear.size_mul heq]
          exact Linear.Admits.mul (hε p.size) hx (heq ▸ hy) heq hf
        · rw [mul_of_gt hgt]
          exact hx.mulInterval hε (hy.mem_toInterval hε)
      | _ => exact absurd (.inr rfl) hact
    | _ => exact absurd (.inl rfl) hact

/-- The square admits squares of values, whichever way it is taken. -/
theorem Admits.sqr (hε : ε.InRange) (h : x.Admits ε v) : x.sqr.Admits ε (v ^ 2) := by
  have hitv := admits_ofInterval ε (Interval.mem_pow (h.mem_toInterval hε) 2)
  cases hs : x.squaresAsInterval with
  | true => rwa [sqr_of_squaresAsInterval hs]
  | false =>
    cases x with
    | active l =>
      rw [sqr_of_linear hs]
      refine admits_settle fun hf ↦ ?_
      rw [Linear.size_sqr]
      exact Linear.Admits.sqr (hε l.size) h hf
    | _ => exact hitv

/-- Products and powers admit products and powers of values. -/
theorem isMultiplicative_admits (hε : ε.InRange) :
    IsMultiplicative fun (x : AffineForm (Extended K)) v ↦ x.Admits ε v where
  mul hx hy := hx.mul hε hy
  sqr hx := hx.sqr hε
  power_zero {x v} h := by
    by_cases he : x = empty
    · rw [he] at h
      exact absurd h (Interval.not_mem_empty v)
    · rw [pow_zero_of_ne_empty he]
      exact admits_ofScalar ε 1

/-- Powers admit powers of values. -/
theorem Admits.pow (hε : ε.InRange) (h : x.Admits ε v) (n : ℕ) : (x.pow n).Admits ε (v ^ n) :=
  (isMultiplicative_admits hε).pow h n

/-! ### Operators with scalars and intervals -/

/-- The sum with a finite scalar admits sums of values with it. -/
theorem Admits.addScalar (h : x.Admits ε v) (b : K) : (x + Extended.finite b).Admits ε (v + b) :=
  (h.shiftStep b).settle

/-- The difference with a finite scalar admits differences of values with it. -/
theorem Admits.subScalar (h : x.Admits ε v) (b : K) :
    (x - Extended.finite b).Admits ε (v - b) := by
  rw [sub_eq_add_neg]
  exact (h.shiftStep (-b)).settle

/-- The difference of a finite scalar and a form admits the differences with values. -/
theorem Admits.scalarSub (h : x.Admits ε v) (b : K) :
    (Extended.finite b - x).Admits ε (b - v) := by
  rw [sub_eq_add_neg, add_comm]
  exact h.neg.addScalar b

/-- The product with a finite scalar admits products of values with it. -/
theorem Admits.mulScalar (h : x.Admits ε v) (a : K) : (x * Extended.finite a).Admits ε (v * a) := by
  rw [mul_comm]
  exact (h.scaleStep a).settle

/-- The difference with an interval admits differences of values with points. -/
theorem Admits.subInterval (hε : ε.InRange) (h : x.Admits ε v) (hw : w ∈ r) :
    (x - r).Admits ε (v - w) := by
  rw [sub_eq_add_neg]
  exact h.addInterval hε (Interval.mem_neg hw)

/-- The difference of an interval and a form admits the differences of points with values. -/
theorem Admits.intervalSub (hε : ε.InRange) (h : x.Admits ε v) (hw : w ∈ r) :
    (r - x).Admits ε (w - v) := by
  rw [sub_eq_add_neg, add_comm]
  exact h.neg.addInterval hε hw

end AffineArithmetic.AffineForm

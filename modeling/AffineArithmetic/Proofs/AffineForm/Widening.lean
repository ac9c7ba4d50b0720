import AffineArithmetic.Proofs.AffineForm.Square
import AffineArithmetic.Proofs.AffineForm.Step
import AffineArithmetic.Proofs.Linear.Inclusion

/-!
# Wider operands have wider results

Over exact numbers linear forms that differ in their errors alone have results that differ in their
errors alone, and the larger errors give the larger ones. Only a square may leave the linear part
for the narrower form and keep it for the wider one: then the square of the interval lies within the
product of the form with itself, which grows with the error.
-/

namespace AffineArithmetic.AffineForm

open Scalar

variable {K : Type} [Field K] [LinearOrder K] {x x' y y' : AffineForm (Extended K)}
  {a b d : Extended K} {r : Interval (Extended K)}

/-- The forms are linear with the same entries, and the error of the second one is at least as
large. -/
def Widens (x x' : AffineForm (Extended K)) : Prop :=
  ∃ p p' : Linear K, x = active p.lift ∧ x' = active p'.lift ∧ p.Widens p'

/-- Proper forms with the same entries and comparable errors. -/
theorem widens_active {l l' : Linear (Extended K)} (hl : IsProper (active l))
    (hl' : IsProper (active l')) (hentries : l.entries = l'.entries) (he : l.error ≤ l'.error) :
    Widens (active l) (active l') := by
  obtain ⟨p, rfl, hp⟩ := hl.exists_lift
  obtain ⟨p', rfl, -⟩ := hl'.exists_lift
  obtain ⟨hc, hcs⟩ := List.cons.inj hentries
  have hfinite : Function.Injective (Extended.finite (K := K)) := fun _ _ ↦ Extended.finite.inj
  refine ⟨p, p', rfl, rfl, ⟨(hfinite hc).symm, ?_, hp, he⟩⟩
  exact (List.map_injective_iff.mpr hfinite hcs).symm

/-- Both forms are proper. -/
theorem Widens.isProper (h : Widens x x') : IsProper x ∧ IsProper x' := by
  obtain ⟨p, p', rfl, rfl, hp⟩ := h
  exact ⟨isProper_lift hp.nonneg, isProper_lift hp.nonneg'⟩

/-- Settling changes neither form. -/
theorem Widens.settle (h : Widens x x') : Widens x.settle x'.settle := by
  obtain ⟨hx, hx'⟩ := h.isProper
  rwa [hx.settle_eq, hx'.settle_eq]

variable [IsStrictOrderedRing K]

/-- The wider form encloses all values of the other one. -/
theorem Widens.isSubset (h : Widens x x') : x.toInterval.isSubset x'.toInterval = true := by
  obtain ⟨p, p', rfl, rfl, hp⟩ := h
  exact hp.isSubset

/-! ### Linear operations -/

/-- Multiples of the wider form are wider. -/
theorem Widens.scaleStep (h : Widens x x') (ha : isFinite a = true) :
    Widens (x.scaleStep a) (x'.scaleStep a) := by
  obtain ⟨p, p', rfl, rfl, hp⟩ := h
  obtain ⟨a, rfl⟩ := Extended.isFinite_iff.mp ha
  exact ⟨_, _, scaleStep_lift p a, scaleStep_lift p' a, hp.multiple a⟩

/-- The wider form stays wider when both are shifted. -/
theorem Widens.shiftStep (h : Widens x x') (hb : isFinite b = true) :
    Widens (x.shiftStep b) (x'.shiftStep b) := by
  obtain ⟨p, p', rfl, rfl, hp⟩ := h
  obtain ⟨b, rfl⟩ := Extended.isFinite_iff.mp hb
  exact ⟨_, _, shiftStep_lift p b, shiftStep_lift p' b, hp.ballSum le_rfl le_rfl⟩

/-- The wider form stays wider when both are widened. -/
theorem Widens.widenStep (h : Widens x x') (hd : isFinite d = true) :
    Widens (x.widenStep d) (x'.widenStep d) := by
  obtain ⟨p, p', rfl, rfl, hp⟩ := h
  obtain ⟨d, rfl⟩ := Extended.isFinite_iff.mp hd
  exact ⟨_, _, widenStep_lift p d, widenStep_lift p' d, hp.ballSum (abs_nonneg d) le_rfl⟩

/-- The opposite of the wider form is wider. -/
theorem Widens.neg (h : Widens x x') : Widens (-x) (-x') := by
  obtain ⟨hx, hx'⟩ := h.isProper
  rw [← scaleStep_opposite hx.isFinite, ← scaleStep_opposite hx'.isFinite]
  exact h.scaleStep rfl

private theorem widens_addStep_of_gt {p p' q q' : Linear K} (hp : p.Widens p') (hq : q.Widens q')
    (h : q.size < p.size) : Widens ((active p.lift).addStep (active q.lift))
      ((active p'.lift).addStep (active q'.lift)) := by
  have h' : q'.size < p'.size := by rwa [hp.size_eq, hq.size_eq]
  refine ⟨_, _, addStep_lift_of_gt h hq.nonneg, addStep_lift_of_gt h' hq.nonneg', ?_⟩
  rw [hq.center, hq.coeffs]
  exact hp.ballSum (Linear.radius_nonneg hq.nonneg) (add_le_add le_rfl hq.le)

/-- Sums of wider forms are wider. -/
theorem Widens.addStep (h : Widens x x') (h' : Widens y y') :
    Widens (x.addStep y) (x'.addStep y') := by
  obtain ⟨p, p', rfl, rfl, hp⟩ := h
  obtain ⟨q, q', rfl, rfl, hq⟩ := h'
  rcases Nat.lt_trichotomy p.size q.size with hlt | heq | hgt
  · rw [addStep_comm, addStep_comm (active p'.lift)]
    exact widens_addStep_of_gt hq hp hlt
  · have heq' : p'.size = q'.size := by rwa [hp.size_eq, hq.size_eq]
    exact ⟨_, _, addStep_lift_of_eq heq, addStep_lift_of_eq heq', hp.plus hq⟩
  · exact widens_addStep_of_gt hp hq hgt

/-- The wider form stays wider when a wider form or none is added. -/
theorem Widens.elim_addStep (h : Widens x x') {o o' : Option (AffineForm (Extended K))}
    (ho : o.Rel Widens o') : Widens (o.elim x x.addStep) (o'.elim x' x'.addStep) := by
  cases ho with
  | none => exact h
  | some hy => exact h.addStep hy

/-- Sums of wider forms are wider. -/
theorem Widens.add (h : Widens x x') (h' : Widens y y') : Widens (x + y) (x' + y') :=
  (h.addStep h').settle

/-- Differences of wider forms are wider. -/
theorem Widens.sub (h : Widens x x') (h' : Widens y y') : Widens (x - y) (x' - y') := by
  obtain ⟨hx, hx'⟩ := h.isProper
  rw [AffineForm.sub_eq_add_neg hx.isFinite, AffineForm.sub_eq_add_neg hx'.isFinite]
  exact h.add h'.neg

/-- Updates of wider forms are wider, if a wider form or none is added. -/
theorem Widens.update (h : Widens x x') {u : Update (Extended K)} (hu : u.IsFinite)
    {o o' : Option (AffineForm (Extended K))} (ho : o.Rel Widens o') :
    Widens (x.update { u with add := o }) (x'.update { u with add := o' }) := by
  have hscale := elim_rel h fun a ha ↦ h.scaleStep (hu.scale ha)
  have hadd := hscale.elim_addStep ho
  have hshift := elim_rel hadd fun b hb ↦ hadd.shiftStep (hu.shift hb)
  have hsteps := elim_rel hshift fun d hd ↦ hshift.widenStep (hu.widen hd)
  exact hsteps.settle

/-! ### Products -/

private theorem widens_mul_of_gt {p p' q q' : Linear K} (hp : p.Widens p') (hq : q.Widens q')
    (h : q.size < p.size) :
    Widens (active p.lift * active q.lift) (active p'.lift * active q'.lift) := by
  have h' : q'.size < p'.size := by rwa [hp.size_eq, hq.size_eq]
  refine ⟨_, _, mul_lift_of_gt h hq.nonneg, mul_lift_of_gt h' hq.nonneg', ?_⟩
  rw [hq.center, hq.coeffs]
  exact hp.ballProduct (Linear.radius_nonneg hq.nonneg) (add_le_add le_rfl hq.le)

/-- Products of wider forms are wider. -/
theorem Widens.mul (h : Widens x x') (h' : Widens y y') : Widens (x * y) (x' * y') := by
  obtain ⟨p, p', rfl, rfl, hp⟩ := h
  obtain ⟨q, q', rfl, rfl, hq⟩ := h'
  rcases Nat.lt_trichotomy p.size q.size with hlt | heq | hgt
  · rw [AffineForm.mul_comm, AffineForm.mul_comm (active p'.lift)]
    exact widens_mul_of_gt hq hp hlt
  · have heq' : p'.size = q'.size := by rwa [hp.size_eq, hq.size_eq]
    exact ⟨_, _, mul_lift_of_eq heq, mul_lift_of_eq heq', hp.product hq⟩
  · exact widens_mul_of_gt hp hq hgt

/-- The product of the wider form with an interval encloses that of the other one. -/
theorem Widens.mul_interval_isSubset (h : Widens x x') (hr : r.IsProper) :
    (x * r).toInterval.isSubset (x' * r).toInterval = true := by
  cases hb : r.isBounded with
  | true =>
    obtain ⟨p, p', rfl, rfl, hp⟩ := h
    obtain ⟨m, ρ, hρ, rfl⟩ := Interval.exists_ball hr hb
    rw [mul_ball p hρ, mul_ball p' hρ]
    exact (hp.ballProduct hρ le_rfl).isSubset
  | false =>
    have hmul : ∀ z : AffineForm (Extended K), (z * r).toInterval = z.toInterval * r := by
      intro z
      rw [← toInterval_ofInterval (Interval.isProper_mul z.toInterval r)]
      exact congrArg toInterval (mulInterval_of_not_isBounded hb)
    rw [hmul x, hmul x']
    exact Interval.isSubset_mul (toInterval_isProper x) hr h.isSubset hr.isSubset_self

/-! ### Squares -/

/-- Where the interval is preferred for squaring the wider form, it is so for the other one. -/
theorem Widens.squaresAsInterval (h : Widens x x') (hs : x'.squaresAsInterval = true) :
    x.squaresAsInterval = true := by
  obtain ⟨p, p', rfl, rfl, hp⟩ := h
  rw [squaresAsInterval_lift hp.nonneg', decide_eq_true_iff] at hs
  rw [squaresAsInterval_lift hp.nonneg, decide_eq_true_iff]
  have hle : (active p.lift).toInterval.width ≤ (active p'.lift).toInterval.width := by
    rw [toInterval, toInterval, Linear.toInterval_lift hp.nonneg, Linear.toInterval_lift hp.nonneg',
      Interval.width_ball (Linear.radius_nonneg hp.nonneg),
      Interval.width_ball (Linear.radius_nonneg hp.nonneg'), hp.coeffs]
    exact mul_le_mul_of_nonneg_left (add_le_add le_rfl hp.le) zero_le_two
  exact ⟨Extended.le_trans hle hs.1, fun h ↦ hs.2 (Extended.le_trans h hle)⟩

/-- The square of the wider form encloses that of the other one. -/
theorem Widens.sqr_isSubset (h : Widens x x') :
    x.sqr.toInterval.isSubset x'.sqr.toInterval = true := by
  cases hs : x'.squaresAsInterval with
  | true =>
    rw [sqr_of_squaresAsInterval hs, sqr_of_squaresAsInterval (h.squaresAsInterval hs),
      toInterval_ofInterval (Interval.isProper_pow (toInterval_isProper _) 2),
      toInterval_ofInterval (Interval.isProper_pow (toInterval_isProper _) 2)]
    exact Interval.isSubset_pow (toInterval_isProper x) h.isSubset 2
  | false =>
    -- the other form may be squared as an interval, so the products are compared instead
    have hsqr : x'.sqr = x' * x' := by
      obtain ⟨p, p', rfl, rfl, -⟩ := h
      rw [sqr_lift hs, mul_lift_of_eq rfl]
    rw [hsqr]
    exact Interval.isSubset_trans (toInterval_isProper _) (sqr_isSubset_mul_self h.isProper.1)
      (h.mul h).isSubset

/-- Over exact numbers widening the errors of operands never shrinks a result. If linear forms over
any symbols get larger errors with the same entries, their sum, difference and product, their
square, their product with any interval and their updates enclose all values that they enclosed
before. -/
theorem widening_isSubset {l l' k k' : Linear (Extended K)} (hl : IsProper (active l))
    (hl' : IsProper (active l')) (hk : IsProper (active k)) (hk' : IsProper (active k'))
    (hle : l.entries = l'.entries) (herr : l.error ≤ l'.error)
    (hke : k.entries = k'.entries) (herr' : k.error ≤ k'.error) :
    ((active l + active k).toInterval.isSubset (active l' + active k').toInterval = true ∧
      (active l - active k).toInterval.isSubset (active l' - active k').toInterval = true ∧
      (active l * active k).toInterval.isSubset (active l' * active k').toInterval = true) ∧
    (active l).sqr.toInterval.isSubset (active l').sqr.toInterval = true ∧
    (∀ r : Interval (Extended K), r.IsProper →
      (active l * r).toInterval.isSubset (active l' * r).toInterval = true) ∧
    ∀ u : Update (Extended K), u.IsFinite →
      ((active l).update { u with add := none }).toInterval.isSubset
        ((active l').update { u with add := none }).toInterval = true ∧
      ((active l).update { u with add := some (active k) }).toInterval.isSubset
        ((active l').update { u with add := some (active k') }).toInterval = true := by
  have hx : Widens (active l) (active l') := widens_active hl hl' hle herr
  have hy : Widens (active k) (active k') := widens_active hk hk' hke herr'
  refine ⟨⟨(hx.add hy).isSubset, (hx.sub hy).isSubset, (hx.mul hy).isSubset⟩, hx.sqr_isSubset,
    fun r hr ↦ hx.mul_interval_isSubset hr, fun u hu ↦ ⟨?_, ?_⟩⟩
  · exact (hx.update hu .none).isSubset
  · exact (hx.update hu (.some hy)).isSubset

/-- The number 1, over one noise symbol. -/
def exactOne : Linear (Extended ℚ) := ⟨.finite 1, [.finite 0], .finite 0⟩

/-- The numbers from 0 to 2, over one noise symbol and with an error of 1. -/
def widenedOne : Linear (Extended ℚ) := ⟨.finite 1, [.finite 0], .finite 1⟩

/-- The number 1 is squared as an interval, and with an error of 1 as a linear form. The square of
the wider form encloses that of the other one, as its product with the numbers from -5 to -1
does. -/
theorem widening_isSubset_of_squaresAsInterval :
    (active exactOne).squaresAsInterval = true ∧ (active widenedOne).squaresAsInterval = false ∧
      (active exactOne).sqr.toInterval = .ofScalar (.finite 1) ∧
      (active widenedOne).sqr.toInterval = .ofBounds (.finite (-2)) (.finite 4) ∧
      (active exactOne).sqr.toInterval.isSubset (active widenedOne).sqr.toInterval = true ∧
      (active exactOne * active minusFiveToMinusOne).toInterval.isSubset
        (active widenedOne * active minusFiveToMinusOne).toInterval = true := by
  have hexact : IsProper (active exactOne) := ⟨by decide, by decide +kernel⟩
  have hwidened : IsProper (active widenedOne) := ⟨by decide, by decide +kernel⟩
  have hk : IsProper (active minusFiveToMinusOne) := ⟨by decide, by decide +kernel⟩
  obtain ⟨⟨-, -, hmul⟩, hsqr, -⟩ := widening_isSubset hexact hwidened hk hk rfl
    (by decide +kernel) rfl (by decide +kernel)
  exact ⟨by decide +kernel, by decide +kernel, by decide +kernel, by decide +kernel, hsqr, hmul⟩

end AffineArithmetic.AffineForm

import AffineArithmetic.Proofs.AffineForm.Exact
import AffineArithmetic.Proofs.AffineForm.Step
import AffineArithmetic.Proofs.Linear.Inclusion

/-!
# Linear operations are tight

Over exact numbers a linear operation on forms encloses no more than interval arithmetic makes of
the enclosed intervals. Every step of an update computes the interval that interval arithmetic
computes, whatever it does to the linear part, with one exception: in a sum of forms over the same
noise symbols coefficients may cancel.
-/

namespace AffineArithmetic

open Scalar

/-- The steps of the update in interval arithmetic. -/
def Update.onInterval {α : Type} [Scalar α] (u : Update α) (i : Interval α) : Interval α :=
  let i := u.scale.elim i fun a ↦ i * a
  let i := u.add.elim i fun y ↦ i + y.toInterval
  let i := u.shift.elim i fun b ↦ i + b
  u.widen.elim i fun d ↦ i + (Interval.noise : Interval α) * d

namespace AffineForm

/-! ### Forms without common symbols -/

section Apart

variable {α : Type} [Scalar α] {x y : AffineForm α} {p q : Linear α} {a : α}

/-- One of the forms is not linear, the numbers of noise symbols differ, or there are none. -/
def Apart (x y : AffineForm α) : Prop :=
  x.isActive = false ∨ y.isActive = false ∨ x.size? ≠ y.size? ∨ x.size? = some 0

omit [Scalar α] in
/-- Linear forms over the same symbols are apart only if there are none. -/
theorem Apart.size_eq_zero (h : Apart (active p) (active q)) (heq : p.size = q.size) :
    p.size = 0 := by
  rcases h with h | h | h | h
  · contradiction
  · contradiction
  · exact absurd (congrArg some heq) h
  · exact Option.some.inj h

/-- The form of an interval has no symbols. -/
theorem apart_ofInterval (i : Interval α) (y : AffineForm α) : Apart (ofInterval i) y := by
  rcases ofInterval_cases i with
    ⟨-, heq⟩ | ⟨-, ⟨-, -, heq⟩ | ⟨-, -, heq⟩ | ⟨-, -, heq⟩ | ⟨-, heq⟩⟩ <;> rw [heq]
  · exact .inl rfl
  · exact .inl rfl
  · exact .inl rfl
  · exact .inl rfl
  · exact .inr (.inr (.inr rfl))

/-- Scaling adds no symbols. -/
theorem Apart.scaleStep (h : Apart x y) (a : α) : Apart (x.scaleStep a) y := by
  rcases active_or_not x (isFinite a) with ⟨p, rfl, ha⟩ | hx
  · have hsize : (active (p.scale a)).size? = (active p).size? :=
      congrArg some (Linear.size_scale p a)
    rw [scaleStep_of_isFinite ha, Apart, hsize]
    exact h
  · rw [scaleStep_of_not hx]
    exact apart_ofInterval _ y

/-- The scaling of an update adds no symbols. -/
theorem Apart.scaled (h : Apart x y) (scale : Option α) :
    Apart (scale.elim x x.scaleStep) y := by
  cases scale with
  | none => exact h
  | some a => exact h.scaleStep a

/-- The opposite form is over the same symbols. -/
theorem Apart.neg (h : Apart x y) : Apart x (-y) := by
  have hsize : (-y).size? = y.size? := by
    cases y with
    | active q => exact congrArg some (Linear.size_neg q)
    | _ => rfl
  rw [Apart, neg_isActive, hsize]
  exact h

end Apart

/-! ### Tight enclosures -/

variable {K : Type} [Field K] [LinearOrder K] {x x' y : AffineForm (Extended K)}
  {i j : Interval (Extended K)} {a b d : Extended K} {p q : Linear K} {e : Prop}

/-- The form is proper and encloses no more than the interval; where `e` holds it encloses just the
interval. -/
structure Tight (e : Prop) (x : AffineForm (Extended K)) (i : Interval (Extended K)) : Prop where
  proper : IsProper x
  isSubset : x.toInterval.isSubset i = true
  eq : e → x.toInterval = i

variable [IsStrictOrderedRing K]

/-- Forms are tight around the intervals that they enclose. -/
theorem IsProper.tight (h : IsProper x) (hi : x.toInterval = i) : Tight e x i where
  proper := h
  isSubset := hi ▸ (toInterval_isProper x).isSubset_self
  eq _ := hi

/-- The form of an interval is tight. -/
theorem tight_ofInterval (hi : i.IsProper) : Tight e (ofInterval i) i :=
  (isProper_ofInterval hi).tight (toInterval_ofInterval hi)

/-- What is tight around a sum with the enclosed interval is so around the sum with the interval. -/
theorem Tight.add (h : Tight e x i) (hj : j.IsProper) (h' : Tight e x' (x.toInterval + j)) :
    Tight e x' (i + j) where
  proper := h'.proper
  isSubset := Interval.isSubset_trans (toInterval_isProper x') h'.isSubset
    (Interval.isSubset_add (toInterval_isProper x) hj h.isSubset hj.isSubset_self)
  eq he := (h'.eq he).trans (congrArg (· + j) (h.eq he))

/-! ### Steps -/

/-- A multiple is tight around the multiple of the interval. -/
theorem tight_scaleStep (hx : IsProper x) (ha : isFinite a = true) :
    Tight e (x.scaleStep a) (x.toInterval * a) := by
  obtain ⟨a, rfl⟩ := Extended.isFinite_iff.mp ha
  rcases hx.lift_or_not with ⟨p, rfl, hp⟩ | hx'
  · rw [scaleStep_lift]
    exact (isProper_lift (Linear.error_multiple_nonneg hp a)).tight
      (Linear.toInterval_multiple hp a)
  · rw [scaleStep_of_not (.inl hx')]
    exact tight_ofInterval (Interval.isProper_mul _ _)

/-- A linear sum with a ball is tight around the sum of the interval with the ball. -/
theorem tight_ballSum {m ρ : K} (hp : 0 ≤ p.error) (hρ : 0 ≤ ρ) :
    Tight e (active (p.ballSum m ρ).lift) ((active p.lift).toInterval + Interval.ball m ρ) :=
  (isProper_lift (add_nonneg hp hρ)).tight (Linear.toInterval_ballSum hp hρ)

/-- A shifted form is tight around the shifted interval. -/
theorem tight_shiftStep (hx : IsProper x) (hb : isFinite b = true) :
    Tight e (x.shiftStep b) (x.toInterval + b) := by
  obtain ⟨b, rfl⟩ := Extended.isFinite_iff.mp hb
  rcases hx.lift_or_not with ⟨p, rfl, hp⟩ | hx'
  · rw [shiftStep_lift]
    change Tight e _ ((active p.lift).toInterval + Interval.ofScalar (.finite b))
    rw [Interval.ofScalar_eq_ball]
    exact tight_ballSum hp le_rfl
  · rw [shiftStep_of_not (.inl hx')]
    exact tight_ofInterval (Interval.isProper_add _ _)

/-- A widened form is tight around the widened interval. -/
theorem tight_widenStep (hx : IsProper x) (hd : isFinite d = true) :
    Tight e (x.widenStep d) (x.toInterval + (Interval.noise : Interval (Extended K)) * d) := by
  obtain ⟨d, rfl⟩ := Extended.isFinite_iff.mp hd
  rcases hx.lift_or_not with ⟨p, rfl, hp⟩ | hx'
  · rw [widenStep_lift, Interval.noise_mul_finite]
    exact tight_ballSum hp (abs_nonneg d)
  · rw [widenStep_of_not (.inl hx')]
    exact tight_ofInterval (Interval.isProper_add _ _)

private theorem tight_addStep_of_gt (h : q.size < p.size) (hp : 0 ≤ p.error) (hq : 0 ≤ q.error) :
    Tight e ((active p.lift).addStep (active q.lift))
      ((active p.lift).toInterval + (active q.lift).toInterval) := by
  have hball : (active q.lift).toInterval = .ball q.center (Linear.spread q.coeffs + q.error) :=
    Linear.toInterval_lift hq
  rw [addStep_lift_of_gt h hq, hball]
  exact tight_ballSum hp (Linear.radius_nonneg hq)

/-- A sum is tight around the sum of the intervals if the forms are apart. -/
theorem tight_addStep (hx : IsProper x) (hy : IsProper y) (he : e → Apart x y) :
    Tight e (x.addStep y) (x.toInterval + y.toInterval) := by
  rcases active_active_or_not x y with ⟨l, k, rfl, rfl⟩ | h
  · obtain ⟨p, rfl, hp⟩ := hx.exists_lift
    obtain ⟨q, rfl, hq⟩ := hy.exists_lift
    rcases Nat.lt_trichotomy p.size q.size with hlt | heq | hgt
    · rw [addStep_comm, Interval.add_comm]
      exact tight_addStep_of_gt hlt hq hp
    · -- coefficients of opposite signs cancel, and only without symbols there are none
      rw [addStep_lift_of_eq heq]
      refine ⟨isProper_lift (add_nonneg hp hq), Linear.toInterval_plus_isSubset hp hq, fun h ↦ ?_⟩
      have hsize : p.size = 0 := by simpa using (he h).size_eq_zero (by simpa using heq)
      exact Linear.toInterval_plus_of_size_eq_zero hp hq hsize (heq ▸ hsize)
    · exact tight_addStep_of_gt hgt hp hq
  · rw [addStep_of_not_active h]
    exact tight_ofInterval (Interval.isProper_add _ _)

/-! ### Updates -/

/-- An update is tight around the update of the enclosed interval if the form that it adds is
apart. -/
theorem tight_update (hx : IsProper x) {u : Update (Extended K)} (hu : u.IsFinite)
    (hy : ∀ y, u.add = some y → IsProper y) (he : e → ∀ y, u.add = some y → Apart x y) :
    Tight e (x.update u) (u.onInterval x.toInterval) := by
  have hself : Tight e x x.toInterval := hx.tight rfl
  have hscale := elim_rel hself fun a ha ↦ tight_scaleStep hx (hu.scale ha)
  have hadd := elim_rel hscale fun y hsome ↦ hscale.add (toInterval_isProper y)
    (tight_addStep hscale.proper (hy y hsome) fun h ↦ (he h y hsome).scaled u.scale)
  have hshift := elim_rel hadd fun b hb ↦ hadd.add (Interval.isProper_scalar (hu.shift hb))
    (tight_shiftStep hadd.proper (hu.shift hb))
  have hsteps : Tight e (x.applySteps u) (u.onInterval x.toInterval) :=
    elim_rel hshift fun d hd ↦ hshift.add (Interval.isProper_mul _ _)
      (tight_widenStep hshift.proper (hu.widen hd))
  change Tight e (x.applySteps u).settle _
  rw [hsteps.proper.settle_eq]
  exact hsteps

/-- A sum is tight around the sum of the intervals if the forms are apart. -/
theorem tight_add (hx : IsProper x) (hy : IsProper y) (he : e → Apart x y) :
    Tight e (x + y) (x.toInterval + y.toInterval) := by
  have hsum := tight_addStep hx hy he
  change Tight e (x.addStep y).settle _
  rw [hsum.proper.settle_eq]
  exact hsum

/-- A difference is tight around the difference of the intervals if the forms are apart. -/
theorem tight_sub (hx : IsProper x) (hy : IsProper y) (he : e → Apart x y) :
    Tight e (x - y) (x.toInterval - y.toInterval) := by
  have hadd := tight_add hx hy.neg fun h ↦ (he h).neg
  rw [AffineForm.sub_eq_add_neg hx.isFinite]
  rwa [neg_toInterval] at hadd

/-- Over exact numbers linear operations are never wider than interval arithmetic. Sums, differences
and updates of forms in any states enclose at most what interval arithmetic makes of the enclosed
intervals, and just that if no form is added or the one that is added is apart: one of the two is
not linear, or the numbers of noise symbols differ. -/
theorem linear_isSubset (hx : IsProper x) (hy : IsProper y) :
    ((x + y).toInterval.isSubset (x.toInterval + y.toInterval) = true ∧
      (x - y).toInterval.isSubset (x.toInterval - y.toInterval) = true) ∧
    (Apart x y → (x + y).toInterval = x.toInterval + y.toInterval ∧
      (x - y).toInterval = x.toInterval - y.toInterval) ∧
    ∀ u : Update (Extended K), u.IsFinite → (∀ z, u.add = some z → IsProper z) →
      (x.update u).toInterval.isSubset (u.onInterval x.toInterval) = true ∧
      ((∀ z, u.add = some z → Apart x z) →
        (x.update u).toInterval = u.onInterval x.toInterval) := by
  have hadd := tight_add (e := Apart x y) hx hy id
  have hsub := tight_sub (e := Apart x y) hx hy id
  refine ⟨⟨hadd.isSubset, hsub.isSubset⟩, fun h ↦ ⟨hadd.eq h, hsub.eq h⟩, ?_⟩
  intro u hu hz
  have hupdate := tight_update (e := ∀ z, u.add = some z → Apart x z) hx hu hz id
  exact ⟨hupdate.isSubset, hupdate.eq⟩

/-- The numbers from 0 to 2, around 1 and over one noise symbol. -/
def zeroToTwo : Linear (Extended ℚ) := ⟨.finite 1, [.finite 1], .finite 0⟩

/-- A scaled, shifted and widened sum with the half line from -1 on. -/
def halfLineUpdate : Update (Extended ℚ) where
  scale := some (.finite (-2))
  add := some (boundedBelow (.finite (-1)))
  shift := some (.finite 3)
  widen := some (.finite 1)

/-- The difference of a form over one symbol with itself is 0, where that of the intervals goes from
-2 to 2. An update that adds a half line gives just the half line of interval arithmetic. -/
theorem linear_isSubset_of_cancelling :
    ((active zeroToTwo - active zeroToTwo).toInterval = .ofScalar (.finite 0) ∧
      (active zeroToTwo).toInterval - (active zeroToTwo).toInterval =
        .ofBounds (.finite (-2)) (.finite 2) ∧
      (active zeroToTwo - active zeroToTwo).toInterval.isSubset
        ((active zeroToTwo).toInterval - (active zeroToTwo).toInterval) = true) ∧
    ((active zeroToTwo).update halfLineUpdate).toInterval =
        halfLineUpdate.onInterval (active zeroToTwo).toInterval ∧
      halfLineUpdate.onInterval (active zeroToTwo).toInterval =
        .ofBounds (.finite (-3)) .posInf := by
  have hx : IsProper (active zeroToTwo) := ⟨by decide, by decide +kernel⟩
  obtain ⟨⟨-, hsub⟩, -, hupdate⟩ := linear_isSubset hx hx
  have hu : halfLineUpdate.IsFinite := by
    constructor <;> rintro _ ⟨⟩ <;> rfl
  obtain ⟨-, heq⟩ := hupdate halfLineUpdate hu (by rintro _ ⟨⟩; rfl)
  refine ⟨⟨by decide +kernel, by decide +kernel, hsub⟩, heq ?_, by decide +kernel⟩
  rintro _ ⟨⟩
  exact .inr (.inl rfl)

end AffineForm
end AffineArithmetic

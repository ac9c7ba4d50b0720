import AffineArithmetic.AffineForm.Assign
import AffineArithmetic.Proofs.AffineForm.Invariant

/-!
# What reachable forms look like

The error that an operation looks at before it settles its result is undefined or at least 0, and
the error of a reachable linear form is at least 0. Reachable forms have finite entries and finite
bounds, so none of their numbers is undefined but the midpoint of the empty set.
-/

namespace AffineArithmetic.AffineForm

open Binary64 Scalar

/-! ### Errors before settling -/

/-- An operation on reachable forms settles the first form and has the second one as result. -/
inductive Settles (limit : ℕ) : AffineForm Float → AffineForm Float → Prop
  /-- A linear update. -/
  | update {x : AffineForm Float} (hx : Reachable limit x) (u : Update Float)
      (hu : ∀ y, u.add = some y → Reachable limit y) : Settles limit (x.applySteps u) (x.update u)
  /-- The sum with an interval. -/
  | addInterval {x : AffineForm Float} (hx : Reachable limit x) {r : Interval Float}
      (hr : r.Reachable) : Settles limit (x.addIntervalSteps r) (x + r)
  /-- The sum with the interval of a form within a linear update, after scaling. -/
  | addFolded {x y : AffineForm Float} (hx : Reachable limit x) (hy : Reachable limit y)
      (a : Option Float) {p q l : Linear Float} {r : Interval Float}
      (hp : a.elim x x.scaleStep = active p) (hq : y = active q)
      (hm : p.matchWith q = .folded l r) :
      Settles limit ((active l).addIntervalSteps r) ((active p).addStep (active q))
  /-- The product with an interval. -/
  | mulInterval {l : Linear Float} (hl : Reachable limit (active l)) {r : Interval Float}
      (hr : r.Reachable) (hb : r.isBounded = true) :
      Settles limit (active (l.mulInterval r)) (active l * r)
  /-- The product of forms over the same symbols. -/
  | mulAligned {p q l m : Linear Float} (hp : Reachable limit (active p))
      (hq : Reachable limit (active q)) (hm : p.matchWith q = .aligned l m) :
      Settles limit (active (l * m)) (active p * active q)
  /-- The product with the interval of a form. -/
  | mulFolded {p q l : Linear Float} {r : Interval Float} (hp : Reachable limit (active p))
      (hq : Reachable limit (active q)) (hm : p.matchWith q = .folded l r)
      (hb : r.isBounded = true) :
      Settles limit (active (l.mulInterval r)) (active p * active q)
  /-- The square. -/
  | sqr {l : Linear Float} (hl : Reachable limit (active l))
      (hs : (active l).squaresAsInterval = false) :
      Settles limit (active l.sqr) (active l).sqr

variable {limit : ℕ} {x y z w : AffineForm Float}

/-! ### Operators

Every operator is a sequence of the operations that define reachable forms. -/

/-- The interval of a form can be an operand. -/
theorem reachable_toInterval (x : AffineForm Float) : x.toInterval.Reachable :=
  Interval.reachable_iff_isProper.mpr (isProper_toInterval x)

/-- Sums are reachable. -/
theorem Reachable.add (hx : Reachable limit x) (hy : Reachable limit y) :
    Reachable limit (x + y) := by
  refine hx.update _ fun z hz ↦ ?_
  cases hz
  exact hy

/-- Differences are reachable. -/
theorem Reachable.sub (hx : Reachable limit x) (hy : Reachable limit y) :
    Reachable limit (x - y) := by
  refine (hx.update _ fun z hz ↦ ?_).neg
  cases hz
  exact hy

/-- Sums with scalars are reachable. -/
theorem Reachable.addScalar (hx : Reachable limit x) (d : Float) : Reachable limit (x + d) :=
  hx.update _ fun _ hz ↦ nomatch hz

/-- Differences with scalars are reachable. -/
theorem Reachable.subScalar (hx : Reachable limit x) (d : Float) :
    Reachable limit (x - d) ∧ Reachable limit (d - x) :=
  ⟨hx.update _ (fun _ hz ↦ nomatch hz), hx.neg.addScalar d⟩

/-- Products with scalars are reachable. -/
theorem Reachable.mulScalar (hx : Reachable limit x) (d : Float) : Reachable limit (x * d) :=
  hx.update _ fun _ hz ↦ nomatch hz

/-- Differences with intervals are reachable. -/
theorem Reachable.subInterval (hx : Reachable limit x) {r : Interval Float} (hr : r.Reachable) :
    Reachable limit (x - r) ∧ Reachable limit (r - x) :=
  ⟨hx.addInterval hr.neg, hx.neg.addInterval hr⟩

/-- Powers are reachable. -/
theorem Reachable.pow (hx : Reachable limit x) (n : ℕ) : Reachable limit (x.pow n) := by
  have hmul : IsMultiplicative fun x (_ : Unit) ↦ Reachable limit x :=
    { mul := fun hx hy ↦ hx.mul hy
      sqr := fun hx ↦ hx.sqr
      power_zero := fun {x _} hx ↦ by
        by_cases he : x = empty
        · rwa [he, empty_pow_zero, ← he]
        · rw [pow_zero_of_ne_empty he]
          exact .ofScalar Scalar.one }
  exact hmul.pow (u := ()) hx n

/-- A copy of a reachable form is reachable, whatever it replaces. -/
theorem Reachable.assignForm (x : AffineForm Float) (hy : Reachable limit y) :
    Reachable limit (x.assignForm y) := by
  rwa [assignForm_eq]

/-- What is assigned from a reachable interval is reachable. -/
theorem Reachable.assignInterval (x : AffineForm Float) {r : Interval Float} (hr : r.Reachable) :
    Reachable limit (x.assignInterval r) := by
  rw [assignInterval_eq]
  exact .ofInterval hr

/-- What is assigned from a scalar is reachable. -/
theorem Reachable.assignScalar (x : AffineForm Float) (d : Float) :
    Reachable limit (x.assignScalar d) := by
  rw [assignScalar_eq]
  exact .ofScalar d

/-! ### Errors from 0 on -/

/-- The result of the operation is the settled form. -/
theorem Settles.settle_eq (h : Settles limit z w) : z.settle = w := by
  cases h with
  | update hx u hu => rfl
  | addInterval hx hr => rfl
  | addFolded hx hy a hp hq hm =>
    rcases Linear.cases_of_folded hm with ⟨hlt, rfl, rfl⟩ | ⟨hgt, rfl, rfl⟩
    · exact (addStep_of_lt hlt).symm
    · exact (addStep_of_gt hgt).symm
  | mulInterval hl hr hb => exact (mulInterval_of_isBounded hb).symm
  | mulAligned hp hq hm =>
    obtain ⟨heq, rfl, rfl⟩ := Linear.cases_of_aligned hm
    exact (mul_of_eq heq).symm
  | mulFolded hp hq hm hb =>
    rcases Linear.cases_of_folded hm with ⟨hlt, rfl, rfl⟩ | ⟨hgt, rfl, rfl⟩
    · rw [mul_of_lt hlt, mulInterval_of_isBounded hb]
    · rw [mul_of_gt hgt, mulInterval_of_isBounded hb]
  | sqr hl hs => exact (sqr_of_linear hs).symm

/-- The form can be settled: what its error says is an error. -/
theorem Settles.settleable (h : Settles limit z w) : Settleable z := by
  cases h with
  | update hx u hu =>
    exact hx.valid.settleable.applySteps u fun y hy ↦ (hu y hy).valid.settleable
  | addInterval hx hr => exact hx.valid.settleable.addIntervalSteps _
  | @addFolded x y hx hy a p q l r hp hq hm =>
    have hp' : Settleable (active p) := by
      rw [← hp]
      cases a with
      | none => exact hx.valid.settleable
      | some a => exact hx.valid.settleable.scaleStep a
    have hq' : Settleable (active q) := hq ▸ hy.valid.settleable
    rcases Linear.cases_of_folded hm with ⟨-, rfl, rfl⟩ | ⟨-, rfl, rfl⟩
    · exact hq'.addIntervalSteps _
    · exact hp'.addIntervalSteps _
  | mulInterval hl hr hb => exact Linear.notNegative_error_mulInterval hl.valid.2 hr.isProper
  | mulAligned hp hq hm =>
    obtain ⟨heq, rfl, rfl⟩ := Linear.cases_of_aligned hm
    exact Linear.notNegative_error_mul hp.valid.1 hq.valid.1 heq hp.valid.2 hq.valid.2
  | @mulFolded p q _ _ hp hq hm hb =>
    rcases Linear.cases_of_folded hm with ⟨-, rfl, rfl⟩ | ⟨-, rfl, rfl⟩
    · exact Linear.notNegative_error_mulInterval hq.valid.2 (isProper_toInterval (active p))
    · exact Linear.notNegative_error_mulInterval hp.valid.2 (isProper_toInterval (active q))
  | sqr hl hs => exact Linear.notNegative_error_sqr hl.valid.1 hl.valid.2

/-- The error that an operation on reachable forms settles is undefined or at least 0, for forms
over any number of symbols, and reachable linear forms have an error of at least 0. -/
theorem reachable_error_nonneg (limit : ℕ) :
    (∀ z w, Settles limit z w → z.settle = w ∧
      ∀ l, z = active l → l.error.isNaN = true ∨ Scalar.zero ≤ l.error) ∧
    ∀ l, Reachable limit (active l) → Scalar.zero ≤ l.error := by
  refine ⟨fun z w h ↦ ⟨h.settle_eq, ?_⟩, ?_⟩
  · rintro l rfl
    exact h.settleable
  · intro l h
    obtain ⟨hf, he⟩ := h.valid
    obtain ⟨q, hq⟩ := scalar_isFinite_iff.mp (Linear.isFinite_iff.mp hf).1
    rw [le_iff, value_zero]
    exact he.le_value (by simp [hq])

/-- The square of a form on one symbol settles an error of at least 0. -/
theorem error_nonneg_of_sqr :
    Settles 2 (active (Linear.sqr ⟨1.5, [0.5], 0.0⟩)) (active ⟨1.5, [0.5], 0.0⟩).sqr ∧
      Scalar.zero ≤ (Linear.sqr (⟨1.5, [0.5], 0.0⟩ : Linear Float)).error := by
  have hl : Reachable 2 (active ⟨1.5, [0.5], 0.0⟩) := by
    rw [← show onSymbol 1 1 (.ofBounds 1.0 2.0) = active ⟨1.5, [0.5], 0.0⟩ by decide +kernel]
    exact .onSymbol (by decide) (by decide) (.ofBounds 1.0 2.0)
  have hs : Settles 2 (active (Linear.sqr ⟨1.5, [0.5], 0.0⟩)) (active ⟨1.5, [0.5], 0.0⟩).sqr :=
    .sqr hl (by decide +kernel)
  have hn : (Linear.sqr (⟨1.5, [0.5], 0.0⟩ : Linear Float)).error.isNaN ≠ true := by
    decide +kernel
  exact ⟨hs, (((reachable_error_nonneg 2).1 _ _ hs).2 _ rfl).resolve_left hn⟩

/-! ### Finite entries -/

/-- A linear form has entries, and they and the error are finite; a half line has a finite bound. -/
def WellFormed : AffineForm Float → Prop
  | active l => l.entries ≠ [] ∧ (∀ a ∈ l.entries, a.isFinite = true) ∧ l.error.isFinite = true
  | empty => True
  | allReals => True
  | boundedBelow b => b.isFinite = true
  | boundedAbove b => b.isFinite = true

/-- Valid forms are well-formed. -/
theorem Valid.wellFormed (h : Valid x) : WellFormed x := by
  cases x with
  | active l =>
    obtain ⟨he, hc, hcs⟩ := Linear.isFinite_iff.mp h.1
    refine ⟨List.cons_ne_nil _ _, ?_, he⟩
    intro a ha
    rcases List.mem_cons.mp ha with rfl | ha
    · exact hc
    · exact hcs a ha
  | _ => exact h

/-- The errors and bounds of well-formed forms are numbers. -/
theorem WellFormed.isNaN_error (h : WellFormed x) : x.error.isNaN = false := by
  cases x with
  | active l => exact isNaN_of_isFinite h.2.2
  | empty => decide
  | allReals => decide
  | boundedBelow b => exact isNaN_of_isFinite h
  | boundedAbove b => exact isNaN_of_isFinite h

/-- The entries of well-formed forms are numbers. -/
theorem WellFormed.isNaN_entry (h : WellFormed x) {i : ℕ} {a : Float} (ha : x.entry? i = some a) :
    a.isNaN = false := by
  cases x with
  | active l =>
    refine isNaN_of_isFinite (h.2.1 a ?_)
    exact List.mem_of_getElem? ha
  | _ => contradiction

/-- The midpoints of valid forms are numbers, except for that of the empty set. -/
theorem Valid.isNaN_midpoint (h : Valid x) : x.midpoint.isNaN = true ↔ x = empty := by
  constructor
  · intro hn
    cases x with
    | active l =>
      have hc := isNaN_of_isFinite (Linear.isFinite_iff.mp h.1).2.1
      rw [show (active l).midpoint = l.center from rfl, hc] at hn
      contradiction
    | empty => rfl
    | _ =>
      rw [isNaN_iff] at hn
      refine absurd hn ((isProper_toInterval _).midpoint_ne_nan ?_)
      rw [← Bool.not_eq_true, h.isEmpty_toInterval]
      exact fun he ↦ nomatch he
  · rintro rfl
    decide

/-- Reachable forms are well-formed, their entries, errors and bounds are numbers, and only the
empty set has no midpoint. -/
theorem reachable_wellFormed (h : Reachable limit x) :
    WellFormed x ∧ (∀ i a, x.entry? i = some a → a.isNaN = false) ∧ x.error.isNaN = false ∧
      x.toInterval.lower.isNaN = false ∧ x.toInterval.upper.isNaN = false ∧
      (x.midpoint.isNaN = true ↔ x = empty) := by
  have hw := h.valid.wellFormed
  obtain ⟨hl, hu⟩ := (isProper_toInterval x).ne_nan
  refine ⟨hw, fun i a ↦ hw.isNaN_entry, hw.isNaN_error, ?_, ?_, h.valid.isNaN_midpoint⟩
  · rwa [← Bool.not_eq_true, isNaN_iff]
  · rwa [← Bool.not_eq_true, isNaN_iff]

/-- Twice the form from 0 to the largest number on a noise symbol. -/
def twiceToLargest : AffineForm Float :=
  onSymbol 1 1 (.ofBounds 0 maxFinite) + onSymbol 1 1 (.ofBounds 0 maxFinite)

/-- A form whose centre and coefficient are the largest number is well-formed. Its entries and its
lower bound are numbers, although the upper bound overflows. -/
theorem wellFormed_add_of_overflow :
    Reachable 2 twiceToLargest ∧ twiceToLargest = active ⟨maxFinite, [maxFinite], 0⟩ ∧
      WellFormed twiceToLargest ∧
      (∀ i a, twiceToLargest.entry? i = some a → a.isNaN = false) ∧
      twiceToLargest.toInterval.upper = infinity ∧
      twiceToLargest.toInterval.lower.isNaN = false := by
  have hx : Reachable 2 (onSymbol 1 1 (.ofBounds 0 maxFinite)) :=
    .onSymbol (by decide) (by decide) (.ofBounds 0 maxFinite)
  have hsum : Reachable 2 twiceToLargest := hx.add hx
  obtain ⟨hw, hentries, -, hl, -, -⟩ := reachable_wellFormed hsum
  exact ⟨hsum, by decide +kernel, hw, hentries, by decide +kernel, hl⟩

end AffineArithmetic.AffineForm

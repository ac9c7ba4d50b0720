import AffineArithmetic.AffineForm.Reachable
import AffineArithmetic.Proofs.AffineForm.Basic
import AffineArithmetic.Proofs.Linear.Error

/-!
# The invariant of binary64 forms

Every operation keeps forms *valid*: a linear form is finite and its error is not negative, and a
half line has a finite bound. Within an operation entries may overflow; what is needed of the form
that is settled at its end is less, and every single step keeps it.
-/

namespace AffineArithmetic.AffineForm

open Binary64 Scalar

/-- The error of a linear form is not negative, and the bound of a half line is finite. -/
def Settleable : AffineForm Float → Prop
  | active l => NotNegative l.error
  | boundedBelow b => Scalar.isFinite b = true
  | boundedAbove b => Scalar.isFinite b = true
  | _ => True

/-- A linear form is finite, and its error is not negative; the bound of a half line is finite. -/
def Valid : AffineForm Float → Prop
  | active l => l.isFinite = true ∧ NotNegative l.error
  | boundedBelow b => Scalar.isFinite b = true
  | boundedAbove b => Scalar.isFinite b = true
  | _ => True

variable {x y : AffineForm Float} {i r : Interval Float} {a b d : Float}

/-- Valid forms can be settled. -/
theorem Valid.settleable (h : Valid x) : Settleable x := by
  cases x with
  | active l => exact h.2
  | _ => exact h

/-- Settling makes forms valid. -/
theorem Settleable.valid_settle (h : Settleable x) : Valid x.settle := by
  cases x with
  | active l =>
    by_cases hf : l.isFinite = true
    · rw [settle, if_pos hf]
      exact ⟨hf, h⟩
    · rw [settle, if_neg hf]
      trivial
  | _ => exact h

/-! ### Conversions -/

/-- The enclosed intervals are proper. -/
theorem isProper_toInterval (x : AffineForm Float) : x.toInterval.IsProper := by
  cases x with
  | active l => exact Interval.isProper_ofBounds _ _
  | empty => exact .inl rfl
  | allReals => exact Interval.isProper_univ
  | boundedBelow b => exact Interval.isProper_ofBounds _ _
  | boundedAbove b => exact Interval.isProper_ofBounds _ _

/-- A finite bound is in order with the infinity of the other side. -/
theorem inOrder_of_isFinite (h : Scalar.isFinite a = true) :
    Interval.InOrder a infinity ∧ Interval.InOrder (-infinity) a := by
  obtain ⟨q, hq⟩ := scalar_isFinite_iff.mp h
  rw [Interval.inOrder_iff, Interval.inOrder_iff, hq, value_neg, value_infinity]
  exact ⟨⟨by simp, by simp, by simp⟩, by simp, by simp, by simp⟩

/-- Only the empty form encloses nothing. -/
theorem Valid.isEmpty_toInterval (h : Valid x) : x.toInterval.isEmpty = true ↔ x = empty := by
  have hne : ∀ l u : Float, Interval.InOrder l u → (Interval.ofBounds l u).isEmpty ≠ true := by
    intro l u ho
    rw [(Interval.ofBounds_eq_of_inOrder ho).1]
    exact Bool.false_ne_true
  constructor
  · intro he
    cases x with
    | active l =>
      have hd := Linear.defined_of_isFinite h.1 h.2
      exact absurd he (hne _ _ (hd.inOrder_of_center (Linear.isFinite_iff.mp h.1).2.1))
    | empty => rfl
    | allReals => contradiction
    | boundedBelow b => exact absurd he (hne _ _ (inOrder_of_isFinite h).1)
    | boundedAbove b => exact absurd he (hne _ _ (inOrder_of_isFinite h).2)
  · rintro rfl
    exact Interval.isEmpty_empty

/-- Every other form encloses something. -/
theorem Valid.not_isEmpty_toInterval (h : Valid x) (hne : x ≠ empty) :
    x.toInterval.isEmpty = false := by
  rw [← Bool.not_eq_true]
  exact h.isEmpty_toInterval.not.mpr hne

/-- A valid form that is not linear is the form of its interval. -/
theorem Valid.ofInterval_toInterval (h : Valid x) (hx : x.isActive = false) :
    ofInterval x.toInterval = x := by
  cases x with
  | active l => contradiction
  | empty => exact if_pos Interval.isEmpty_empty
  | allReals => decide +kernel
  | boundedBelow b =>
    obtain ⟨ho, -⟩ := inOrder_of_isFinite h
    obtain ⟨q, hq⟩ := scalar_isFinite_iff.mp h
    have he : (⟨b, infinity⟩ : Interval Float).isEmpty = false := Interval.isEmpty_of_inOrder ho
    have hb : (⟨b, infinity⟩ : Interval Float).isUnboundedBelow = false := by
      rw [← Bool.not_eq_true, Interval.isUnboundedBelow_iff he, hq]
      simp
    have ha := (Interval.isUnboundedAbove_iff he).mpr value_infinity
    rw [toInterval, Interval.ofBounds_of_inOrder ho, ofInterval, he, hb, ha]
    rfl
  | boundedAbove b =>
    obtain ⟨-, ho⟩ := inOrder_of_isFinite h
    obtain ⟨q, hq⟩ := scalar_isFinite_iff.mp h
    have he : (⟨-infinity, b⟩ : Interval Float).isEmpty = false := Interval.isEmpty_of_inOrder ho
    have ha : (⟨-infinity, b⟩ : Interval Float).isUnboundedAbove = false := by
      rw [← Bool.not_eq_true, Interval.isUnboundedAbove_iff he, hq]
      simp
    have hb : (⟨-infinity, b⟩ : Interval Float).isUnboundedBelow = true := by
      rw [Interval.isUnboundedBelow_iff he, value_neg, value_infinity]
      rfl
    rw [toInterval, Interval.ofBounds_of_inOrder ho, ofInterval, he, hb, ha]
    rfl

/-- Forms of proper intervals are valid. -/
theorem valid_ofInterval (h : i.IsProper) : Valid (ofInterval i) := by
  rcases ofInterval_cases i with ⟨-, hi⟩ | ⟨he, hends⟩
  · rw [hi]
    trivial
  obtain ⟨hle, hl, hu⟩ := Interval.inOrder_iff.mp (h.inOrder he)
  obtain ⟨hln, hun⟩ := Extended.ne_nan_of_le hle
  rcases hends with ⟨-, -, hi⟩ | ⟨hb, -, hi⟩ | ⟨-, ha, hi⟩ | ⟨hbd, hi⟩ <;> rw [hi]
  · trivial
  · rw [← Bool.not_eq_true, Interval.isUnboundedBelow_iff he] at hb
    refine scalar_isFinite_iff.mpr ?_
    cases hv : value i.lower with
    | finite q => exact ⟨q, rfl⟩
    | posInf => exact absurd hv hl
    | negInf => exact absurd hv hb
    | nan => exact absurd hv hln
  · rw [← Bool.not_eq_true, Interval.isUnboundedAbove_iff he] at ha
    refine scalar_isFinite_iff.mpr ?_
    cases hv : value i.upper with
    | finite q => exact ⟨q, rfl⟩
    | posInf => exact absurd hv ha
    | negInf => exact absurd hv hu
    | nan => exact absurd hv hun
  · obtain ⟨hm, hr⟩ := h.isFinite_midpoint_radius hbd
    refine ⟨Linear.isFinite_iff.mpr ⟨hr, hm, ?_⟩, h.notNegative_radius⟩
    intro c hc
    exact absurd hc List.not_mem_nil

/-- Forms of scalars are valid. -/
theorem valid_ofScalar (d : Float) : Valid (ofScalar d) := by
  have hmax : Scalar.isFinite (maxFinite : Float) = true :=
    scalar_isFinite_iff.mpr ⟨_, value_maxFinite⟩
  have hmin : Scalar.isFinite (-maxFinite : Float) = true :=
    scalar_isFinite_iff.mpr ⟨_, by rw [value_neg, value_maxFinite]; rfl⟩
  unfold ofScalar
  split
  · next hd =>
    refine ⟨Linear.isFinite_iff.mpr ⟨isFinite_zero, hd, ?_⟩, notNegative_zero⟩
    intro c hc
    exact absurd hc List.not_mem_nil
  · split
    · exact hmax
    · split
      · exact hmin
      · trivial

/-- Forms on a noise symbol are valid. -/
theorem valid_onSymbol (size position : ℕ) (h : i.IsProper) : Valid (onSymbol size position i) := by
  unfold onSymbol
  split
  · next hb =>
    obtain ⟨hm, hr⟩ := h.isFinite_midpoint_radius hb
    unfold Linear.onSymbol
    split
    · refine ⟨Linear.isFinite_iff.mpr ⟨hr, hm, ?_⟩, h.notNegative_radius⟩
      intro c hc
      rw [(List.mem_replicate.mp hc).2]
      exact isFinite_zero
    · refine ⟨Linear.isFinite_iff.mpr ⟨isFinite_zero, hm, ?_⟩, notNegative_zero⟩
      intro c hc
      rcases List.mem_or_eq_of_mem_set hc with hc | rfl
      · rw [(List.mem_replicate.mp hc).2]
        exact isFinite_zero
      · exact hr
  · exact valid_ofInterval h

/-! ### Steps of an update -/

/-- Scaling keeps the error from being negative. -/
theorem Settleable.scaleStep (h : Settleable x) (a : Float) : Settleable (x.scaleStep a) := by
  unfold AffineForm.scaleStep
  split
  · next l _ =>
    change NotNegative (l.scale a).error
    unfold Linear.scale
    split
    · exact notNegative_zero
    · exact NotNegative.mul h (notNegative_abs a)
  · exact (valid_ofInterval (Interval.isProper_mul _ _)).settleable

/-- Shifting keeps the error. -/
theorem Settleable.shiftStep (h : Settleable x) (b : Float) : Settleable (x.shiftStep b) := by
  unfold AffineForm.shiftStep
  split
  · exact h
  · exact (valid_ofInterval (Interval.isProper_add _ _)).settleable

/-- Widening keeps the error from being negative. -/
theorem Settleable.widenStep (h : Settleable x) (d : Float) : Settleable (x.widenStep d) := by
  unfold AffineForm.widenStep
  split
  · exact NotNegative.add h (notNegative_abs d)
  · exact (valid_ofInterval (Interval.isProper_add _ _)).settleable

/-- Adding an interval keeps the error from being negative. -/
theorem Settleable.addIntervalSteps (h : Settleable x) (r : Interval Float) :
    Settleable (x.addIntervalSteps r) := by
  unfold AffineForm.addIntervalSteps
  split
  · exact (h.shiftStep _).widenStep _
  · exact (valid_ofInterval (Interval.isProper_add _ _)).settleable

/-- The sum with an interval is valid. -/
theorem Settleable.valid_addInterval (h : Settleable x) (r : Interval Float) :
    Valid (x.addInterval r) :=
  (h.addIntervalSteps r).valid_settle

/-- Adding a form keeps the error from being negative. -/
theorem Settleable.addStep (hx : Settleable x) (hy : Settleable y) : Settleable (x.addStep y) := by
  by_cases hact : x.isActive = false ∨ y.isActive = false
  · rw [addStep_of_not_active hact]
    exact (valid_ofInterval (Interval.isProper_add _ _)).settleable
  · cases x with
    | active p =>
      cases y with
      | active q =>
        rcases lt_trichotomy p.size q.size with hlt | heq | hgt
        · rw [addStep_of_lt hlt]
          exact (hy.valid_addInterval _).settleable
        · rw [addStep_of_eq heq]
          exact NotNegative.add hx hy
        · rw [addStep_of_gt hgt]
          exact (hx.valid_addInterval _).settleable
      | _ => exact absurd (.inr rfl) hact
    | _ => exact absurd (.inl rfl) hact

-- An absent step changes nothing.
private theorem settleable_elim {β : Type} {o : Option β} {f : β → AffineForm Float}
    (hx : Settleable x) (hf : ∀ b, o = some b → Settleable (f b)) : Settleable (o.elim x f) := by
  cases o with
  | none => exact hx
  | some b => exact hf b rfl

/-- The steps of an update keep the error from being negative. -/
theorem Settleable.applySteps (h : Settleable x) (u : Update Float)
    (hu : ∀ y, u.add = some y → Settleable y) : Settleable (x.applySteps u) := by
  have h1 := settleable_elim (o := u.scale) h fun a _ ↦ h.scaleStep a
  have h2 := settleable_elim (o := u.add) h1 fun y hy ↦ h1.addStep (hu y hy)
  have h3 := settleable_elim (o := u.shift) h2 fun b _ ↦ h2.shiftStep b
  exact settleable_elim h3 fun d _ ↦ h3.widenStep d

/-! ### Operations -/

/-- Opposites of valid forms are valid. -/
theorem Valid.neg (h : Valid x) : Valid (-x) := by
  have hneg : ∀ a : Float, Scalar.isFinite a = true → Scalar.isFinite (-a) = true := by
    intro a ha
    obtain ⟨q, hq⟩ := scalar_isFinite_iff.mp ha
    exact scalar_isFinite_iff.mpr ⟨-q, by rw [value_neg, hq]; rfl⟩
  cases x with
  | active l =>
    obtain ⟨he, hc, hcs⟩ := Linear.isFinite_iff.mp h.1
    refine ⟨Linear.isFinite_iff.mpr ⟨he, hneg _ hc, ?_⟩, h.2⟩
    intro a ha
    obtain ⟨b, hb, rfl⟩ := List.mem_map.mp ha
    exact hneg b (hcs b hb)
  | empty => trivial
  | allReals => trivial
  | boundedBelow b => exact hneg b h
  | boundedAbove b => exact hneg b h

/-- Updates are valid. -/
theorem Valid.update (h : Valid x) (u : Update Float) (hu : ∀ y, u.add = some y → Valid y) :
    Valid (x.update u) :=
  (h.settleable.applySteps u fun y hy ↦ (hu y hy).settleable).valid_settle

/-- Products with proper intervals are valid. -/
theorem Valid.mulInterval (h : Valid x) (hr : r.IsProper) : Valid (x.mulInterval r) := by
  cases x with
  | active l =>
    cases hb : r.isBounded with
    | true =>
      rw [mulInterval_of_isBounded hb]
      exact Settleable.valid_settle (Linear.notNegative_error_mulInterval h.2 hr)
    | false =>
      rw [mulInterval_of_not_isBounded hb]
      exact valid_ofInterval (Interval.isProper_mul _ _)
  | _ => exact valid_ofInterval (Interval.isProper_mul _ _)

/-- Products are valid. -/
theorem Valid.mul (hx : Valid x) (hy : Valid y) : Valid (x * y) := by
  by_cases hact : x.isActive = false ∨ y.isActive = false
  · rw [mul_of_not_active hact]
    exact valid_ofInterval (Interval.isProper_mul _ _)
  · cases x with
    | active p =>
      cases y with
      | active q =>
        rcases lt_trichotomy p.size q.size with hlt | heq | hgt
        · rw [mul_of_lt hlt]
          exact hy.mulInterval (isProper_toInterval (active p))
        · rw [mul_of_eq heq]
          exact Settleable.valid_settle
            (Linear.notNegative_error_mul hx.1 hy.1 heq hx.2 hy.2)
        · rw [mul_of_gt hgt]
          exact hx.mulInterval (isProper_toInterval (active q))
      | _ => exact absurd (.inr rfl) hact
    | _ => exact absurd (.inl rfl) hact

/-- Squares are valid. -/
theorem Valid.sqr (h : Valid x) : Valid x.sqr := by
  cases hs : x.squaresAsInterval with
  | true =>
    rw [sqr_of_squaresAsInterval hs]
    exact valid_ofInterval ((isProper_toInterval x).pow 2)
  | false =>
    cases x with
    | active l =>
      rw [sqr_of_linear hs]
      exact Settleable.valid_settle (Linear.notNegative_error_sqr h.1 h.2)
    | _ => exact valid_ofInterval ((isProper_toInterval _).pow 2)

/-- Forms that come about by constructing and computing are valid. -/
theorem Reachable.valid {limit : ℕ} (h : Reachable limit x) : Valid x := by
  induction h with
  | ofScalar d => exact valid_ofScalar d
  | ofInterval hi => exact valid_ofInterval hi.isProper
  | onSymbol hs hp hi => exact valid_onSymbol _ _ hi.isProper
  | neg _ ih => exact ih.neg
  | update _ u _ ih ihu => exact ih.update u ihu
  | addInterval _ _ ih => exact ih.settleable.valid_addInterval _
  | mulInterval _ hr ih => exact ih.mulInterval hr.isProper
  | mul _ _ ihx ihy => exact ihx.mul ihy
  | sqr _ ih => exact ih.sqr

end AffineArithmetic.AffineForm

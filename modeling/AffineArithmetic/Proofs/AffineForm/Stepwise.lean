import AffineArithmetic.Proofs.AffineForm.Laws
import AffineArithmetic.Proofs.AffineForm.Overflow

/-!
# Updates with a check after every step

An update settles its result once, after the last step. Settling after every step instead comes to
the same as long as no step takes a form as an interval that has overflowed: a form that is not
finite stays so under the remaining steps, and the real line that it is settled to stays the real
line.
-/

namespace AffineArithmetic.AffineForm

open Scalar

/-- The steps of an update as updates of their own, each of which is settled. -/
def updateStepwise {α : Type} [Scalar α] (x : AffineForm α) (u : Update α) : AffineForm α :=
  (((x.update { scale := u.scale }).update { add := u.add }).update
    { shift := u.shift }).update { widen := u.widen }

/-- The form after a step that is settled. -/
def settledStep {α : Type} [Scalar α] (x : AffineForm α) (s : Step α) : AffineForm α :=
  (x.step s).settle

/-- Settling every step of an update is folding the settled steps. -/
theorem updateStepwise_eq_foldl {α : Type} [Scalar α] (x : AffineForm α) (u : Update α) :
    x.updateStepwise u = u.steps.foldl settledStep (u.scale.elim x x.scaleStep).settle := by
  obtain ⟨scale, add, shift, widen⟩ := u
  cases add <;> cases shift <;> cases widen <;>
    simp [updateStepwise, update, applySteps, Update.steps, settledStep, step]

variable {limit : ℕ} {x : AffineForm Float} {p : Linear Float} {s : Step Float}
  {steps : List (Step Float)}

/-! ### Steps -/

/-- The form is valid, or the step does not take it as an interval. -/
def Continuable (x : AffineForm Float) (s : Step Float) : Prop :=
  Valid x ∨ x.takesInterval s = false

/-- Adding to the real line gives the real line. -/
theorem allReals_step (hs : s.Valid) : (allReals : AffineForm Float).step s = allReals := by
  obtain ⟨hprop, hne⟩ := hs.addend
  have hw : (allReals : AffineForm Float).toInterval.IsWhole := Interval.isWhole_univ
  rcases step_cases (x := allReals) trivial hs with ⟨-, hi | hi⟩ | ⟨-, p, hp, -⟩
  · rw [hi]
    exact ofInterval_of_isWhole (hw.add hprop hne)
  · rw [hi]
    exact ofInterval_of_isWhole (hw.add_left hprop hne)
  · contradiction

/-- The result of a step on a linear part that is not finite is settled to the real line. -/
theorem settle_step_of_not_isFinite (h : p.Defined) (hf : p.isFinite = false) (hs : s.Valid)
    (ht : (active p).takesInterval s = false) : ((active p).step s).settle = allReals := by
  rcases step_cases (x := active p) h hs with ⟨ht', -⟩ | ⟨-, q, hq, l, hl, -, hlf⟩
  · rw [ht] at ht'
    contradiction
  · obtain rfl := active.inj hq
    have hsettle : (active l).settle = allReals := by
      rw [settle, hlf hf]
      rfl
    rcases hl with hl | hl
    · rw [hl, hsettle]
    · rw [hl, settle_settle, hsettle]

/-- Settling before a step changes nothing about the settled result. -/
theorem settledStep_settle (h : Defined x) (hs : s.Valid) (hc : Continuable x s) :
    x.settle.settledStep s = x.settledStep s := by
  rcases hc with hv | ht
  · rw [hv.settle_eq]
  cases x with
  | active p =>
    cases hf : p.isFinite with
    | true => rw [settle, hf, if_pos rfl]
    | false =>
      rw [settledStep, settledStep, settle_step_of_not_isFinite h hf hs ht, settle, hf,
        if_neg Bool.false_ne_true, allReals_step hs]
      rfl
  | _ => rfl

/-! ### Runs -/

/-- Every step of a run can be continued from the form that the steps before result in. -/
def ContinuableRun : AffineForm Float → List (Step Float) → Prop
  | _, [] => True
  | x, s :: steps => Continuable x s ∧ ContinuableRun (x.step s) steps

/-- Settling after every step of a run is settling after the last one. -/
theorem foldl_settledStep (h : Defined x) (hs : ∀ s ∈ steps, s.Valid)
    (hc : ContinuableRun x steps) :
    steps.foldl settledStep x.settle = (steps.foldl step x).settle := by
  induction steps generalizing x with
  | nil => rfl
  | cons s steps ih =>
    obtain ⟨hv, hsteps⟩ := List.forall_mem_cons.mp hs
    rw [List.foldl_cons, List.foldl_cons, settledStep_settle h hv hc.1]
    exact ih (h.step hv) hsteps hc.2

/-- Finite scalars can always be added and can always widen the error. -/
theorem Defined.continuable {b : Float} (h : Defined x) (hb : Scalar.isFinite b = true) :
    Continuable x (.shift b) ∧ Continuable x (.widen b) := by
  cases x with
  | active p => exact ⟨.inr (by rw [takesInterval, hb]; rfl), .inr (by rw [takesInterval, hb]; rfl)⟩
  | _ => exact ⟨.inl h, .inl h⟩

/-- Steps that can be continued from every form can be continued one after the other. -/
theorem Defined.continuableRun (h : Defined x) (hs : ∀ s ∈ steps, s.Valid)
    (hc : ∀ s ∈ steps, ∀ y, Defined y → Continuable y s) : ContinuableRun x steps := by
  induction steps generalizing x with
  | nil => trivial
  | cons s steps ih =>
    obtain ⟨hv, hsteps⟩ := List.forall_mem_cons.mp hs
    obtain ⟨hs, hrest⟩ := List.forall_mem_cons.mp hc
    exact ⟨hs x h, ih (h.step hv) hsteps hrest⟩

/-! ### Updates -/

/-- The scaled form is valid, or it is over the symbols of the form. -/
private theorem Valid.scaled_cases {u : Update Float} (h : Valid x) (hu : u.IsFinite) :
    Valid (u.scale.elim x x.scaleStep) ∨
      ∃ p q : Linear Float, x = active p ∧ u.scale.elim x x.scaleStep = active q ∧
        q.size = p.size := by
  cases ha : u.scale with
  | none => exact .inl h
  | some a =>
    rcases active_or_not x true with ⟨p, rfl, -⟩ | hx | hx
    · exact .inr ⟨p, p.scale a, rfl, scaleStep_of_isFinite (hu.scale ha), Linear.size_scale p a⟩
    · left
      rw [Option.elim, scaleStep_of_not (.inl hx)]
      exact valid_ofInterval (Interval.isProper_mul _ _)
    · contradiction

/-- A linear form over the same symbols can be added to a scaled form, whatever has overflowed. -/
private theorem Valid.continuable_scaled {u : Update Float} {y : AffineForm Float} (h : Valid x)
    (hu : u.IsFinite) (hy : y.isActive = true) (hs : x.isActive = true → y.size? = x.size?) :
    Continuable (u.scale.elim x x.scaleStep) (.add y) := by
  rcases h.scaled_cases hu with hv | ⟨p, q, rfl, hq, hsize⟩
  · exact .inl hv
  right
  cases y with
  | active l =>
    have hl : l.size = p.size := Option.some.inj (hs rfl)
    rw [hq, takesInterval, hsize, hl, bne_self_eq_false, Bool.false_and]
  | _ => contradiction

/-- The steps of an update with finite scalars can be continued if the added form can. -/
private theorem Defined.continuableRun_steps {u : Update Float} (h : Defined x) (hu : u.IsFinite)
    (hadd : ∀ y, u.add = some y → Step.Valid (.add y) ∧ Continuable x (.add y)) :
    (∀ s ∈ u.steps, s.Valid) ∧ ContinuableRun x u.steps := by
  obtain ⟨scale, add, shift, widen⟩ := u
  have hrest : ∀ s ∈ (⟨scale, none, shift, widen⟩ : Update Float).steps,
      s.Valid ∧ ∀ y, Defined y → Continuable y s := by
    refine Update.forall_mem_steps.mpr ⟨nofun, fun b hb ↦ ?_, fun d hd ↦ ?_⟩
    · exact ⟨trivial, fun y hy ↦ (hy.continuable (hu.shift hb)).1⟩
    · exact ⟨trivial, fun y hy ↦ (hy.continuable (hu.widen hd)).2⟩
  have hvalid := fun s hs ↦ (hrest s hs).1
  have hcont := fun s hs ↦ (hrest s hs).2
  cases add with
  | none => exact ⟨hvalid, h.continuableRun hvalid hcont⟩
  | some y =>
    obtain ⟨hy, hc⟩ := hadd y rfl
    exact ⟨List.forall_mem_cons.mpr ⟨hy, hvalid⟩, hc,
      (h.step hy).continuableRun hvalid hcont⟩

/-- Updates of reachable forms with finite scalars are the same if every step is settled, whatever
overflows. A form that is added is linear, and over the same symbols if the updated form is
linear. -/
theorem reachable_update_eq_stepwise (hx : Reachable limit x) {u : Update Float} (hu : u.IsFinite)
    (hadd : ∀ y, u.add = some y → Reachable limit y ∧ y.isActive = true ∧
      (x.isActive = true → y.size? = x.size?)) :
    x.update u = x.updateStepwise u ∧ (x.update u == x.updateStepwise u) = true := by
  have hv := hx.valid
  have hd : Defined (u.scale.elim x x.scaleStep) := by
    cases u.scale with
    | none => exact hv.defined
    | some a => exact hv.defined_scaleStep a
  obtain ⟨hvalid, hrun⟩ := hd.continuableRun_steps hu fun y hy ↦ by
    obtain ⟨hr, hact, hsize⟩ := hadd y hy
    have hne : y ≠ empty := by
      rintro rfl
      contradiction
    exact ⟨⟨hr.valid, hne⟩, hv.continuable_scaled hu hact hsize⟩
  have heq : x.update u = x.updateStepwise u := by
    rw [update_eq_settle, updateStepwise_eq_foldl, foldl_settledStep hd hvalid hrun, afterSteps]
  refine ⟨heq, ?_⟩
  rw [← heq]
  exact (hx.update u fun y hy ↦ (hadd y hy).1).valid.beq_iff.mpr rfl

/-- Twice a form and the numbers from 1 to 2, moved by -1 and widened by one half. -/
def doublePlus : Update Float where
  scale := some 2.0
  add := some oneToTwo
  shift := some (-1.0)
  widen := some 0.5

/-- Doubling the largest entries makes them infinite, and the steps that follow do not bring them
back. A half line times 0 is the number 0, so that adding a form over one symbol leaves that
form. -/
theorem update_eq_stepwise_of_overflow :
    Reachable 2 largest ∧ Reachable 2 oneToTwo ∧ Reachable 2 (ofScalar infinity) ∧
      (largest.update doublePlus == largest.updateStepwise doublePlus) = true ∧
      largest.updateStepwise doublePlus = allReals ∧
      ((ofScalar infinity).update { scale := some 0.0, add := some oneToTwo } ==
        (ofScalar infinity).updateStepwise { scale := some 0.0, add := some oneToTwo }) = true ∧
      (ofScalar infinity).updateStepwise { scale := some 0.0, add := some oneToTwo } =
        oneToTwo := by
  have hx : Reachable 2 largest := reachable_largest (by decide)
  have hy : Reachable 2 oneToTwo := reachable_oneToTwo (by decide)
  have hz : Reachable 2 (ofScalar infinity) := .ofScalar infinity
  have hfinite : doublePlus.IsFinite :=
    ⟨by rintro a ⟨⟩; decide +kernel, by rintro b ⟨⟩; decide +kernel,
      by rintro d ⟨⟩; decide +kernel⟩
  have hzero : (⟨some 0.0, some oneToTwo, none, none⟩ : Update Float).IsFinite :=
    ⟨by rintro a ⟨⟩; decide +kernel, nofun, nofun⟩
  have hdouble := reachable_update_eq_stepwise hx hfinite fun y h ↦ by
    cases h
    exact ⟨hy, by decide +kernel, fun _ ↦ by decide +kernel⟩
  have hline := reachable_update_eq_stepwise hz hzero fun y h ↦ by
    cases h
    exact ⟨hy, by decide +kernel, fun h ↦ absurd h (by decide +kernel)⟩
  exact ⟨hx, hy, hz, hdouble.2, by decide +kernel, hline.2, by decide +kernel⟩

end AffineArithmetic.AffineForm

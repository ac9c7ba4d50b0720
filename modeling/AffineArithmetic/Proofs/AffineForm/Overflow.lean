import AffineArithmetic.Proofs.AffineForm.State
import AffineArithmetic.Proofs.AffineForm.Step
import AffineArithmetic.Proofs.Linear.Overflow

/-!
# Updates that overflow

The result of an update is settled only after the last step, so the steps in between see entries
that are no longer finite. Steps that are done on the linear part keep such entries, and the result
is the real line. A step that takes the form as an interval, however, takes the empty interval if
the centre has overflowed, and then the result is empty although no operand is.
-/

namespace AffineArithmetic

open Binary64 Scalar

/-! ### Steps -/

/-- The form that the step adds is valid and not empty. -/
def Step.Valid : Step Float → Prop
  | .add y => y.Valid ∧ y ≠ .empty
  | _ => True

private theorem isEmpty_ofScalar (d : Float) : (Interval.ofScalar d).isEmpty = false := by
  rw [← Bool.not_eq_true, (Interval.isProper_ofScalar d).isEmpty_iff]
  exact Interval.ofScalar_ne_empty d

/-- The intervals that valid steps add are not empty. -/
theorem Step.Valid.addend {s : Step Float} (h : s.Valid) :
    s.addend.IsProper ∧ s.addend.isEmpty = false := by
  have hnoise : (Interval.noise : Interval Float).isEmpty = false := by decide +kernel
  cases s with
  | add y =>
    exact ⟨AffineForm.isProper_toInterval y, h.1.not_isEmpty_toInterval h.2⟩
  | shift b => exact ⟨Interval.isProper_ofScalar b, isEmpty_ofScalar b⟩
  | widen d =>
    refine ⟨Interval.isProper_mul _ _, ?_⟩
    rw [← Bool.not_eq_true]
    intro he
    rcases (Interval.isEmpty_mul Interval.Reachable.noise.isProper
      (Interval.isProper_ofScalar d)).mp he with he | he
    · rw [hnoise] at he
      contradiction
    · rw [isEmpty_ofScalar] at he
      contradiction

namespace AffineForm

variable {limit : ℕ} {x : AffineForm Float} {p q : Linear Float} {r : Interval Float}
  {s : Step Float} {steps : List (Step Float)}

/-- Whether the step takes the form as an interval: the form is not linear, an operand is not
finite, or a linear form over another number of symbols is added and the smaller one of the two is
not bounded. -/
def takesInterval : AffineForm Float → Step Float → Bool
  | active p, .add (active q) => p.size != q.size && !(smaller p q).toInterval.isBounded
  | active _, .shift b => !Scalar.isFinite b
  | active _, .widen d => !Scalar.isFinite d
  | _, _ => true

/-! ### Entries that are numbers -/

/-- The entries of a linear form are numbers, and its error is at least 0; the bound of a half line
is finite. -/
def Defined : AffineForm Float → Prop
  | active p => p.Defined
  | empty | allReals => True
  | boundedBelow b | boundedAbove b => Scalar.isFinite b = true

/-- The entries of valid forms are numbers. -/
theorem Valid.defined (h : Valid x) : Defined x := by
  cases x with
  | active p => exact Linear.defined_of_isFinite h.1 h.2
  | _ => exact h

/-- Other forms than linear ones are valid if they are defined. -/
theorem Defined.valid (h : Defined x) (hx : x.isActive = false) : Valid x := by
  cases x with
  | active p => contradiction
  | _ => exact h

/-- Valid forms are settled. -/
theorem Valid.settle_eq (h : Valid x) : x.settle = x := by
  cases x with
  | active p => exact if_pos h.1
  | _ => rfl

/-- Settling forms with numbers as entries makes them valid. -/
theorem Defined.valid_settle (h : Defined x) : Valid x.settle := by
  cases x with
  | active p => exact Settleable.valid_settle (x := active p) (notNegative_of_le h.error)
  | _ => exact h

/-- The entries of a scaled form are numbers. -/
theorem Valid.defined_scaleStep (h : Valid x) (a : Float) : Defined (x.scaleStep a) := by
  rcases active_or_not x (Scalar.isFinite a) with ⟨p, rfl, ha⟩ | hx
  · rw [scaleStep_of_isFinite ha]
    exact Linear.defined_scale h.1 h.defined ha
  · rw [scaleStep_of_not hx]
    exact (valid_ofInterval (Interval.isProper_mul _ _)).defined

/-- Forms with numbers as entries enclose nothing if they are empty or their centre is not
finite. -/
theorem Defined.isEmpty_toInterval (h : Defined x) : x.toInterval.isEmpty = true ↔
    x = empty ∨ ∃ p, x = active p ∧ Scalar.isFinite p.center = false := by
  rcases active_or_not x true with ⟨p, rfl, -⟩ | hx | hx
  · refine (Linear.Defined.isEmpty_toInterval h).trans ⟨fun hc ↦ .inr ⟨p, rfl, hc⟩, ?_⟩
    rintro (he | ⟨q, hq, hc⟩)
    · contradiction
    · obtain rfl := active.inj hq
      exact hc
  · refine (h.valid hx).isEmpty_toInterval.trans ⟨.inl, ?_⟩
    rintro (he | ⟨q, rfl, -⟩)
    · exact he
    · contradiction
  · contradiction

/-! ### Cases of a step -/

/-- The form that a step without an interval results in, up to settling: its entries are numbers
and it is not finite if the form before it was not. -/
def Continues (p : Linear Float) (x : AffineForm Float) : Prop :=
  ∃ l : Linear Float, (x = active l ∨ x = (active l).settle) ∧ l.Defined ∧
    (p.isFinite = false → l.isFinite = false)

/-- The form of an interval without finite ends is the real line. -/
theorem ofInterval_of_isWhole (h : r.IsWhole) : ofInterval r = allReals := by
  rw [ofInterval, h.isEmpty, if_neg Bool.false_ne_true,
    (Interval.isUnboundedBelow_iff h.isEmpty).mpr h.1,
    (Interval.isUnboundedAbove_iff h.isEmpty).mpr h.2]

private theorem addInterval_of_not_isBounded_eq (h : r.isBounded = false) :
    (active p).addInterval r = ofInterval (p.toInterval + r) := by
  rw [addInterval_of_not_isBounded h]
  exact (valid_ofInterval (Interval.isProper_add _ _)).settle_eq

private theorem continues_addInterval (hp : p.Defined) (hr : r.IsProper) (hb : r.isBounded = true) :
    Continues p ((active p).addInterval r) := by
  obtain ⟨hm, hd⟩ := hr.isFinite_midpoint_radius hb
  rw [addInterval_of_isBounded hb, shiftStep_of_isFinite hm, widenStep_of_isFinite hd]
  refine ⟨(p.shift r.midpoint).widen r.radius, .inr rfl, (hp.shift hm).widen hd, fun hf ↦ ?_⟩
  exact Linear.isFinite_widen_eq_false (Linear.isFinite_shift_eq_false hf)

private theorem addStep_cases (hp : p.Defined) (hq : Valid (active q)) :
    ((active p).takesInterval (.add (active q)) = true ∧
      ((active p).addStep (active q) = ofInterval (p.toInterval + q.toInterval) ∨
        (active p).addStep (active q) = ofInterval (q.toInterval + p.toInterval))) ∨
    ((active p).takesInterval (.add (active q)) = false ∧
      Continues p ((active p).addStep (active q))) := by
  have htakes : (active p).takesInterval (.add (active q)) =
      (p.size != q.size && !(smaller p q).toInterval.isBounded) := rfl
  rw [htakes, smaller]
  rcases Nat.lt_trichotomy p.size q.size with hlt | heq | hgt
  · rw [addStep_of_lt hlt, if_pos hlt, bne_iff_ne.mpr hlt.ne, Bool.true_and]
    cases hb : p.toInterval.isBounded with
    | true =>
      -- a form that encloses a bounded interval is finite
      obtain ⟨l, hl, hld, -⟩ :=
        continues_addInterval hq.defined (isProper_toInterval (active p)) hb
      refine .inr ⟨rfl, l, hl, hld, fun hf ↦ ?_⟩
      rw [hp.isBounded_toInterval hf] at hb
      contradiction
    | false => exact .inl ⟨rfl, .inr (addInterval_of_not_isBounded_eq hb)⟩
  · rw [addStep_of_eq heq, heq, bne_self_eq_false, Bool.false_and]
    exact .inr ⟨rfl, p + q, .inl rfl, hp.add hq.1 hq.defined, Linear.isFinite_add_eq_false heq⟩
  · rw [addStep_of_gt hgt, if_neg hgt.not_gt, bne_iff_ne.mpr hgt.ne', Bool.true_and]
    cases hb : q.toInterval.isBounded with
    | true => exact .inr ⟨rfl, continues_addInterval hp (isProper_toInterval (active q)) hb⟩
    | false => exact .inl ⟨rfl, .inl (addInterval_of_not_isBounded_eq hb)⟩

/-- A step either takes the form as an interval or continues with a linear form. -/
theorem step_cases (h : Defined x) (hs : s.Valid) :
    (x.takesInterval s = true ∧ (x.step s = ofInterval (x.toInterval + s.addend) ∨
      x.step s = ofInterval (s.addend + x.toInterval))) ∨
    (x.takesInterval s = false ∧ ∃ p, x = active p ∧ Continues p (x.step s)) := by
  cases s with
  | add y =>
    rcases active_active_or_not x y with ⟨p, q, rfl, rfl⟩ | hact
    · rcases addStep_cases h hs.1 with hi | ⟨ht, hc⟩
      · exact .inl hi
      · exact .inr ⟨ht, p, rfl, hc⟩
    · refine .inl ⟨?_, .inl (addStep_of_not_active hact)⟩
      cases x <;> cases y <;> first | rfl | (rcases hact with h | h <;> contradiction)
  | shift b =>
    rcases active_or_not x (Scalar.isFinite b) with ⟨p, rfl, hb⟩ | hx
    · refine .inr ⟨by rw [takesInterval, hb]; rfl, p, rfl, p.shift b, ?_, ?_⟩
      · exact .inl (shiftStep_of_isFinite hb)
      · exact ⟨Linear.Defined.shift h hb, Linear.isFinite_shift_eq_false⟩
    · refine .inl ⟨?_, .inl (shiftStep_of_not hx)⟩
      cases x <;> first | rfl | simpa [takesInterval] using hx.resolve_left nofun
  | widen d =>
    rcases active_or_not x (Scalar.isFinite d) with ⟨p, rfl, hd⟩ | hx
    · refine .inr ⟨by rw [takesInterval, hd]; rfl, p, rfl, p.widen d, ?_, ?_⟩
      · exact .inl (widenStep_of_isFinite hd)
      · exact ⟨Linear.Defined.widen h hd, Linear.isFinite_widen_eq_false⟩
    · refine .inl ⟨?_, .inl (widenStep_of_not hx)⟩
      cases x <;> first | rfl | simpa [takesInterval] using hx.resolve_left nofun

/-- A step keeps the entries numbers. -/
theorem Defined.step (h : Defined x) (hs : s.Valid) : Defined (x.step s) := by
  rcases step_cases h hs with ⟨-, hi | hi⟩ | ⟨-, p, rfl, l, hl | hl, hld, -⟩
  · rw [hi]
    exact (valid_ofInterval (Interval.isProper_add _ _)).defined
  · rw [hi]
    exact (valid_ofInterval (Interval.isProper_add _ _)).defined
  · rw [hl]
    exact hld
  · rw [hl]
    exact (Defined.valid_settle (x := active l) hld).defined

/-- A step has an empty result exactly if it takes the form as an interval that is empty. -/
theorem step_eq_empty (h : Defined x) (hs : s.Valid) :
    x.step s = empty ↔ x.takesInterval s = true ∧ x.toInterval.isEmpty = true := by
  obtain ⟨hprop, hne⟩ := hs.addend
  have hx := isProper_toInterval x
  rcases step_cases h hs with ⟨ht, hi | hi⟩ | ⟨ht, p, rfl, l, hl | hl, -⟩
  · rw [hi, ht, ofInterval_eq_empty, Interval.isEmpty_add hx hprop, hne]
    simp
  · rw [hi, ht, ofInterval_eq_empty, Interval.isEmpty_add hprop hx, hne]
    simp
  · rw [hl, ht]
    exact iff_of_false nofun fun h ↦ nomatch h.1
  · rw [hl, ht]
    exact iff_of_false (activeOrAll_settle l).ne_empty fun h ↦ nomatch h.1

/-! ### Forms after an overflow -/

/-- The form that is left of a linear form after an overflow: one with numbers as entries that are
not all finite, the real line, or nothing. -/
def Overflowed : AffineForm Float → Prop
  | active p => p.Defined ∧ p.isFinite = false
  | empty | allReals => True
  | boundedBelow _ | boundedAbove _ => False

/-- The entries of overflowed forms are numbers. -/
theorem Overflowed.defined (h : Overflowed x) : Defined x := by
  cases x with
  | active p => exact h.1
  | empty | allReals => trivial
  | boundedBelow b | boundedAbove b => contradiction

/-- Overflowed forms enclose nothing or the real line. -/
theorem Overflowed.isEmpty_or_isWhole (h : Overflowed x) :
    x.toInterval.isEmpty = true ∨ x.toInterval.IsWhole := by
  cases x with
  | active p =>
    cases hc : Scalar.isFinite p.center with
    | false => exact .inl (h.1.isEmpty_toInterval.mpr hc)
    | true => exact .inr (h.1.isWhole_toInterval hc h.2)
  | empty => exact .inl Interval.isEmpty_empty
  | allReals => exact .inr Interval.isWhole_univ
  | boundedBelow b | boundedAbove b => contradiction

/-- Settling an overflowed form gives the real line, unless the form is empty. -/
theorem Overflowed.settle (h : Overflowed x) : x.settle = allReals ∨ x.settle = empty := by
  cases x with
  | active p =>
    left
    rw [AffineForm.settle, h.2]
    rfl
  | empty => exact .inr rfl
  | allReals => exact .inl rfl
  | boundedBelow b | boundedAbove b => contradiction

/-- A step after an overflow has an overflowed form as result. -/
theorem Overflowed.step (h : Overflowed x) (hs : s.Valid) : Overflowed (x.step s) := by
  obtain ⟨hprop, hne⟩ := hs.addend
  have hempty := step_eq_empty h.defined hs
  rcases step_cases h.defined hs with ⟨ht, hi⟩ | ⟨-, p, rfl, l, hl | hl, hld, hlf⟩
  · rcases h.isEmpty_or_isWhole with he | hw
    · rw [hempty.mpr ⟨ht, he⟩]
      trivial
    · rcases hi with hi | hi
      · rw [hi, ofInterval_of_isWhole (hw.add hprop hne)]
        trivial
      · rw [hi, ofInterval_of_isWhole (hw.add_left hprop hne)]
        trivial
  · rw [hl]
    exact ⟨hld, hlf h.2⟩
  · rw [hl, AffineForm.settle, hlf h.2]
    trivial

/-! ### Runs -/

/-- Steps keep the entries numbers. -/
theorem Defined.foldl_step (h : Defined x) (hs : ∀ s ∈ steps, s.Valid) :
    Defined (steps.foldl AffineForm.step x) := by
  induction steps generalizing x with
  | nil => exact h
  | cons s steps ih =>
    obtain ⟨hs, hsteps⟩ := List.forall_mem_cons.mp hs
    exact ih (h.step hs) hsteps

/-- Steps after an overflow have an overflowed form as result. -/
theorem Overflowed.foldl_step (h : Overflowed x) (hs : ∀ s ∈ steps, s.Valid) :
    Overflowed (steps.foldl AffineForm.step x) := by
  induction steps generalizing x with
  | nil => exact h
  | cons s steps ih =>
    obtain ⟨hs, hsteps⟩ := List.forall_mem_cons.mp hs
    exact ih (h.step hs) hsteps

/-- Steps keep the empty form. -/
theorem foldl_step_empty (hs : ∀ s ∈ steps, s.Valid) : steps.foldl step empty = empty := by
  induction steps with
  | nil => rfl
  | cons s steps ih =>
    obtain ⟨hs, hsteps⟩ := List.forall_mem_cons.mp hs
    have hstep : empty.step s = empty :=
      (step_eq_empty (x := empty) trivial hs).mpr ⟨rfl, Interval.isEmpty_empty⟩
    rw [List.foldl_cons, hstep, ih hsteps]

/-- Steps have an empty result exactly if one of them takes a form as an interval whose centre has
overflowed. -/
theorem foldl_step_eq_empty (h : Defined x) (hne : x ≠ empty) (hs : ∀ s ∈ steps, s.Valid) :
    steps.foldl step x = empty ↔ ∃ before s after, steps = before ++ s :: after ∧
      ∃ p, before.foldl step x = active p ∧ Scalar.isFinite p.center = false ∧
        (active p).takesInterval s = true := by
  constructor
  · intro he
    induction steps generalizing x with
    | nil => exact absurd he hne
    | cons s steps ih =>
      obtain ⟨hv, hsteps⟩ := List.forall_mem_cons.mp hs
      by_cases hstep : x.step s = empty
      · obtain ⟨ht, hempty⟩ := (step_eq_empty h hv).mp hstep
        obtain ⟨p, rfl, hc⟩ := (h.isEmpty_toInterval.mp hempty).resolve_left hne
        exact ⟨[], s, steps, rfl, p, rfl, hc, ht⟩
      · obtain ⟨before, s', after, rfl, p, hp⟩ := ih (h.step hv) hstep hsteps he
        exact ⟨s :: before, s', after, rfl, p, hp⟩
  · rintro ⟨before, s, after, rfl, p, hp, hc, ht⟩
    obtain ⟨hbefore, hrest⟩ := List.forall_mem_append.mp hs
    obtain ⟨hv, hafter⟩ := List.forall_mem_cons.mp hrest
    have hd : Defined (active p) := hp ▸ h.foldl_step hbefore
    have hstep : (active p).step s = empty :=
      (step_eq_empty hd hv).mpr ⟨ht, hd.isEmpty_toInterval.mpr (.inr ⟨p, rfl, hc⟩)⟩
    rw [List.foldl_append, hp, List.foldl_cons, hstep, foldl_step_empty hafter]

/-! ### Updates -/

/-- Scaling makes no form empty. -/
theorem Valid.scaleStep_eq_empty (h : Valid x) (a : Float) : x.scaleStep a = empty ↔ x = empty := by
  rcases active_or_not x (Scalar.isFinite a) with ⟨p, rfl, ha⟩ | hx
  · rw [scaleStep_of_isFinite ha]
    exact iff_of_false nofun nofun
  · rw [scaleStep_of_not hx, ofInterval_eq_empty, ← h.isEmpty_toInterval]
    refine (Interval.isEmpty_mul (isProper_toInterval x) (Interval.isProper_ofScalar a)).trans ?_
    rw [isEmpty_ofScalar]
    exact or_iff_left Bool.false_ne_true

private theorem valid_steps {u : Update Float} (hu : ∀ y, u.add = some y → Valid y ∧ y ≠ empty) :
    ∀ s ∈ u.steps, s.Valid :=
  Update.forall_mem_steps.mpr ⟨hu, fun _ _ ↦ trivial, fun _ _ ↦ trivial⟩

private theorem Valid.scaled (h : Valid x) (hne : x ≠ empty) (u : Update Float) :
    Defined (u.scale.elim x x.scaleStep) ∧ u.scale.elim x x.scaleStep ≠ empty := by
  cases u.scale with
  | none => exact ⟨h.defined, hne⟩
  | some a => exact ⟨h.defined_scaleStep a, (h.scaleStep_eq_empty a).not.mpr hne⟩

/-- An update of reachable forms that are not empty is empty exactly if one of its steps takes a
linear form as an interval whose centre the steps before have made infinite. After any other
overflow the result is the real line. -/
theorem reachable_update_overflow (hx : Reachable limit x) (hne : x ≠ empty) (u : Update Float)
    (hu : ∀ y, u.add = some y → Reachable limit y ∧ y ≠ empty) :
    (x.update u = empty ↔ ∃ before s after, u.steps = before ++ s :: after ∧
      ∃ p, x.afterSteps u before = active p ∧ Scalar.isFinite p.center = false ∧
        (active p).takesInterval s = true) ∧
    ∀ before after p, u.steps = before ++ after → x.afterSteps u before = active p →
      p.isFinite = false → x.update u = allReals ∨ x.update u = empty := by
  have hsteps : ∀ s ∈ u.steps, s.Valid :=
    valid_steps fun y hy ↦ ⟨(hu y hy).1.valid, (hu y hy).2⟩
  obtain ⟨hd, hne'⟩ := hx.valid.scaled hne u
  constructor
  · rw [update_eq_settle, settle_eq_empty]
    exact foldl_step_eq_empty hd hne' hsteps
  · intro before after p hbefore hp hf
    rw [hbefore] at hsteps
    obtain ⟨hb, ha⟩ := List.forall_mem_append.mp hsteps
    have hdp : Defined (active p) := hp ▸ hd.foldl_step hb
    have hover : Overflowed (active p) := ⟨hdp, hf⟩
    rw [update_eq_settle, hbefore, afterSteps, List.foldl_append]
    rw [afterSteps] at hp
    rw [hp]
    exact (hover.foldl_step ha).settle

/-- Twice the largest number, with the other steps of an update. -/
def doubleLargest (u : Update Float) : AffineForm Float :=
  (ofScalar maxFinite).update { u with scale := some 2.0 }

/-- Doubling the largest number makes the centre infinite. A finite constant is not taken as an
interval and leaves the real line; the real line is, and adding it leaves nothing. -/
theorem update_overflow_of_doubleLargest :
    Reachable 1 (ofScalar maxFinite) ∧ ofScalar (maxFinite : Float) ≠ empty ∧
      Reachable 1 allReals ∧ (allReals : AffineForm Float) ≠ empty ∧
      doubleLargest { shift := some 1.0 } = allReals ∧
      doubleLargest { add := some allReals } = empty := by
  have hx : Reachable 1 (ofScalar maxFinite) := .ofScalar maxFinite
  have hne : ofScalar (maxFinite : Float) ≠ empty := by decide +kernel
  have hy : Reachable 1 allReals := .ofScalar nan
  have hscaled : (ofScalar maxFinite).scaleStep (2.0 : Float) =
      active ⟨infinity, [], Scalar.zero⟩ := by decide +kernel
  obtain ⟨hshift, hall⟩ :=
    reachable_update_overflow hx hne { scale := some 2.0, shift := some 1.0 } nofun
  obtain ⟨hadd, -⟩ := reachable_update_overflow hx hne { scale := some 2.0, add := some allReals }
    fun y h ↦ by cases h; exact ⟨hy, nofun⟩
  have hne' : doubleLargest { shift := some 1.0 } ≠ empty := by
    intro he
    obtain ⟨before, s, after, hsteps, p, -, -, htakes⟩ := hshift.mp he
    -- the finite constant is the only step
    have hs : s ∈ [Step.shift (1.0 : Float)] := by
      change s ∈ ({ scale := some 2.0, shift := some 1.0 } : Update Float).steps
      rw [hsteps]
      exact List.mem_append_right before List.mem_cons_self
    obtain rfl := List.mem_singleton.mp hs
    have hfinite : Scalar.isFinite (1.0 : Float) = true := by decide +kernel
    rw [takesInterval, hfinite] at htakes
    contradiction
  refine ⟨hx, hne, hy, nofun, ?_, hadd.mpr ?_⟩
  · exact (hall [] _ _ rfl hscaled (by decide +kernel)).resolve_right hne'
  · exact ⟨[], .add allReals, [], rfl, _, hscaled, by decide +kernel, rfl⟩

/-- Twice the largest number and an operand that is taken as an interval are empty together: a form
without symbols, a form over more symbols, an infinite constant and an infinite width. -/
theorem doubleLargest_eq_empty :
    Reachable 2 (ofScalar maxFinite) ∧ ofScalar (maxFinite : Float) ≠ empty ∧
      Reachable 2 (ofScalar infinity) ∧ ofScalar (infinity : Float) ≠ empty ∧
      Reachable 2 (onSymbol 1 1 (.ofBounds 1.0 2.0)) ∧
      onSymbol 1 1 (.ofBounds (1.0 : Float) 2.0) ≠ empty ∧
      doubleLargest { add := some (ofScalar infinity) } = empty ∧
      doubleLargest { add := some (onSymbol 1 1 (.ofBounds 1.0 2.0)) } = empty ∧
      doubleLargest { shift := some infinity } = empty ∧
      doubleLargest { widen := some infinity } = empty :=
  ⟨.ofScalar maxFinite, by decide +kernel, .ofScalar infinity, by decide +kernel,
    .onSymbol (by decide) (by decide) (.ofBounds 1.0 2.0), by decide +kernel, by decide +kernel,
    by decide +kernel, by decide +kernel, by decide +kernel⟩

end AffineForm
end AffineArithmetic

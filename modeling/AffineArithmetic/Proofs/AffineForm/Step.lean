import AffineArithmetic.AffineForm.Update

/-!
# Updates step by step

The steps of an update after the scaling are a list, through which the scaled form is folded before
the result is settled. So what one step does to a form carries over to updates by induction on this
list.
-/

namespace AffineArithmetic

/-- A step of a linear update after the scaling. -/
inductive Step (α : Type) where
  /-- Add this form. -/
  | add (y : AffineForm α)
  /-- Add this constant. -/
  | shift (b : α)
  /-- Widen the error by the size of this scalar. -/
  | widen (d : α)

/-- The steps of an update after the scaling, in the order in which they apply. -/
def Update.steps {α : Type} (u : Update α) : List (Step α) :=
  (u.add.map .add).toList ++ (u.shift.map .shift).toList ++ (u.widen.map .widen).toList

/-- What holds of the form that is added and of both scalars holds of all steps. -/
theorem Update.forall_mem_steps {α : Type} {P : Step α → Prop} {u : Update α} :
    (∀ s ∈ u.steps, P s) ↔ (∀ y, u.add = some y → P (.add y)) ∧
      (∀ b, u.shift = some b → P (.shift b)) ∧ ∀ d, u.widen = some d → P (.widen d) := by
  obtain ⟨scale, add, shift, widen⟩ := u
  cases add <;> cases shift <;> cases widen <;> simp [steps]

/-- Optional steps keep a relation between two results if the steps do. -/
theorem elim_rel {α β γ : Type} {R : α → β → Prop} {x : α} {y : β} {o : Option γ} {f : γ → α}
    {g : γ → β} (h : R x y) (hs : ∀ s, o = some s → R (f s) (g s)) :
    R (o.elim x f) (o.elim y g) := by
  cases o with
  | none => exact h
  | some s => exact hs s rfl

variable {α : Type} [Scalar α]

/-- The scalars of the update are finite. -/
structure Update.IsFinite (u : Update α) : Prop where
  scale {a : α} : u.scale = some a → Scalar.isFinite a = true
  shift {b : α} : u.shift = some b → Scalar.isFinite b = true
  widen {d : α} : u.widen = some d → Scalar.isFinite d = true

/-- The interval that the step adds to a form that it takes as an interval. -/
def Step.addend : Step α → Interval α
  | .add y => y.toInterval
  | .shift b => .ofScalar b
  | .widen d => (Interval.noise : Interval α) * d

namespace AffineForm

/-- The form after a step. -/
def step (x : AffineForm α) : Step α → AffineForm α
  | .add y => x.addStep y
  | .shift b => x.shiftStep b
  | .widen d => x.widenStep d

/-- The form after the scaling of an update and the given steps. -/
def afterSteps (x : AffineForm α) (u : Update α) (steps : List (Step α)) : AffineForm α :=
  steps.foldl step (u.scale.elim x x.scaleStep)

/-- An update applies its steps one by one and settles the result. -/
theorem update_eq_settle (x : AffineForm α) (u : Update α) :
    x.update u = (x.afterSteps u u.steps).settle := by
  obtain ⟨scale, add, shift, widen⟩ := u
  cases add <;> cases shift <;> cases widen <;> rfl

end AffineForm
end AffineArithmetic

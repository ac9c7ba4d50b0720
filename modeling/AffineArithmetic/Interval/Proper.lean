import AffineArithmetic.Interval.Arithmetic

/-!
# Proper intervals

The bounds that every constructor and operation produces: those of the one empty interval, or bounds
in order that leave room for a real number.
-/

namespace AffineArithmetic.Interval

open Scalar

variable {α : Type} [Scalar α]

/-- The bounds are in order, and neither lies beyond the reals on the other's side. -/
def InOrder (lower upper : α) : Prop :=
  lower ≤ upper ∧ lower != infinity ∧ upper != -infinity

/-- The interval is the empty one or has bounds in order. -/
def IsProper (i : Interval α) : Prop := i = empty ∨ InOrder i.lower i.upper

/-- Bounds in order are kept. -/
theorem ofBounds_of_inOrder {lower upper : α} (h : InOrder lower upper) :
    ofBounds lower upper = ⟨lower, upper⟩ := if_pos h

/-- Bounds out of order give the empty interval. -/
theorem ofBounds_of_not_inOrder {lower upper : α} (h : ¬ InOrder lower upper) :
    ofBounds lower upper = empty := if_neg h

/-- The constructor from bounds gives proper intervals only. -/
theorem isProper_ofBounds (lower upper : α) : IsProper (ofBounds lower upper) := by
  by_cases h : InOrder lower upper
  · rw [ofBounds_of_inOrder h]
    exact .inr h
  · rw [ofBounds_of_not_inOrder h]
    exact .inl rfl

/-- Arithmetic results are proper. -/
theorem isProper_outward (lower upper : α) : IsProper (outward lower upper) :=
  isProper_ofBounds _ _

/-- Sums are proper. -/
theorem isProper_add (i j : Interval α) : IsProper (i + j) := by
  change IsProper (if i.isEmpty || j.isEmpty then empty else _)
  split
  · exact .inl rfl
  · exact isProper_outward _ _

/-- Products are proper. -/
theorem isProper_mul (i j : Interval α) : IsProper (i * j) := by
  change IsProper (if i.isEmpty || j.isEmpty then empty else _)
  split
  · exact .inl rfl
  · exact isProper_outward _ _

end AffineArithmetic.Interval

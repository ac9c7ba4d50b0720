import AffineArithmetic.AffineForm.Basic

/-!
# Assigning in place

A form takes the value of another form, of an interval or of a scalar, whatever it was before. Where
a linear form takes the place of another one, or a linear form without noise symbols that of another
without any, its entries and its error are overwritten.
-/

namespace AffineArithmetic.AffineForm

open Scalar

variable {α : Type}

/-- Another form in place of a form. -/
def assignForm (x y : AffineForm α) : AffineForm α :=
  match x, y with
  | active p, active q => active (p.overwrite q)
  | _, y => y

/-- Assigning a form copies it. -/
theorem assignForm_eq (x y : AffineForm α) : x.assignForm y = y := by
  cases x with
  | active p =>
    cases y with
    | active q => rw [assignForm, Linear.overwrite_eq]
    | _ => rfl
  | _ => rfl

/-- The form `center ± error` without noise symbols in place of another form. -/
def setConstant (x : AffineForm α) (center error : α) : AffineForm α :=
  match x with
  | active p =>
    if p.size = 0 then active { p with center, error } else active (.constant center error)
  | _ => active (.constant center error)

/-- Nothing of the overwritten form is left. -/
theorem setConstant_eq (x : AffineForm α) (center error : α) :
    x.setConstant center error = active (.constant center error) := by
  cases x with
  | active p =>
    rw [setConstant]
    split
    · next hp =>
      have hcs : p.coeffs = [] := List.eq_nil_of_length_eq_zero hp
      rw [hcs, Linear.constant]
    · rfl
  | _ => rfl

variable [Scalar α]

/-- The form of an interval in place of another form. -/
def assignInterval (x : AffineForm α) (i : Interval α) : AffineForm α :=
  if i.isEmpty then empty
  else if i.isUnboundedBelow && i.isUnboundedAbove then allReals
  else if i.isUnboundedAbove then boundedBelow i.lower
  else if i.isUnboundedBelow then boundedAbove i.upper
  else x.setConstant i.midpoint i.radius

/-- Assigning an interval makes its form. -/
theorem assignInterval_eq (x : AffineForm α) (i : Interval α) :
    x.assignInterval i = ofInterval i := by
  rw [assignInterval, ofInterval, setConstant_eq]
  cases i.isEmpty with
  | true => rfl
  | false => cases i.isUnboundedBelow <;> cases i.isUnboundedAbove <;> rfl

/-- The form of a scalar in place of another form. -/
def assignScalar (x : AffineForm α) (d : α) : AffineForm α :=
  if isFinite d then x.setConstant d Scalar.zero
  else if d == infinity then boundedBelow maxFinite
  else if d == -infinity then boundedAbove (-maxFinite)
  else allReals

/-- Assigning a scalar makes its form. -/
theorem assignScalar_eq (x : AffineForm α) (d : α) : x.assignScalar d = ofScalar d := by
  rw [assignScalar, ofScalar, setConstant_eq]

end AffineArithmetic.AffineForm

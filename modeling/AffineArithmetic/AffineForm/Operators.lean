import AffineArithmetic.AffineForm.Product

/-!
# Operators on affine forms

`+`, `-` and `*` between two forms, and between a form and a scalar or an interval on either side.
A form on the right is never converted: sums and products exchange their operands, and a difference
adds the opposite form.
-/

namespace AffineArithmetic.AffineForm

variable {α : Type} [Scalar α]

instance : Neg (AffineForm α) := ⟨AffineForm.neg⟩

instance : Add (AffineForm α) := ⟨fun x y ↦ x.update { add := some y }⟩

/-- The difference is the opposite of `-x + y`, which loses nothing to the two negations. -/
instance : Sub (AffineForm α) :=
  ⟨fun x y ↦ -x.update { scale := some (-Scalar.one), add := some y }⟩

instance : Mul (AffineForm α) := ⟨AffineForm.mul⟩

instance : NatPow (AffineForm α) := ⟨pow⟩

instance : HAdd (AffineForm α) α (AffineForm α) := ⟨fun x d ↦ x.update { shift := some d }⟩

instance : HSub (AffineForm α) α (AffineForm α) := ⟨fun x d ↦ x.update { shift := some (-d) }⟩

instance : HMul (AffineForm α) α (AffineForm α) := ⟨fun x d ↦ x.update { scale := some d }⟩

instance : HAdd (AffineForm α) (Interval α) (AffineForm α) := ⟨addInterval⟩

instance : HSub (AffineForm α) (Interval α) (AffineForm α) := ⟨fun x r ↦ x.addInterval (-r)⟩

instance : HMul (AffineForm α) (Interval α) (AffineForm α) := ⟨mulInterval⟩

instance : HAdd α (AffineForm α) (AffineForm α) := ⟨fun d x ↦ x + d⟩

instance : HSub α (AffineForm α) (AffineForm α) := ⟨fun d x ↦ -x + d⟩

instance : HMul α (AffineForm α) (AffineForm α) := ⟨fun d x ↦ x * d⟩

instance : HAdd (Interval α) (AffineForm α) (AffineForm α) := ⟨fun r x ↦ x + r⟩

instance : HSub (Interval α) (AffineForm α) (AffineForm α) := ⟨fun r x ↦ -x + r⟩

instance : HMul (Interval α) (AffineForm α) (AffineForm α) := ⟨fun r x ↦ x * r⟩

end AffineArithmetic.AffineForm

import AffineArithmetic.Proofs.AffineForm.Symmetry
import AffineArithmetic.Proofs.Interval.Scalar

/-!
# Scalars as operands

A scalar, the interval that holds it and its form are the same operand in three types. Over lawful
scalars sums and differences cannot tell them apart, nor do products tell the interval from the
form. A product with the interval multiplies the radius 0 by the sum of the absolute entries,
however, which has no result where that sum overflows: only without such an overflow is it the
product with the scalar.
-/

namespace AffineArithmetic

open Scalar

variable {α : Type} [Scalar α]

namespace Linear

variable [LawfulScalar α] {p : Linear α} {d : α}

/-- Widening by 0 changes nothing. -/
theorem widen_zero (p : Linear α) : p.widen zero = p := by
  refine Linear.ext rfl rfl ?_
  rw [widen, LawfulScalar.abs_zero, LawfulScalar.add_zero]

/-- The sum of a finite form with its opposite keeps nothing but the errors. -/
theorem add_neg_self (h : p.isFinite = true) :
    p + -p = ⟨zero, p.coeffs.map fun _ ↦ zero, p.error + p.error⟩ := by
  obtain ⟨-, hc, hcs⟩ := isFinite_iff.mp h
  have hself : ∀ a : α, Scalar.isFinite a = true → a + -a = zero := fun a ha ↦ by
    rw [← LawfulScalar.sub_eq_add_neg, LawfulScalar.sub_self ha]
  refine Linear.ext (hself p.center hc) ?_ rfl
  rw [coeffs_add, coeffs_neg, List.zipWith_map_right, List.zipWith_self]
  exact List.map_congr_left fun a ha ↦ hself a (hcs a ha)

/-- Adding a constant to a form without noise symbols moves it. -/
theorem add_constant (h : p.size = 0) (d : α) : p + constant d zero = p.shift d := by
  refine Linear.ext rfl ?_ (LawfulScalar.add_zero _)
  rw [coeffs_add, shift, List.eq_nil_of_length_eq_zero h]
  rfl

/-- A constant is the interval of its scalar. -/
theorem toInterval_constant (h : Scalar.isFinite d = true) :
    (constant d zero).toInterval = Interval.ofScalar d := by
  have hr : (constant d zero).radius = zero := by
    rw [radius, absSum, Scalar.sum]
    exact (LawfulScalar.add_zero _).trans LawfulScalar.neg_zero
  have hd : d ≤ d := LawfulScalar.le_rfl (LawfulScalar.ne_nan_of_isFinite h)
  rw [toInterval, hr, Interval.ofScalar_of_isFinite h]
  change Interval.ofBounds (d - zero) (d + zero) = _
  rw [LawfulScalar.sub_zero, LawfulScalar.add_zero]
  exact Interval.ofBounds_of_inOrder (Interval.inOrder_of_isFinite h h hd)

/-- The product with the interval of a scalar multiplies the absolute sum of the entries by 0. -/
theorem mulInterval_ofScalar (h : Scalar.isFinite d = true) : p.mulInterval (.ofScalar d) =
    ⟨p.center * d, p.coeffs.map (· * d), p.error * Scalar.abs d + zero * absSum p.entries⟩ := by
  rw [mulInterval, Interval.midpoint_ofScalar h, Interval.magnitude_ofScalar h,
    Interval.radius_ofScalar h]

/-- The product with the interval of a scalar is the product with the scalar if the absolute sum of
the entries does not overflow. -/
theorem mulInterval_ofScalar_eq_scale (hp : p.isFinite = true) (hd : Scalar.isFinite d = true)
    (hs : Scalar.isFinite (absSum p.entries) = true) : p.mulInterval (.ofScalar d) = p.scale d := by
  obtain ⟨he, hc, hcs⟩ := isFinite_iff.mp hp
  rw [mulInterval_ofScalar hd, LawfulScalar.zero_mul hs, LawfulScalar.add_zero]
  by_cases h0 : (d == zero) = true
  · rw [scale_of_eq_zero h0, (LawfulScalar.beq_iff.mp h0).1, LawfulScalar.mul_zero hc,
      LawfulScalar.abs_zero, LawfulScalar.mul_zero he]
    congr 1
    exact List.map_congr_left fun a ha ↦ LawfulScalar.mul_zero (hcs a ha)
  · exact (scale_of_ne_zero h0).symm

/-- The product with the interval of a scalar is not finite if the absolute sum of the entries
overflows. -/
theorem isFinite_mulInterval_ofScalar (hd : Scalar.isFinite d = true)
    (hs : Scalar.isFinite (absSum p.entries) = false) :
    (p.mulInterval (.ofScalar d)).isFinite = false := by
  rw [← Bool.not_eq_true]
  intro hf
  rw [mulInterval_ofScalar hd] at hf
  have hsum := (LawfulScalar.isFinite_of_add (isFinite_iff.mp hf).1).2
  rw [(LawfulScalar.isFinite_of_mul hsum).2] at hs
  contradiction

/-- A form without noise symbols has the same product with a constant as with its interval. -/
theorem mul_constant (h : p.size = 0) (hp : p.isFinite = true) (hd : Scalar.isFinite d = true) :
    p * constant d zero = p.mulInterval (.ofScalar d) := by
  obtain ⟨he, hc, -⟩ := isFinite_iff.mp hp
  have hcs : p.coeffs = [] := List.eq_nil_of_length_eq_zero h
  have hc' : Scalar.isFinite (Scalar.abs p.center) = true := (LawfulScalar.isFinite_abs _).trans hc
  have hdiag : diagonal p (constant d zero) = [] := by
    rw [diagonal, hcs]
    rfl
  have hhalf : half * (zero : α) = zero := LawfulScalar.mul_zero LawfulScalar.isFinite_half
  have hsum : absSum p.entries = Scalar.abs p.center := by
    rw [entries, hcs]
    change -zero + Scalar.abs p.center = _
    rw [LawfulScalar.neg_zero, LawfulScalar.zero_add]
  rw [mulInterval_ofScalar hd, hsum, LawfulScalar.zero_mul hc', LawfulScalar.add_zero]
  refine Linear.ext ?_ ?_ ?_
  · rw [center_mul, hdiag]
    change p.center * d + half * zero = p.center * d
    rw [hhalf, LawfulScalar.add_zero]
  · rw [coeffs_mul, hcs]
    rfl
  · rw [error_mul, hdiag, hcs]
    change Scalar.abs d * p.error + Scalar.abs p.center * zero + (p.error + zero) * (zero + zero)
      - half * zero = p.error * Scalar.abs d
    rw [LawfulScalar.mul_zero hc', LawfulScalar.add_zero, LawfulScalar.add_zero,
      LawfulScalar.add_zero, LawfulScalar.mul_zero he, LawfulScalar.add_zero, hhalf,
      LawfulScalar.sub_zero, LawfulScalar.mul_comm]

end Linear

namespace AffineForm

/-- The numbers of the form are finite. -/
def IsFinite : AffineForm α → Prop
  | active p => p.isFinite = true
  | boundedBelow b => isFinite b = true
  | boundedAbove b => isFinite b = true
  | _ => True

variable {x y : AffineForm α} {d : α}

/-- Finite forms are settled. -/
theorem settle_of_isFinite (h : IsFinite x) : x.settle = x := by
  cases x with
  | active p => exact if_pos h
  | _ => rfl

/-- Settled forms are settled. -/
@[simp] theorem settle_settle (x : AffineForm α) : x.settle.settle = x.settle := by
  cases x with
  | active p =>
    by_cases h : p.isFinite = true
    · have hs : (active p).settle = active p := if_pos h
      rw [hs, hs]
    · have hs : (active p).settle = allReals := if_neg h
      rw [hs]
      rfl
  | _ => rfl

variable [LawfulScalar α]

/-! ### Enclosed intervals -/

/-- The enclosed intervals are proper. -/
theorem toInterval_isProper (x : AffineForm α) : x.toInterval.IsProper := by
  cases x with
  | active p => exact Interval.isProper_ofBounds _ _
  | empty => exact .inl rfl
  | allReals => exact .inr Interval.inOrder_univ
  | boundedBelow b => exact Interval.isProper_ofBounds _ _
  | boundedAbove b => exact Interval.isProper_ofBounds _ _

private theorem ofInterval_boundedBelow {b : α} (h : isFinite b = true) :
    ofInterval (boundedBelow b).toInterval = boundedBelow b := by
  have ho := Interval.inOrder_infinity h
  rw [toInterval, Interval.ofBounds_of_inOrder ho, ofInterval, Interval.isEmpty_of_le ho.1,
    Interval.isUnboundedBelow_of_isFinite h ho.1, Interval.isUnboundedAbove_infinity ho.1]
  rfl

/-- Finite forms that are not linear are the forms of their intervals. -/
theorem ofInterval_toInterval (h : IsFinite x) (hx : x.isActive = false) :
    ofInterval x.toInterval = x := by
  cases x with
  | active p => contradiction
  | empty => exact if_pos Interval.empty_isEmpty
  | allReals =>
    have he : (Interval.univ : Interval α).isEmpty = false :=
      Interval.isEmpty_of_le Interval.inOrder_univ.1
    rw [toInterval, ofInterval, he, Interval.isUnboundedBelow_univ,
      Interval.isUnboundedAbove_univ]
    rfl
  | boundedBelow b => exact ofInterval_boundedBelow h
  | boundedAbove b =>
    -- the opposite of a half line that reaches up
    have hb : isFinite (-b) = true := (LawfulScalar.isFinite_neg b).trans h
    have hneg : boundedAbove b = -boundedBelow (-b) :=
      congrArg boundedAbove (LawfulScalar.neg_neg b).symm
    rw [hneg, neg_toInterval, ofInterval_neg, ofInterval_boundedBelow hb]

/-- The form of an interval that is empty or has an infinite end encloses exactly its points. -/
theorem toInterval_ofInterval_of_not_isBounded {i : Interval α} (hi : i.IsProper)
    (hb : i.isBounded = false) : (ofInterval i).toInterval = i := by
  rcases ofInterval_cases i with ⟨he, heq⟩ | ⟨he, hends⟩
  · have hempty : i = .empty := hi.resolve_right fun ho ↦
      absurd (Interval.isEmpty_of_le ho.1) (by simp [he])
    rw [heq, hempty]
    rfl
  have ho := hi.inOrder_of_isEmpty he
  have hlow : i.isUnboundedBelow = true → -infinity = i.lower := fun h ↦ by
    rw [Interval.isUnboundedBelow, Bool.and_eq_true] at h
    exact (LawfulScalar.beq_iff.mp h.2).1.symm
  have hupp : i.isUnboundedAbove = true → infinity = i.upper := fun h ↦ by
    rw [Interval.isUnboundedAbove, Bool.and_eq_true] at h
    exact (LawfulScalar.beq_iff.mp h.2).1.symm
  rcases hends with ⟨hb, ha, heq⟩ | ⟨-, ha, heq⟩ | ⟨hb, -, heq⟩ | ⟨hbd, -⟩
  · rw [heq, toInterval, Interval.univ, hlow hb, hupp ha]
  · rw [heq, toInterval, hupp ha, Interval.ofBounds_of_inOrder ho]
  · rw [heq, toInterval, hlow hb, Interval.ofBounds_of_inOrder ho]
  · rw [hb] at hbd
    contradiction

/-- Finite forms that enclose nothing are empty. -/
theorem isEmpty_toInterval (h : IsFinite x) (hx : x.isActive = false) (hne : x ≠ empty) :
    x.toInterval.isEmpty = false := by
  rw [← Bool.not_eq_true]
  intro he
  apply hne
  rw [← ofInterval_toInterval h hx]
  exact if_pos he

omit [LawfulScalar α] in
/-- The form of a scalar is linear if the scalar is finite. -/
@[simp] theorem isActive_ofScalar (d : α) : (ofScalar d).isActive = isFinite d := by
  by_cases hf : isFinite d = true
  · rw [ofScalar, if_pos hf, hf]
    rfl
  · rw [ofScalar, if_neg hf, Bool.eq_false_iff.mpr hf]
    split
    · rfl
    · split <;> rfl

/-- The form of a scalar encloses the interval of the scalar. -/
@[simp] theorem toInterval_ofScalar (d : α) : (ofScalar d).toInterval = Interval.ofScalar d := by
  unfold ofScalar
  by_cases hf : isFinite d = true
  · rw [if_pos hf]
    exact Linear.toInterval_constant hf
  · rw [if_neg hf, Interval.ofScalar, if_neg hf, apply_ite toInterval, apply_ite toInterval]
    rfl

/-! ### Multiplication by 1 and -1 -/

/-- Multiplication by 1 changes nothing. -/
theorem scaleStep_one (h : IsFinite x) : x.scaleStep Scalar.one = x := by
  have h1 : isFinite (Scalar.one : α) = true := LawfulScalar.isFinite_one
  rcases active_or_not x true with ⟨p, rfl, -⟩ | hx | hx
  · rw [scaleStep_of_isFinite h1, Linear.scale_one]
  · have hone : Interval.ofScalar (Scalar.one : α) = Interval.one :=
      Interval.ofScalar_of_isFinite h1
    rw [scaleStep_of_not (.inl hx)]
    change ofInterval (x.toInterval * Interval.ofScalar Scalar.one) = x
    rw [hone, Interval.mul_one (toInterval_isProper x), ofInterval_toInterval h hx]
  · contradiction

/-- Multiplication by -1 negates. -/
theorem scaleStep_opposite (h : IsFinite x) : x.scaleStep (-Scalar.one) = -x := by
  rw [scaleStep_neg, scaleStep_one h]

/-- The product with -1 is the opposite form. -/
theorem mul_neg_one (h : IsFinite x) : x * (-Scalar.one : α) = -x := by
  change (x.scaleStep (-Scalar.one)).settle = -x
  rw [scaleStep_opposite h, neg_settle, settle_of_isFinite h]

/-- A difference is the sum with the opposite form. -/
protected theorem sub_eq_add_neg (h : IsFinite x) (y : AffineForm α) : x - y = x + -y := by
  change -((x.scaleStep (-Scalar.one)).addStep y).settle = (x.addStep (-y)).settle
  rw [scaleStep_opposite h, ← neg_settle, ← neg_addStep, AffineForm.neg_neg]

/-- The difference of a finite linear form with itself keeps nothing but the errors. -/
theorem active_sub_self {p : Linear α} (h : p.isFinite = true) : active p - active p =
    (active ⟨Scalar.zero, p.coeffs.map fun _ ↦ Scalar.zero, p.error + p.error⟩).settle := by
  rw [AffineForm.sub_eq_add_neg (x := active p) h, ← Linear.add_neg_self h]
  exact congrArg settle (addStep_of_eq (Linear.size_neg p).symm)

/-! ### Sums and differences -/

/-- The sum with the interval of a scalar is the sum with the scalar. -/
theorem add_interval_ofScalar (x : AffineForm α) (d : α) : x + Interval.ofScalar d = x + d := by
  change x.addInterval (Interval.ofScalar d) = (x.shiftStep d).settle
  rcases active_or_not x (isFinite d) with ⟨p, rfl, hd⟩ | h
  · have h0 : isFinite (Scalar.zero : α) = true := LawfulScalar.isFinite_zero
    rw [addInterval_of_isBounded ((Interval.isBounded_ofScalar d).trans hd),
      Interval.midpoint_ofScalar hd, Interval.radius_ofScalar hd, shiftStep_of_isFinite hd,
      widenStep_of_isFinite h0, Linear.widen_zero]
  · rw [addInterval_of_not (by simpa using h), shiftStep_of_not h]
    rfl

/-- The sum with the form of a scalar is the sum with the scalar. -/
theorem add_ofScalar (x : AffineForm α) (d : α) : x + ofScalar d = x + d := by
  rw [← add_interval_ofScalar]
  change (x.addStep (ofScalar d)).settle = x.addInterval (Interval.ofScalar d)
  rcases active_or_not x (isFinite d) with ⟨p, rfl, hd⟩ | h
  · have hform : ofScalar d = active (.constant d Scalar.zero) := if_pos hd
    rcases Nat.eq_zero_or_pos p.size with hsize | hsize
    · rw [hform, addStep_of_eq hsize, Linear.add_constant hsize]
      refine Eq.trans ?_ (add_interval_ofScalar (active p) d).symm
      exact congrArg settle (shiftStep_of_isFinite hd).symm
    · rw [hform, addStep_of_gt (q := .constant d Scalar.zero) hsize, Linear.toInterval_constant hd]
      exact settle_settle _
  · rw [addStep_of_not_active (by simpa using h), addInterval_of_not (by simpa using h),
      toInterval_ofScalar]

/-- The difference with the interval of a scalar is the difference with the scalar. -/
theorem sub_interval_ofScalar (x : AffineForm α) (d : α) : x - Interval.ofScalar d = x - d := by
  change x + -Interval.ofScalar d = x + -d
  rw [Interval.neg_ofScalar, add_interval_ofScalar]

/-- The difference with the form of a scalar is the difference with the scalar. -/
theorem sub_ofScalar (h : IsFinite x) (d : α) : x - ofScalar d = x - d := by
  rw [AffineForm.sub_eq_add_neg h, ← ofScalar_neg, add_ofScalar]
  rfl

/-- The difference from the interval of a scalar is the difference from the scalar. -/
theorem interval_ofScalar_sub (x : AffineForm α) (d : α) : Interval.ofScalar d - x = d - x :=
  add_interval_ofScalar (-x) d

/-- The difference from the form of a scalar is the difference from the scalar. -/
theorem ofScalar_sub (h : IsFinite (ofScalar d)) (x : AffineForm α) : ofScalar d - x = d - x := by
  rw [AffineForm.sub_eq_add_neg h, AffineForm.add_comm, add_ofScalar]
  rfl

/-! ### Products -/

/-- The absolute values of the entries of a linear form have a finite sum. -/
def HasFiniteSum : AffineForm α → Prop
  | active p => isFinite (absSum p.entries) = true
  | _ => True

instance : DecidablePred (HasFiniteSum : AffineForm α → Prop)
  | active p => inferInstanceAs (Decidable (isFinite (absSum p.entries) = true))
  | empty | allReals | boundedBelow _ | boundedAbove _ => .isTrue trivial

/-- The product with the form of a scalar is the product with the interval of the scalar. -/
theorem mul_ofScalar (h : IsFinite x) (d : α) : x * ofScalar d = x * Interval.ofScalar d := by
  change x * ofScalar d = x.mulInterval (Interval.ofScalar d)
  rcases active_or_not x (isFinite d) with ⟨p, rfl, hd⟩ | hx
  · have hform : ofScalar d = active (.constant d Scalar.zero) := if_pos hd
    rcases Nat.eq_zero_or_pos p.size with hsize | hsize
    · rw [hform, mul_of_eq hsize, Linear.mul_constant hsize h hd,
        mulInterval_of_isBounded ((Interval.isBounded_ofScalar d).trans hd)]
    · rw [hform, mul_of_gt (q := .constant d Scalar.zero) hsize, Linear.toInterval_constant hd]
  · rw [mul_of_not_active (by simpa using hx), mulInterval_of_not (by simpa using hx),
      toInterval_ofScalar]

/-- The product with the interval of a scalar is the product with the scalar, once settled, if the
absolute sum of the entries is finite. -/
theorem settle_mul_interval_ofScalar (h : IsFinite x)
    (hs : HasFiniteSum x ∨ isFinite d = false) : (x * Interval.ofScalar d).settle = x * d := by
  change (x.mulInterval (Interval.ofScalar d)).settle = (x.scaleStep d).settle
  rcases active_or_not x (isFinite d) with ⟨p, rfl, hd⟩ | hx
  · have hsum : isFinite (absSum p.entries) = true := by
      apply hs.resolve_right
      rw [hd]
      exact Bool.noConfusion
    rw [mulInterval_of_isBounded ((Interval.isBounded_ofScalar d).trans hd),
      Linear.mulInterval_ofScalar_eq_scale h hd hsum, scaleStep_of_isFinite hd, settle_settle]
  · rw [mulInterval_of_not (by simpa using hx), scaleStep_of_not hx]
    rfl

/-- The product with the interval of a finite scalar is the real line if the absolute sum of the
entries overflows. -/
theorem mul_interval_ofScalar_of_not (hs : ¬ HasFiniteSum x) (hd : isFinite d = true) :
    x * Interval.ofScalar d = allReals := by
  cases x with
  | active p =>
    have hf := Linear.isFinite_mulInterval_ofScalar hd (Bool.not_eq_true _ ▸ hs)
    refine (mulInterval_of_isBounded ((Interval.isBounded_ofScalar d).trans hd)).trans ?_
    rw [settle, hf]
    rfl
  | _ => exact absurd trivial hs

/-- The product with the form 1 changes nothing if the absolute sum of the entries is finite. -/
theorem settle_mul_one (h : IsFinite x) (hs : HasFiniteSum x) :
    (x * AffineForm.one).settle = x := by
  change (x * ofScalar Scalar.one).settle = x
  rw [mul_ofScalar h, settle_mul_interval_ofScalar h (.inl hs)]
  change (x.scaleStep Scalar.one).settle = x
  rw [scaleStep_one h, settle_of_isFinite h]

/-- The form of a point is the form of its scalar. -/
theorem ofInterval_ofScalar (h : isFinite d = true) :
    ofInterval (Interval.ofScalar d) = active (.constant d Scalar.zero) := by
  have hm := Interval.midpoint_ofScalar h
  have hr := Interval.radius_ofScalar h
  rw [Interval.ofScalar_of_isFinite h] at hm hr ⊢
  rw [ofInterval, Interval.isEmpty_point h, (Interval.isUnbounded_point h).1,
    (Interval.isUnbounded_point h).2, hm, hr]
  rfl

private theorem isZero_zeros (cs : List α) :
    (active ⟨Scalar.zero, cs.map fun _ ↦ (Scalar.zero : α), Scalar.zero⟩).isZero = true := by
  have h0 : ((Scalar.zero : α) == Scalar.zero) = true :=
    LawfulScalar.beq_self_iff.mpr (LawfulScalar.ne_nan_of_isFinite LawfulScalar.isFinite_zero)
  rw [isZero, Linear.entries]
  simp [h0]

private theorem isZero_scale_zero (p : Linear α) :
    (active (p.scale Scalar.zero)).settle.isZero = true := by
  have h0 : ((Scalar.zero : α) == Scalar.zero) = true :=
    LawfulScalar.beq_self_iff.mpr (LawfulScalar.ne_nan_of_isFinite LawfulScalar.isFinite_zero)
  have hf : (p.scale Scalar.zero).isFinite = true := by
    rw [Linear.scale_of_eq_zero h0]
    refine Linear.isFinite_iff.mpr ⟨LawfulScalar.isFinite_zero, LawfulScalar.isFinite_zero, ?_⟩
    intro a ha
    obtain ⟨b, -, rfl⟩ := List.mem_map.mp ha
    exact LawfulScalar.isFinite_zero
  rw [settle_of_isFinite (x := active _) hf, Linear.scale_of_eq_zero h0]
  exact isZero_zeros p.coeffs

/-- The product with the point 0 is exactly 0 if the absolute sum of the entries is finite. -/
theorem isZero_mul_zero (h : IsFinite x) (hs : HasFiniteSum x) (hne : x ≠ empty) :
    (x * (Interval.zero : Interval α)).isZero = true := by
  have h0 : isFinite (Scalar.zero : α) = true := LawfulScalar.isFinite_zero
  have hzero : (Interval.zero : Interval α) = Interval.ofScalar Scalar.zero :=
    (Interval.ofScalar_of_isFinite h0).symm
  rcases active_or_not x true with ⟨p, rfl, -⟩ | hx | hx
  · rw [hzero]
    change ((active p).mulInterval _).isZero = true
    rw [mulInterval_of_isBounded ((Interval.isBounded_ofScalar _).trans h0),
      Linear.mulInterval_ofScalar_eq_scale h h0 hs]
    exact isZero_scale_zero p
  · change (x.mulInterval _).isZero = true
    rw [mulInterval_of_not (.inl hx), Interval.mul_zero (isEmpty_toInterval h hx hne), hzero,
      ofInterval_ofScalar h0]
    exact isZero_zeros []
  · contradiction

end AffineForm
end AffineArithmetic

import AffineArithmetic.Proofs.Binary64.Rounded
import AffineArithmetic.Proofs.Interval.Proper
import AffineArithmetic.Proofs.Interval.Symmetry

/-!
# Intervals of rounded numbers

An interval with binary64 bounds becomes one with rounded bounds, and every operation on intervals
can be carried out on either side. Proper intervals are equal as far as comparison can tell if they
become the same interval.
-/

namespace AffineArithmetic.Interval

open Binary64 Scalar

/-- The interval between the values of the bounds. -/
def toRounded (i : Interval Float) : Interval Rounded :=
  ⟨Binary64.toRounded i.lower, Binary64.toRounded i.upper⟩

variable {i j : Interval Float} {x : Float}

/-- The lower bound becomes its value. -/
@[simp] theorem lower_toRounded (i : Interval Float) :
    i.toRounded.lower = Binary64.toRounded i.lower := rfl

/-- The upper bound becomes its value. -/
@[simp] theorem upper_toRounded (i : Interval Float) :
    i.toRounded.upper = Binary64.toRounded i.upper := rfl

/-! ### Constants and tests -/

/-- The empty interval stays empty. -/
@[simp] theorem toRounded_empty : (empty : Interval Float).toRounded = empty :=
  congrArg (Interval.mk infinity) (Binary64.toRounded_neg infinity)

/-- The real line stays the real line. -/
@[simp] theorem toRounded_univ : (univ : Interval Float).toRounded = univ :=
  congrArg (Interval.mk · infinity) (Binary64.toRounded_neg infinity)

/-- The point 0 stays the point 0. -/
@[simp] theorem toRounded_point_zero : (zero : Interval Float).toRounded = zero := rfl

/-- The interval of a noise symbol stays the same. -/
@[simp] theorem toRounded_noise : (noise : Interval Float).toRounded = noise :=
  congrArg (Interval.mk · Scalar.one) (Binary64.toRounded_neg Scalar.one)

/-- Bounds are crossed as their values are. -/
@[simp] theorem isEmpty_toRounded (i : Interval Float) : i.toRounded.isEmpty = i.isEmpty := by
  simp only [isEmpty, lower_toRounded, upper_toRounded, toRounded_lt]

/-- The interval reaches down as its bounds do. -/
@[simp] theorem isUnboundedBelow_toRounded (i : Interval Float) :
    i.toRounded.isUnboundedBelow = i.isUnboundedBelow := by
  simp only [isUnboundedBelow, isEmpty_toRounded, lower_toRounded, ← toRounded_infinity,
    ← toRounded_neg, toRounded_beq]

/-- The interval reaches up as its bounds do. -/
@[simp] theorem isUnboundedAbove_toRounded (i : Interval Float) :
    i.toRounded.isUnboundedAbove = i.isUnboundedAbove := by
  simp only [isUnboundedAbove, isEmpty_toRounded, upper_toRounded, ← toRounded_infinity,
    toRounded_beq]

/-- The interval has an infinite end as its bounds have one. -/
@[simp] theorem isUnbounded_toRounded (i : Interval Float) :
    i.toRounded.isUnbounded = i.isUnbounded := by
  rw [isUnbounded, isUnboundedBelow_toRounded, isUnboundedAbove_toRounded, isUnbounded]

/-- The interval is bounded as its bounds are. -/
@[simp] theorem isBounded_toRounded (i : Interval Float) :
    i.toRounded.isBounded = i.isBounded := by
  rw [isBounded, isEmpty_toRounded, isUnbounded_toRounded, isBounded]

/-- The interval contains a number as its bounds are around it. -/
@[simp] theorem contains_toRounded (i : Interval Float) (x : Float) :
    i.toRounded.contains (Binary64.toRounded x) = i.contains x := by
  simp only [contains, lower_toRounded, upper_toRounded, toRounded_le]

/-- One interval lies in another as its bounds do. -/
@[simp] theorem isSubset_toRounded (i j : Interval Float) :
    i.toRounded.isSubset j.toRounded = i.isSubset j := by
  simp only [isSubset, isEmpty_toRounded, lower_toRounded, upper_toRounded, toRounded_le]

/-- Bounds are in order as their values are. -/
theorem inOrder_toRounded {l u : Float} :
    InOrder (Binary64.toRounded l) (Binary64.toRounded u) ↔ InOrder l u := by
  simp only [InOrder, bne, ← toRounded_infinity, ← Binary64.toRounded_neg, toRounded_beq,
    toRounded_le]

/-- Proper intervals stay proper. -/
theorem isProper_toRounded (h : i.IsProper) : i.toRounded.IsProper := by
  rcases h with rfl | h
  · exact .inl toRounded_empty
  · exact .inr (inOrder_toRounded.mpr h)

/-! ### Construction -/

/-- The interval between two bounds. -/
@[simp] theorem toRounded_ofBounds (l u : Float) : (ofBounds l u).toRounded =
    ofBounds (Binary64.toRounded l) (Binary64.toRounded u) := by
  simp only [ofBounds, apply_ite toRounded, toRounded_empty, bne, ← toRounded_infinity,
    ← toRounded_neg, toRounded_beq, toRounded_le]
  rfl

/-- The interval between two computed bounds. -/
@[simp] theorem toRounded_outward (l u : Float) : (outward l u).toRounded =
    outward (Binary64.toRounded l) (Binary64.toRounded u) := by
  simp only [outward, toRounded_ofBounds, apply_ite Binary64.toRounded, ← toRounded_infinity,
    ← toRounded_maxFinite, ← toRounded_neg, toRounded_beq]

/-- The interval that holds a scalar. -/
@[simp] theorem toRounded_ofScalar (x : Float) :
    (ofScalar x).toRounded = ofScalar (Binary64.toRounded x) := by
  simp only [ofScalar, apply_ite toRounded, toRounded_ofBounds, toRounded_univ,
    isFinite_toRounded, ← toRounded_infinity, ← toRounded_maxFinite, ← toRounded_neg,
    toRounded_beq]
  rfl

/-! ### Sizes -/

/-- The value of the midpoint. -/
@[simp] theorem toRounded_midpoint (i : Interval Float) :
    Binary64.toRounded i.midpoint = i.toRounded.midpoint := by
  unfold midpoint
  rw [isEmpty_toRounded, isUnboundedBelow_toRounded, isUnboundedAbove_toRounded,
    apply_ite Binary64.toRounded]
  congr 1
  cases i.isUnboundedBelow <;> cases i.isUnboundedAbove
  · simp only [apply_ite Binary64.toRounded, toRounded_add, toRounded_mul, toRounded_half,
      lower_toRounded, upper_toRounded, ← isFinite_toRounded]
    rfl
  · rfl
  · exact toRounded_neg maxFinite
  · rfl

/-- The value of the radius. -/
@[simp] theorem toRounded_radius (i : Interval Float) :
    Binary64.toRounded i.radius = i.toRounded.radius := by
  simp only [radius, apply_ite Binary64.toRounded, isEmpty_toRounded, isUnbounded_toRounded,
    toRounded_zero, toRounded_infinity, toRounded_max, toRounded_sub, toRounded_midpoint,
    lower_toRounded, upper_toRounded]

/-- The value of the width. -/
@[simp] theorem toRounded_width (i : Interval Float) :
    Binary64.toRounded i.width = i.toRounded.width := by
  simp only [width, apply_ite Binary64.toRounded, isEmpty_toRounded, toRounded_zero,
    toRounded_sub, lower_toRounded, upper_toRounded]

/-- The value of the largest absolute value. -/
@[simp] theorem toRounded_magnitude (i : Interval Float) :
    Binary64.toRounded i.magnitude = i.toRounded.magnitude := by
  simp only [magnitude, apply_ite Binary64.toRounded, isEmpty_toRounded, toRounded_nan,
    toRounded_max, toRounded_abs, lower_toRounded, upper_toRounded]

/-- The value of the smallest absolute value. -/
@[simp] theorem toRounded_mignitude (i : Interval Float) :
    Binary64.toRounded i.mignitude = i.toRounded.mignitude := by
  simp only [mignitude, apply_ite Binary64.toRounded, isEmpty_toRounded, toRounded_nan,
    ← contains_toRounded, toRounded_zero, toRounded_min, toRounded_abs, lower_toRounded,
    upper_toRounded]

/-! ### Arithmetic -/

/-- The opposite interval. -/
@[simp] theorem toRounded_neg (i : Interval Float) : (-i).toRounded = -i.toRounded := by
  have he := isEmpty_toRounded i
  cases h : i.isEmpty with
  | true => rw [neg_of_isEmpty h, neg_of_isEmpty (he.trans h)]
  | false =>
    rw [neg_of_isEmpty_eq_false h, neg_of_isEmpty_eq_false (he.trans h)]
    simp only [toRounded, Binary64.toRounded_neg]

/-- The interval of the absolute values. -/
@[simp] theorem toRounded_abs (i : Interval Float) : i.abs.toRounded = i.toRounded.abs := by
  simp only [abs, apply_ite toRounded, isEmpty_toRounded, toRounded_empty, toRounded_ofBounds,
    toRounded_mignitude, toRounded_magnitude]

/-- The sum of two intervals. -/
@[simp] theorem toRounded_add (i j : Interval Float) :
    (i + j).toRounded = i.toRounded + j.toRounded := by
  have hi := isEmpty_toRounded i
  have hj := isEmpty_toRounded j
  by_cases h : i.isEmpty = true ∨ j.isEmpty = true
  · rw [add_of_isEmpty h, add_of_isEmpty (by rwa [hi, hj]), toRounded_empty]
  · rw [not_or, Bool.not_eq_true, Bool.not_eq_true] at h
    rw [add_of_isEmpty_eq_false h.1 h.2,
      add_of_isEmpty_eq_false (hi.trans h.1) (hj.trans h.2), toRounded_outward,
      Binary64.toRounded_add, Binary64.toRounded_add]
    rfl

/-- The difference of two intervals. -/
@[simp] theorem toRounded_sub (i j : Interval Float) :
    (i - j).toRounded = i.toRounded - j.toRounded :=
  (toRounded_add i (-j)).trans (congrArg (i.toRounded + ·) (toRounded_neg j))

/-- The interval of the sums with a scalar. -/
@[simp] theorem toRounded_add_scalar (i : Interval Float) (x : Float) :
    (i + x).toRounded = i.toRounded + Binary64.toRounded x :=
  (toRounded_add i (ofScalar x)).trans (congrArg (i.toRounded + ·) (toRounded_ofScalar x))

private theorem toRounded_mulBounds (a b : Float) : Binary64.toRounded (mulBounds a b) =
    mulBounds (Binary64.toRounded a) (Binary64.toRounded b) := by
  simp only [mulBounds, apply_ite Binary64.toRounded, ← toRounded_zero, toRounded_beq,
    toRounded_mul]

private theorem toRounded_boundProducts (i j : Interval Float) :
    (boundProducts i j).map Binary64.toRounded = boundProducts i.toRounded j.toRounded := by
  simp only [boundProducts, List.map_cons, List.map_nil, toRounded_mulBounds, lower_toRounded,
    upper_toRounded]

private theorem toRounded_foldl_min (xs : List Float) (s : Float) :
    Binary64.toRounded (xs.foldl Scalar.min s) =
      (xs.map Binary64.toRounded).foldl Scalar.min (Binary64.toRounded s) := by
  rw [List.foldl_map]
  exact (List.foldl_hom Binary64.toRounded fun a b ↦ (toRounded_min a b).symm).symm

private theorem toRounded_foldl_max (xs : List Float) (s : Float) :
    Binary64.toRounded (xs.foldl Scalar.max s) =
      (xs.map Binary64.toRounded).foldl Scalar.max (Binary64.toRounded s) := by
  rw [List.foldl_map]
  exact (List.foldl_hom Binary64.toRounded fun a b ↦ (toRounded_max a b).symm).symm

/-- The product of two intervals. -/
@[simp] theorem toRounded_mul (i j : Interval Float) :
    (i * j).toRounded = i.toRounded * j.toRounded := by
  have hi := isEmpty_toRounded i
  have hj := isEmpty_toRounded j
  by_cases h : i.isEmpty = true ∨ j.isEmpty = true
  · rw [mul_of_isEmpty h, mul_of_isEmpty (by rwa [hi, hj]), toRounded_empty]
  · rw [not_or, Bool.not_eq_true, Bool.not_eq_true] at h
    rw [mul_of_isEmpty_eq_false h.1 h.2,
      mul_of_isEmpty_eq_false (hi.trans h.1) (hj.trans h.2), toRounded_outward,
      toRounded_foldl_min, toRounded_foldl_max, toRounded_boundProducts, toRounded_infinity,
      Binary64.toRounded_neg, toRounded_infinity]

/-- The interval of the products with a scalar. -/
@[simp] theorem toRounded_mul_scalar (i : Interval Float) (x : Float) :
    (i * x).toRounded = i.toRounded * Binary64.toRounded x :=
  (toRounded_mul i (ofScalar x)).trans (congrArg (i.toRounded * ·) (toRounded_ofScalar x))

/-- The power of an interval, as long as powers are computed by multiplication. -/
theorem toRounded_pow (i : Interval Float) {n : ℕ} (h : n ≤ maxSquaringExponent) :
    (i.pow n).toRounded = i.toRounded.pow n := by
  simp only [pow, apply_ite toRounded, isEmpty_toRounded, toRounded_empty, toRounded_outward,
    toRounded_power _ h, toRounded_mignitude, toRounded_magnitude, lower_toRounded,
    upper_toRounded]
  rfl

/-! ### Comparison -/

/-- Proper intervals are equal as scalars compare if their bounds have the same values. -/
theorem IsProper.beq_iff (h : i.IsProper) : (i == j) = true ↔ i.toRounded = j.toRounded := by
  obtain ⟨hl, hu⟩ := h.ne_nan
  change (i.lower == j.lower && i.upper == j.upper) = true ↔ _
  rw [Bool.and_eq_true, beq_iff_of_ne_nan (Rounded.eq_nan_iff.not.mpr hl),
    beq_iff_of_ne_nan (Rounded.eq_nan_iff.not.mpr hu), toRounded, toRounded, Interval.mk.injEq]

end AffineArithmetic.Interval

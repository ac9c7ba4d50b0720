import AffineArithmetic.Proofs.Interval.Rounded
import AffineArithmetic.Proofs.Linear.Basic
import AffineArithmetic.Proofs.Linear.Symmetry

/-!
# Linear forms of rounded numbers

A linear form with binary64 entries becomes one with rounded entries, and every linear operation can
be carried out on either side. Finite forms are equal as far as comparison can tell if they become
the same form.
-/

namespace AffineArithmetic.Linear

open Binary64 Scalar

/-- The form whose entries are the values of the entries. -/
def toRounded (p : Linear Float) : Linear Rounded :=
  ⟨Binary64.toRounded p.center, p.coeffs.map Binary64.toRounded, Binary64.toRounded p.error⟩

variable {p q : Linear Float}

/-- The centre becomes its value. -/
@[simp] theorem center_toRounded (p : Linear Float) :
    p.toRounded.center = Binary64.toRounded p.center := rfl

/-- The coefficients become their values. -/
@[simp] theorem coeffs_toRounded (p : Linear Float) :
    p.toRounded.coeffs = p.coeffs.map Binary64.toRounded := rfl

/-- The error becomes its value. -/
@[simp] theorem error_toRounded (p : Linear Float) :
    p.toRounded.error = Binary64.toRounded p.error := rfl

/-- The entries become their values. -/
theorem entries_toRounded (p : Linear Float) :
    p.toRounded.entries = p.entries.map Binary64.toRounded := rfl

/-- The noise symbols stay the same. -/
@[simp] theorem size_toRounded (p : Linear Float) : p.toRounded.size = p.size := List.length_map _

/-- The form is finite as its entries are. -/
@[simp] theorem isFinite_toRounded (p : Linear Float) : p.toRounded.isFinite = p.isFinite := by
  unfold isFinite
  rw [entries_toRounded, List.all_map, error_toRounded, Binary64.isFinite_toRounded]
  congr 2
  exact funext fun _ ↦ Binary64.isFinite_toRounded

/-! ### Sums over the symbols -/

private theorem toRounded_foldl_add (xs : List Float) (s : Float) :
    Binary64.toRounded (xs.foldl (· + ·) s) =
      (xs.map Binary64.toRounded).foldl (· + ·) (Binary64.toRounded s) := by
  rw [List.foldl_map]
  exact (List.foldl_hom Binary64.toRounded fun a b ↦ (toRounded_add a b).symm).symm

private theorem map_abs_toRounded (xs : List Float) :
    (xs.map Scalar.abs).map Binary64.toRounded =
      (xs.map Binary64.toRounded).map Scalar.abs := by
  rw [List.map_map, List.map_map]
  exact List.map_congr_left fun a _ ↦ toRounded_abs a

/-- The value of a sum. -/
theorem toRounded_total (xs : List Float) :
    Binary64.toRounded (total xs) = total (xs.map Binary64.toRounded) :=
  toRounded_foldl_add xs zero

/-- The value of an absolute sum. -/
theorem toRounded_absTotal (xs : List Float) :
    Binary64.toRounded (absTotal xs) = absTotal (xs.map Binary64.toRounded) := by
  rw [absTotal, toRounded_total, map_abs_toRounded, absTotal]

/-- The value of an absolute sum that starts at the negative zero. -/
theorem toRounded_absSum (xs : List Float) :
    Binary64.toRounded (absSum xs) = absSum (xs.map Binary64.toRounded) := by
  rw [absSum, Scalar.sum, toRounded_foldl_add, map_abs_toRounded, toRounded_neg, toRounded_zero,
    absSum, Scalar.sum]

/-! ### Linear operations -/

/-- The value of the radius. -/
@[simp] theorem toRounded_radius (p : Linear Float) :
    Binary64.toRounded p.radius = p.toRounded.radius := by
  rw [radius, toRounded_add, toRounded_absSum, radius, coeffs_toRounded, error_toRounded]

/-- The interval of the values. -/
@[simp] theorem toRounded_toInterval (p : Linear Float) :
    p.toInterval.toRounded = p.toRounded.toInterval := by
  rw [toInterval, Interval.toRounded_ofBounds, toRounded_sub, toRounded_add, toRounded_radius,
    toInterval, center_toRounded]

/-- The opposite form. -/
@[simp] theorem toRounded_neg (p : Linear Float) : (-p).toRounded = -p.toRounded := by
  refine Linear.ext (Binary64.toRounded_neg _) ?_ rfl
  rw [coeffs_toRounded, coeffs_neg, coeffs_neg, coeffs_toRounded, List.map_map, List.map_map]
  exact List.map_congr_left fun a _ ↦ Binary64.toRounded_neg a

/-- The form multiplied by a scalar. -/
@[simp] theorem toRounded_scale (p : Linear Float) (a : Float) :
    (p.scale a).toRounded = p.toRounded.scale (Binary64.toRounded a) := by
  unfold scale
  rw [← toRounded_zero, toRounded_beq, apply_ite toRounded]
  congr 1
  · refine Linear.ext rfl ?_ rfl
    simp only [coeffs_toRounded, List.map_map]
    rfl
  · refine Linear.ext (toRounded_mul _ _) ?_ ?_
    · simp only [coeffs_toRounded, List.map_map]
      exact List.map_congr_left fun c _ ↦ toRounded_mul c a
    · rw [error_toRounded, toRounded_mul, toRounded_abs, error_toRounded]

/-- The sum of two forms. -/
@[simp] theorem toRounded_add (p q : Linear Float) :
    (p + q).toRounded = p.toRounded + q.toRounded := by
  refine Linear.ext (Binary64.toRounded_add _ _) ?_ (Binary64.toRounded_add _ _)
  rw [coeffs_toRounded, coeffs_add, coeffs_add, coeffs_toRounded, coeffs_toRounded,
    List.map_zipWith, List.zipWith_map]
  simp only [Binary64.toRounded_add]

/-- The form moved by a constant. -/
@[simp] theorem toRounded_shift (p : Linear Float) (b : Float) :
    (p.shift b).toRounded = p.toRounded.shift (Binary64.toRounded b) :=
  Linear.ext (Binary64.toRounded_add _ _) rfl rfl

/-- The form with its error widened. -/
@[simp] theorem toRounded_widen (p : Linear Float) (d : Float) :
    (p.widen d).toRounded = p.toRounded.widen (Binary64.toRounded d) := by
  refine Linear.ext rfl rfl ?_
  rw [error_toRounded, widen, Binary64.toRounded_add, toRounded_abs, widen, error_toRounded]

/-! ### Products -/

/-- The product with an interval. -/
@[simp] theorem toRounded_mulInterval (p : Linear Float) (r : Interval Float) :
    (p.mulInterval r).toRounded = p.toRounded.mulInterval r.toRounded := by
  refine Linear.ext ?_ ?_ ?_
  · simp only [center_toRounded, mulInterval, toRounded_mul, Interval.toRounded_midpoint]
  · simp only [coeffs_toRounded, mulInterval, List.map_map, ← Interval.toRounded_midpoint]
    exact List.map_congr_left fun a _ ↦ toRounded_mul a _
  · simp only [error_toRounded, mulInterval, Binary64.toRounded_add, toRounded_mul,
      toRounded_absSum, entries_toRounded, Interval.toRounded_magnitude, Interval.toRounded_radius]

private theorem toRounded_diagonal (p q : Linear Float) :
    (diagonal p q).map Binary64.toRounded = diagonal p.toRounded q.toRounded := by
  simp only [diagonal, coeffs_toRounded, List.map_zipWith, List.zipWith_map, toRounded_mul]

/-- The product of two forms. -/
@[simp] theorem toRounded_mul (p q : Linear Float) :
    (p * q).toRounded = p.toRounded * q.toRounded := by
  refine Linear.ext ?_ ?_ ?_
  · simp only [center_toRounded, center_mul, Binary64.toRounded_add, Binary64.toRounded_mul,
      toRounded_half, toRounded_total, toRounded_diagonal]
  · simp only [coeffs_toRounded, coeffs_mul, List.map_zipWith, List.zipWith_map, center_toRounded,
      Binary64.toRounded_add, Binary64.toRounded_mul]
  · simp only [error_toRounded, error_mul, toRounded_sub, Binary64.toRounded_add,
      Binary64.toRounded_mul, toRounded_abs, toRounded_absTotal, toRounded_half,
      toRounded_diagonal, center_toRounded, coeffs_toRounded]

/-- The square of a form. -/
@[simp] theorem toRounded_sqr (p : Linear Float) : p.sqr.toRounded = p.toRounded.sqr := by
  have htwo : Binary64.toRounded two = two := Binary64.toRounded_add Scalar.one Scalar.one
  have hsquares : Binary64.toRounded (total (p.coeffs.map fun a ↦ a * a)) =
      total ((p.coeffs.map Binary64.toRounded).map fun a ↦ a * a) := by
    rw [toRounded_total, List.map_map, List.map_map]
    exact congrArg total (List.map_congr_left fun a _ ↦ Binary64.toRounded_mul a a)
  refine Linear.ext ?_ ?_ ?_
  · simp only [center_toRounded, sqr, Binary64.toRounded_add, Binary64.toRounded_mul,
      toRounded_half, hsquares, coeffs_toRounded]
  · simp only [coeffs_toRounded, sqr, List.map_map, center_toRounded]
    refine List.map_congr_left fun a _ ↦ ?_
    simp only [Function.comp_apply, Binary64.toRounded_mul, htwo]
  · simp only [error_toRounded, sqr, Binary64.toRounded_add, toRounded_sub,
      Binary64.toRounded_mul, htwo, toRounded_abs, toRounded_half, hsquares,
      toRounded_power _ (show 2 ≤ maxSquaringExponent by decide), toRounded_absTotal,
      center_toRounded, coeffs_toRounded]

/-! ### Comparison -/

private theorem coeffs_beq_iff {cs ds : List Float} (h : ∀ a ∈ cs, Scalar.isFinite a = true) :
    (cs == ds) = true ↔ cs.map Binary64.toRounded = ds.map Binary64.toRounded := by
  induction cs generalizing ds with
  | nil => cases ds <;> simp
  | cons c cs ih =>
    cases ds with
    | nil => simp
    | cons d ds =>
      have hc := h c List.mem_cons_self
      rw [List.cons_beq_cons, Bool.and_eq_true, Binary64.beq_iff_of_isFinite hc,
        ih fun a ha ↦ h a (List.mem_cons_of_mem c ha), List.map_cons, List.map_cons,
        List.cons.injEq]

/-- Finite forms are equal as scalars compare if their entries have the same values. -/
theorem beq_iff (h : p.isFinite = true) : (p == q) = true ↔ p.toRounded = q.toRounded := by
  obtain ⟨he, hc, hcs⟩ := isFinite_iff.mp h
  change (p.center == q.center && (p.coeffs == q.coeffs && p.error == q.error)) = true ↔ _
  rw [Bool.and_eq_true, Bool.and_eq_true, Binary64.beq_iff_of_isFinite hc, coeffs_beq_iff hcs,
    Binary64.beq_iff_of_isFinite he, Linear.ext_iff]
  rfl

end AffineArithmetic.Linear

import AffineArithmetic.Linear.Product
import AffineArithmetic.Proofs.Interval.Symmetry
import AffineArithmetic.Proofs.Linear.Basic

/-!
# Commutative and symmetric linear formulas

Over lawful scalars the formulas for sums and products of linear forms do not depend on the order of
the operands, although they are written with a first and a second one, and negation passes through
all of them: centres and coefficients are odd, errors and radii are even.
-/

namespace AffineArithmetic.Linear

open Scalar

attribute [ext] Linear

variable {α : Type} [Scalar α]

/-- The opposite form has the opposite centre. -/
@[simp] theorem center_neg (p : Linear α) : (-p).center = -p.center := rfl

/-- The opposite form has the opposite coefficients. -/
@[simp] theorem coeffs_neg (p : Linear α) : (-p).coeffs = p.coeffs.map (-·) := rfl

/-- The opposite form has the same error. -/
@[simp] theorem error_neg (p : Linear α) : (-p).error = p.error := rfl

/-- The opposite form has the opposite entries. -/
theorem entries_neg (p : Linear α) : (-p).entries = p.entries.map (-·) := rfl

/-- Coefficients are added one by one. -/
theorem coeffs_add (p q : Linear α) :
    (p + q).coeffs = List.zipWith (· + ·) p.coeffs q.coeffs := rfl

/-- The centre of a product. -/
theorem center_mul (p q : Linear α) :
    (p * q).center = p.center * q.center + half * total (diagonal p q) := rfl

/-- The coefficients of a product. -/
theorem coeffs_mul (p q : Linear α) : (p * q).coeffs =
    List.zipWith (fun a b ↦ p.center * b + q.center * a) p.coeffs q.coeffs := rfl

/-- The error of a product. -/
theorem error_mul (p q : Linear α) : (p * q).error =
    Scalar.abs q.center * p.error + Scalar.abs p.center * q.error
      + (p.error + absTotal p.coeffs) * (q.error + absTotal q.coeffs)
      - half * absTotal (diagonal p q) := rfl

/-- The opposite form is widened alike. -/
theorem neg_widen (p : Linear α) (d : α) : (-p).widen d = -p.widen d := rfl

variable [LawfulScalar α]

/-! ### Sums over the symbols -/

/-- Opposite numbers have the same absolute values. -/
theorem map_abs_map_neg (xs : List α) : (xs.map (-·)).map Scalar.abs = xs.map Scalar.abs := by
  rw [List.map_map]
  exact List.map_congr_left fun a _ ↦ LawfulScalar.abs_neg a

/-- Absolute sums are even. -/
@[simp] theorem absSum_map_neg (xs : List α) : absSum (xs.map (-·)) = absSum xs :=
  congrArg Scalar.sum (map_abs_map_neg xs)

/-- Absolute sums from the positive zero on are even. -/
@[simp] theorem absTotal_map_neg (xs : List α) : absTotal (xs.map (-·)) = absTotal xs :=
  congrArg total (map_abs_map_neg xs)

/-- Sums are odd. -/
theorem total_map_neg (xs : List α) : total (xs.map (-·)) = -total xs := by
  unfold total
  rw [List.foldl_map]
  nth_rewrite 1 [← LawfulScalar.neg_zero]
  exact List.foldl_hom (-·) fun a b ↦ (LawfulScalar.neg_add a b).symm

/-! ### The opposite form -/

/-- Negation is its own inverse. -/
@[simp] protected theorem neg_neg (p : Linear α) : - -p = p := by
  refine Linear.ext (LawfulScalar.neg_neg _) ?_ rfl
  rw [coeffs_neg, coeffs_neg, List.map_map]
  exact (List.map_congr_left fun a _ ↦ LawfulScalar.neg_neg a).trans (List.map_id _)

/-- The opposite form is finite as the form is. -/
@[simp] theorem neg_isFinite (p : Linear α) : (-p).isFinite = p.isFinite := by
  unfold isFinite
  rw [entries_neg, List.all_map, error_neg]
  congr 2
  exact funext LawfulScalar.isFinite_neg

/-- The radius is even. -/
@[simp] theorem neg_radius (p : Linear α) : (-p).radius = p.radius := by
  rw [radius, coeffs_neg, absSum_map_neg, error_neg, radius]

/-- The opposite form has the opposite values. -/
theorem neg_toInterval (p : Linear α) : (-p).toInterval = -p.toInterval := by
  rw [toInterval, toInterval, Interval.neg_ofBounds, neg_radius, center_neg,
    LawfulScalar.neg_add, ← LawfulScalar.neg_sub_neg, LawfulScalar.sub_neg,
    LawfulScalar.sub_eq_add_neg]

/-! ### Linear operations -/

/-- A sum does not depend on the order of its operands. -/
protected theorem add_comm (p q : Linear α) : p + q = q + p := by
  refine Linear.ext (LawfulScalar.add_comm _ _) ?_ (LawfulScalar.add_comm _ _)
  exact List.zipWith_comm_of_comm LawfulScalar.add_comm

/-- The opposite of a sum is the sum of the opposites. -/
protected theorem neg_add (p q : Linear α) : -(p + q) = -p + -q := by
  refine Linear.ext (LawfulScalar.neg_add _ _) ?_ rfl
  rw [coeffs_neg, coeffs_add, coeffs_add, coeffs_neg, coeffs_neg, List.map_zipWith,
    List.zipWith_map]
  simp only [LawfulScalar.neg_add]

/-- The opposite form moves the opposite way. -/
theorem neg_shift (p : Linear α) (b : α) : (-p).shift (-b) = -p.shift b :=
  Linear.ext (LawfulScalar.neg_add _ _).symm rfl rfl

/-- Scaling by the opposite scalar gives the opposite form. -/
theorem scale_neg (p : Linear α) (a : α) : p.scale (-a) = -p.scale a := by
  have h : (-a == zero) = (a == zero) := by rw [LawfulScalar.neg_beq, LawfulScalar.neg_zero]
  by_cases h0 : (a == zero) = true
  · rw [scale_of_eq_zero h0, scale_of_eq_zero (h.trans h0)]
    refine Linear.ext LawfulScalar.neg_zero.symm ?_ rfl
    rw [coeffs_neg, List.map_map]
    exact List.map_congr_left fun _ _ ↦ LawfulScalar.neg_zero.symm
  · rw [scale_of_ne_zero h0, scale_of_ne_zero (by rwa [h])]
    refine Linear.ext (LawfulScalar.mul_neg _ _) ?_ ?_
    · rw [coeffs_neg, List.map_map]
      exact List.map_congr_left fun c _ ↦ LawfulScalar.mul_neg c a
    · rw [error_neg, LawfulScalar.abs_neg]

/-- Scaling by 1 changes nothing. -/
theorem scale_one (p : Linear α) : p.scale one = p := by
  have h0 : ¬ ((one : α) == zero) = true := fun h ↦
    LawfulScalar.one_ne_zero (LawfulScalar.beq_iff.mp h).1
  rw [scale_of_ne_zero h0]
  refine Linear.ext (LawfulScalar.mul_one _) ?_ ?_
  · exact (List.map_congr_left fun a _ ↦ LawfulScalar.mul_one a).trans (List.map_id _)
  · exact (congrArg _ LawfulScalar.abs_one).trans (LawfulScalar.mul_one _)

/-! ### Products -/

private theorem diagonal_comm (p q : Linear α) : diagonal p q = diagonal q p :=
  List.zipWith_comm_of_comm LawfulScalar.mul_comm

/-- A product does not depend on the order of its operands. -/
protected theorem mul_comm (p q : Linear α) : p * q = q * p := by
  refine Linear.ext ?_ ?_ ?_
  · rw [center_mul, center_mul, LawfulScalar.mul_comm, diagonal_comm]
  · rw [coeffs_mul, coeffs_mul, List.zipWith_comm]
    simp only [LawfulScalar.add_comm]
  · rw [error_mul, error_mul, LawfulScalar.add_comm (Scalar.abs q.center * p.error),
      diagonal_comm, LawfulScalar.mul_comm (p.error + absTotal p.coeffs)]

private theorem diagonal_neg (p q : Linear α) : diagonal (-p) q = (diagonal p q).map (-·) := by
  unfold diagonal
  rw [coeffs_neg, List.zipWith_map_left, List.map_zipWith]
  simp only [LawfulScalar.neg_mul]

/-- The product with the opposite form is the opposite product. -/
protected theorem neg_mul (p q : Linear α) : -p * q = -(p * q) := by
  refine Linear.ext ?_ ?_ ?_
  · rw [center_neg, center_mul, center_mul, diagonal_neg, total_map_neg, center_neg,
      LawfulScalar.neg_mul, LawfulScalar.mul_neg, ← LawfulScalar.neg_add]
  · rw [coeffs_neg, coeffs_mul, coeffs_mul, coeffs_neg, center_neg, List.zipWith_map_left,
      List.map_zipWith]
    simp only [LawfulScalar.neg_mul, LawfulScalar.mul_neg, ← LawfulScalar.neg_add]
  · rw [error_neg, error_mul, error_mul, diagonal_neg, absTotal_map_neg, center_neg,
      LawfulScalar.abs_neg, coeffs_neg, absTotal_map_neg, error_neg]

/-- The product of the opposite form with an interval is the opposite product. -/
theorem neg_mulInterval (p : Linear α) (r : Interval α) :
    (-p).mulInterval r = -p.mulInterval r := by
  refine Linear.ext (LawfulScalar.neg_mul _ _) ?_ ?_
  · simp only [mulInterval, coeffs_neg, List.map_map]
    exact List.map_congr_left fun a _ ↦ LawfulScalar.neg_mul a _
  · simp only [mulInterval, entries_neg, absSum_map_neg, error_neg]

/-- The product with the opposite interval is the opposite product. -/
theorem mulInterval_neg (p : Linear α) (r : Interval α) :
    p.mulInterval (-r) = -p.mulInterval r := by
  unfold mulInterval
  rw [Interval.neg_midpoint, Interval.neg_magnitude, Interval.neg_radius]
  refine Linear.ext (LawfulScalar.mul_neg _ _) ?_ rfl
  rw [coeffs_neg, List.map_map]
  exact List.map_congr_left fun a _ ↦ LawfulScalar.mul_neg a _

/-- Squares are even. -/
theorem neg_sqr (p : Linear α) : (-p).sqr = p.sqr := by
  have hmul : ∀ a b : α, -a * -b = a * b := fun a b ↦ by
    rw [LawfulScalar.neg_mul, LawfulScalar.mul_neg, LawfulScalar.neg_neg]
  have hsquares : ((-p).coeffs.map fun a ↦ a * a) = p.coeffs.map fun a ↦ a * a := by
    rw [coeffs_neg, List.map_map]
    exact List.map_congr_left fun a _ ↦ hmul a a
  have hcoeffs : (-p).coeffs.map (· * (two * -p.center)) =
      p.coeffs.map (· * (two * p.center)) := by
    rw [coeffs_neg, List.map_map]
    refine List.map_congr_left fun a _ ↦ ?_
    rw [Function.comp_apply, LawfulScalar.mul_neg, hmul]
  unfold sqr
  rw [hsquares, center_neg, hmul, hcoeffs, LawfulScalar.abs_neg, coeffs_neg, absTotal_map_neg,
    error_neg]

end AffineArithmetic.Linear

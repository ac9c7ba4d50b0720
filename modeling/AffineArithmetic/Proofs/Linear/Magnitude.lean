import AffineArithmetic.Proofs.Linear.Exact

/-!
# Magnitudes of linear forms

The largest absolute value of an exact form consists of the absolute centre, the spread of the
coefficients and the error. That of a product is at most the product of the magnitudes: the half of
the diagonal products that the centre gains is the half that the error loses. For squares and for
products with a ball it is exactly this product.
-/

namespace AffineArithmetic.Linear

variable {K : Type} [Field K] [LinearOrder K] {p q : Linear K} {m ρ : K}

/-- The largest absolute value of a form. -/
def magnitude (p : Linear K) : K := |p.center| + (spread p.coeffs + p.error)

variable [IsStrictOrderedRing K]

/-- The magnitude is that of the enclosed interval. -/
theorem magnitude_toInterval (h : 0 ≤ p.error) :
    p.lift.toInterval.magnitude = .finite p.magnitude := by
  rw [toInterval_lift h, Interval.magnitude_ball (radius_nonneg h),
    magnitude]

/-- Magnitudes are not negative. -/
theorem magnitude_nonneg (h : 0 ≤ p.error) : 0 ≤ p.magnitude :=
  add_nonneg (abs_nonneg p.center) (radius_nonneg h)

/-! ### Products of forms -/

/-- The error of a product is not negative. -/
theorem error_product_nonneg (hp : 0 ≤ p.error) (hq : 0 ≤ q.error) :
    0 ≤ (p.product q).error := by
  have hdiag := spread_diagonal_le p.coeffs q.coeffs
  have hnonneg := spread_nonneg (List.zipWith (· * ·) p.coeffs q.coeffs)
  have hcenters : 0 ≤ |q.center| * p.error + |p.center| * q.error :=
    add_nonneg (mul_nonneg (abs_nonneg q.center) hp) (mul_nonneg (abs_nonneg p.center) hq)
  have hradii : spread p.coeffs * spread q.coeffs ≤
      (p.error + spread p.coeffs) * (q.error + spread q.coeffs) :=
    mul_le_mul (le_add_of_nonneg_left hp) (le_add_of_nonneg_left hq) (spread_nonneg q.coeffs)
      (add_nonneg hp (spread_nonneg p.coeffs))
  rw [error_product]
  linarith

/-- The magnitude of a product is at most the product of the magnitudes. -/
theorem magnitude_product_le (p q : Linear K) :
    (p.product q).magnitude ≤ p.magnitude * q.magnitude := by
  have hcenter : |(p.product q).center| ≤
      |p.center| * |q.center| + 1 / 2 * spread (List.zipWith (· * ·) p.coeffs q.coeffs) := by
    rw [center_product, ← abs_mul]
    refine (abs_add_le _ _).trans (add_le_add le_rfl ?_)
    rw [abs_mul, abs_of_pos (one_half_pos (α := K))]
    exact mul_le_mul_of_nonneg_left (abs_sum_le_spread _) one_half_pos.le
  have hcoeffs := spread_zipWith_le p.center q.center p.coeffs q.coeffs
  calc (p.product q).magnitude
      ≤ |p.center| * |q.center| + 1 / 2 * spread (List.zipWith (· * ·) p.coeffs q.coeffs) +
          (|p.center| * spread q.coeffs + |q.center| * spread p.coeffs +
            (p.product q).error) := add_le_add hcenter (add_le_add hcoeffs le_rfl)
    _ = p.magnitude * q.magnitude := by
        rw [error_product, magnitude, magnitude]
        ring

/-! ### Squares -/

/-- The centre of a square is not negative. -/
theorem center_square_nonneg (p : Linear K) : 0 ≤ (p.product p).center := by
  rw [center_product, ← spread_zipWith_self]
  exact add_nonneg (mul_self_nonneg p.center)
    (mul_nonneg one_half_pos.le (spread_nonneg _))

omit [IsStrictOrderedRing K] in
private theorem coeffs_square (p : Linear K) :
    (p.product p).coeffs = p.coeffs.map (· * (2 * p.center)) := by
  change List.zipWith (fun a b ↦ p.center * b + p.center * a) p.coeffs p.coeffs = _
  rw [List.zipWith_self]
  refine List.map_congr_left fun a _ ↦ ?_
  ring

/-- The magnitude of a square is the square of the magnitude. -/
theorem magnitude_square (p : Linear K) : (p.product p).magnitude = p.magnitude ^ 2 := by
  have hcenter : |(p.product p).center| =
      |p.center| * |p.center| + 1 / 2 * spread (List.zipWith (· * ·) p.coeffs p.coeffs) := by
    rw [abs_of_nonneg (center_square_nonneg p), center_product, abs_mul_abs_self,
      spread_zipWith_self]
  rw [magnitude, hcenter, coeffs_square, spread_map_mul, error_product, magnitude, abs_mul,
    abs_of_pos (two_pos (α := K))]
  ring

/-! ### Products with balls -/

/-- The error of a product with a ball is not negative. -/
theorem error_ballProduct_nonneg (hp : 0 ≤ p.error) (hρ : 0 ≤ ρ) :
    0 ≤ (p.ballProduct m ρ).error :=
  add_nonneg (mul_nonneg hp (add_nonneg (abs_nonneg m) hρ))
    (mul_nonneg hρ (add_nonneg (abs_nonneg p.center) (spread_nonneg p.coeffs)))

/-- The magnitude of a product with a ball is the product of the magnitudes. -/
theorem magnitude_ballProduct (p : Linear K) (m ρ : K) :
    (p.ballProduct m ρ).magnitude = p.magnitude * (|m| + ρ) := by
  rw [ballProduct, magnitude, magnitude, spread_map_mul, abs_mul]
  ring

end AffineArithmetic.Linear

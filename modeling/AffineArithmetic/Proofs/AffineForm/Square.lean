import AffineArithmetic.Proofs.AffineForm.Magnitude
import AffineArithmetic.Proofs.AffineForm.Value
import AffineArithmetic.Proofs.Interval.Hull

/-!
# Squares and products of a form with itself

Over exact numbers every enclosed value of a form is admitted for some values of the noise symbols.
So the square of the enclosed interval, which is the hull of the squares of its points, lies within
the product of the form with itself, which admits them all.
-/

namespace AffineArithmetic.AffineForm

open Scalar

variable {K : Type} [Field K] [LinearOrder K] [IsStrictOrderedRing K]
  {x : AffineForm (Extended K)} {v : K}

/-! ### Admitted values -/

/-- Every enclosed value of a proper form is admitted for some values of the noise symbols. -/
theorem exists_admits (h : IsProper x) (hv : v ∈ x.toInterval) :
    ∃ ε : Noise K, ε.InRange ∧ x.Admits ε v := by
  have hzero : Noise.InRange (0 : Noise K) := fun _ _ ↦ abs_zero.trans_le zero_le_one
  cases x with
  | active l =>
    obtain ⟨p, rfl, hp⟩ := h.exists_lift
    obtain ⟨ε, hε, hadm⟩ := Linear.exists_admits hp hv
    exact ⟨fun _ ↦ ε, fun _ ↦ hε, hadm⟩
  | _ => exact ⟨0, hzero, hv⟩

/-- The product of a form with itself encloses the squares of the enclosed values. -/
theorem sq_mem_mul_self (h : IsProper x) (hv : v ∈ x.toInterval) :
    v ^ 2 ∈ (x * x).toInterval := by
  obtain ⟨ε, hε, hadm⟩ := exists_admits h hv
  rw [sq]
  exact (hadm.mul hε hadm).mem_toInterval hε

/-- The square of the enclosed interval lies within the product of a form with itself. -/
theorem pow_two_isSubset_mul_self (h : IsProper x) :
    (x.toInterval.pow 2).isSubset (x * x).toInterval = true := by
  apply (Interval.isHull_pow (toInterval_isProper x) 2).isSubset
  rintro _ ⟨v, hv, rfl⟩
  exact sq_mem_mul_self h hv

/-! ### Squares -/

/-- A linear form of at least the width that keeps the linear part is squared as the product with
itself. -/
theorem sqr_eq_mul_self {p : Linear K} (hp : 0 ≤ p.error)
    (hw : squareWidth ≤ (active p.lift).toInterval.width) :
    (active p.lift).sqr = active (p.product p).lift ∧
      active p.lift * active p.lift = active (p.product p).lift := by
  have hlinear : (active p.lift).squaresAsInterval = false := by
    rw [squaresAsInterval_lift hp, decide_eq_false_iff_not]
    exact Extended.not_lt_of_le hw
  exact ⟨sqr_lift hlinear, mul_lift_of_eq rfl⟩

/-- The square of a proper form lies within the product with itself. -/
theorem sqr_isSubset_mul_self (h : IsProper x) :
    x.sqr.toInterval.isSubset (x * x).toInterval = true := by
  have hpow : (ofInterval (x.toInterval.pow 2)).toInterval.isSubset (x * x).toInterval = true := by
    rw [toInterval_ofInterval (Interval.isProper_pow (toInterval_isProper x) 2)]
    exact pow_two_isSubset_mul_self h
  rcases active_or_not x (!x.squaresAsInterval) with ⟨l, rfl, hs⟩ | hs | hs
  · obtain ⟨p, rfl, -⟩ := h.exists_lift
    rw [Bool.not_eq_true'] at hs
    rw [sqr_lift hs, mul_lift_of_eq rfl]
    exact (toInterval_isProper _).isSubset_self
  · rwa [sqr_of_not_active hs]
  · rw [Bool.not_eq_false'] at hs
    rwa [sqr_of_squaresAsInterval hs]

/-- Over exact numbers squares never lose to products. The square of a form in any state lies within
the product of the form with itself. A linear form of at least the width that keeps the linear part
has the same square and product, and the square of every linear form reaches up to the square of the
magnitude and no further. -/
theorem sqr_isSubset_mul (h : IsProper x) :
    x.sqr.toInterval.isSubset (x * x).toInterval = true ∧
    ∀ l, x = active l →
      (squareWidth ≤ x.toInterval.width → ∃ k, x.sqr = active k ∧ x * x = active k) ∧
      ∃ μ, x.toInterval.magnitude = .finite μ ∧ x.sqr.toInterval.upper = .finite (μ ^ 2) := by
  refine ⟨sqr_isSubset_mul_self h, ?_⟩
  rintro l rfl
  obtain ⟨p, rfl, hp⟩ := h.exists_lift
  refine ⟨fun hw ↦ ⟨_, sqr_eq_mul_self hp hw⟩, p.magnitude, Linear.magnitude_toInterval hp, ?_⟩
  obtain ⟨k, hk, he, hc, hmag⟩ := exists_sqr_lift hp
  rw [hk, toInterval, Linear.toInterval_lift he, ← hmag, Linear.magnitude, abs_of_nonneg hc]
  rfl

/-- The numbers from -2 to 4 over one noise symbol have the same square and product, and the square
reaches up to 16. The half line from -1 on has a square from 0 on, within the product, which is the
whole line. -/
theorem sqr_isSubset_mul_of_straddling :
    ((∃ k, (active minusTwoToFour).sqr = active k ∧
        active minusTwoToFour * active minusTwoToFour = active k) ∧
      (active minusTwoToFour).sqr.toInterval.upper = .finite (4 ^ 2)) ∧
    (boundedBelow (.finite (-1)) : AffineForm (Extended ℚ)).sqr = boundedBelow (.finite 0) ∧
      (boundedBelow (.finite (-1)) * boundedBelow (.finite (-1)) : AffineForm (Extended ℚ)) =
        allReals ∧
      (boundedBelow (.finite 0) : AffineForm (Extended ℚ)).toInterval.isSubset
        (allReals : AffineForm (Extended ℚ)).toInterval = true := by
  obtain ⟨-, hlinear⟩ := sqr_isSubset_mul (x := active minusTwoToFour)
    ⟨by decide, by decide +kernel⟩
  obtain ⟨heq, μ, hμ, hsq⟩ := hlinear _ rfl
  obtain rfl : μ = 4 := Extended.finite.inj (hμ.symm.trans (by decide +kernel))
  have hsqr : (boundedBelow (.finite (-1)) : AffineForm (Extended ℚ)).sqr =
      boundedBelow (.finite 0) := by decide +kernel
  have hmul : (boundedBelow (.finite (-1)) * boundedBelow (.finite (-1)) :
      AffineForm (Extended ℚ)) = allReals := by decide +kernel
  have hhalf := (sqr_isSubset_mul (x := (boundedBelow (.finite (-1)) : AffineForm (Extended ℚ)))
    rfl).1
  rw [hsqr, hmul] at hhalf
  exact ⟨⟨heq (by decide +kernel), hsq⟩, hsqr, hmul, hhalf⟩

end AffineArithmetic.AffineForm

import AffineArithmetic.Proofs.AffineForm.Exact
import AffineArithmetic.Proofs.Interval.Points
import AffineArithmetic.Proofs.Linear.Magnitude

/-!
# Magnitudes of products

Over exact numbers no entry overflows, so products, squares and powers of proper linear forms are
such forms again. Their magnitudes are at most the products and powers of the magnitudes, whichever
way they are computed: no cross term of a product is counted twice.
-/

namespace AffineArithmetic

open Scalar

variable {K : Type} [Field K] [LinearOrder K] [IsStrictOrderedRing K]

/-! ### Squares of balls -/

/-- The square of a ball goes from a number that is not negative to the square of the magnitude. -/
theorem Interval.exists_pow_two_ball {m ρ : K} (h : 0 ≤ ρ) : ∃ a, 0 ≤ a ∧ a ≤ (|m| + ρ) ^ 2 ∧
    (ball m ρ).pow 2 = ⟨.finite a, .finite ((|m| + ρ) ^ 2)⟩ := by
  have ho := inOrder_ball (m := m) h
  have hmag := magnitude_ball (m := m) h
  have hle : (ball m ρ).mignitude ≤ .finite (|m| + ρ) :=
    hmag ▸ (isLeast_mignitude ho).2 (isGreatest_magnitude ho).1
  have hnonneg : .finite 0 ≤ (ball m ρ).mignitude := mignitude_nonneg ho
  obtain ⟨a, ha⟩ : ∃ a, (ball m ρ).mignitude = .finite a := by
    cases hm : (ball m ρ).mignitude with
    | finite a => exact ⟨a, rfl⟩
    | _ => simp [hm] at hle hnonneg
  rw [ha] at hle hnonneg
  have hsq : a ^ 2 ≤ (|m| + ρ) ^ 2 := pow_le_pow_left₀ hnonneg hle 2
  refine ⟨a ^ 2, sq_nonneg a, hsq, ?_⟩
  have hin : InOrder (.finite (a ^ 2) : Extended K) (.finite ((|m| + ρ) ^ 2)) :=
    inOrder_of_isFinite rfl rfl hsq
  rw [pow, isEmpty_ball h, if_neg Bool.false_ne_true, if_neg two_ne_zero, if_neg (by decide),
    if_pos rfl, ha, hmag, Extended.power_finite, Extended.power_finite, outward_of_inOrder hin]

namespace AffineForm

variable {x y : AffineForm (Extended K)} {p q : Linear K} {m ρ μ ν : K}

/-! ### Products -/

/-- A form over fewer symbols is taken as a ball, and the magnitudes are multiplied. -/
theorem exists_mul_lift_of_gt (h : q.size < p.size) (hp : 0 ≤ p.error) (hq : 0 ≤ q.error) :
    ∃ l : Linear K, active p.lift * active q.lift = active l.lift ∧ 0 ≤ l.error ∧
      l.magnitude = p.magnitude * q.magnitude := by
  exact ⟨_, mul_lift_of_gt h hq, Linear.error_ballProduct_nonneg hp (Linear.radius_nonneg hq),
    Linear.magnitude_ballProduct p _ _⟩

/-- A product of linear forms is one whose magnitude is at most the product of the magnitudes, and
equal to it if the forms are over different numbers of symbols. -/
theorem exists_mul_lift (hp : 0 ≤ p.error) (hq : 0 ≤ q.error) :
    ∃ l : Linear K, active p.lift * active q.lift = active l.lift ∧ 0 ≤ l.error ∧
      l.magnitude ≤ p.magnitude * q.magnitude ∧
      (p.size ≠ q.size → l.magnitude = p.magnitude * q.magnitude) := by
  rcases Nat.lt_trichotomy p.size q.size with hlt | heq | hgt
  · obtain ⟨l, hl, he, hmag⟩ := exists_mul_lift_of_gt hlt hq hp
    rw [AffineForm.mul_comm] at hl
    rw [mul_comm] at hmag
    exact ⟨l, hl, he, hmag.le, fun _ ↦ hmag⟩
  · exact ⟨_, mul_lift_of_eq heq, Linear.error_product_nonneg hp hq,
      Linear.magnitude_product_le p q, fun hne ↦ absurd heq hne⟩
  · obtain ⟨l, hl, he, hmag⟩ := exists_mul_lift_of_gt hgt hp hq
    exact ⟨l, hl, he, hmag.le, fun _ ↦ hmag⟩

/-! ### Squares -/

/-- The square of a linear form is one with a centre of at least 0 and the square of the magnitude,
also where the interval is squared. -/
theorem exists_sqr_lift (hp : 0 ≤ p.error) : ∃ l : Linear K, (active p.lift).sqr = active l.lift ∧
    0 ≤ l.error ∧ 0 ≤ l.center ∧ l.magnitude = p.magnitude ^ 2 := by
  cases hs : (active p.lift).squaresAsInterval with
  | false =>
    exact ⟨_, sqr_lift hs, Linear.error_product_nonneg hp hp, Linear.center_square_nonneg p,
      Linear.magnitude_square p⟩
  | true =>
    have hρ := Linear.radius_nonneg hp
    obtain ⟨a, ha, hle, hpow⟩ := Interval.exists_pow_two_ball (m := p.center) hρ
    change a ≤ p.magnitude ^ 2 at hle
    change _ = (⟨.finite a, .finite (p.magnitude ^ 2)⟩ : Interval (Extended K)) at hpow
    have hcenter : 0 ≤ 1 / 2 * (a + p.magnitude ^ 2) :=
      mul_nonneg one_half_pos.le (add_nonneg ha (ha.trans hle))
    have herror : 0 ≤ 1 / 2 * (p.magnitude ^ 2 - a) :=
      mul_nonneg one_half_pos.le (sub_nonneg.mpr hle)
    refine ⟨.constant (1 / 2 * (a + p.magnitude ^ 2)) (1 / 2 * (p.magnitude ^ 2 - a)), ?_, herror,
      hcenter, ?_⟩
    · rw [sqr_of_squaresAsInterval hs, toInterval, Linear.toInterval_lift hp, hpow,
        Interval.eq_ball, ofInterval_ball herror]
    · rw [Linear.constant, Linear.magnitude, Linear.spread_nil, abs_of_nonneg hcenter]
      ring

/-! ### Powers -/

/-- The form is linear over field elements, and its magnitude is at most `μ`. -/
def Within (μ : K) (x : AffineForm (Extended K)) : Prop :=
  ∃ l : Linear K, x = active l.lift ∧ 0 ≤ l.error ∧ l.magnitude ≤ μ

/-- Products and powers are within the products and powers of the bounds. -/
theorem isMultiplicative_within :
    IsMultiplicative fun (x : AffineForm (Extended K)) μ ↦ Within μ x where
  mul := by
    rintro _ _ μ ν ⟨p, rfl, hp, hpμ⟩ ⟨q, rfl, hq, hqν⟩
    obtain ⟨l, hl, he, hle, -⟩ := exists_mul_lift hp hq
    have hp0 := Linear.magnitude_nonneg hp
    exact ⟨l, hl, he, hle.trans
      (mul_le_mul hpμ hqν (Linear.magnitude_nonneg hq) (hp0.trans hpμ))⟩
  sqr := by
    rintro _ μ ⟨p, rfl, hp, hpμ⟩
    obtain ⟨l, hl, he, -, hmag⟩ := exists_sqr_lift hp
    exact ⟨l, hl, he, hmag ▸ pow_le_pow_left₀ (Linear.magnitude_nonneg hp) hpμ 2⟩
  power_zero := by
    rintro _ μ ⟨p, rfl, -⟩
    have hne : active p.lift ≠ empty := nofun
    have hone : (one : AffineForm (Extended K)) = active (Linear.lift ⟨1, [], 0⟩) := rfl
    rw [pow_zero_of_ne_empty hne, hone]
    refine ⟨_, rfl, le_rfl, ?_⟩
    rw [Linear.magnitude, Linear.spread_nil, abs_one, add_zero, add_zero]

/-- Over exact numbers products do not blow up. The magnitude of a product of linear forms is at
most the product of the magnitudes, and equal to it if one form is taken as an interval; the product
with a bounded interval and the square have exactly the product of the magnitudes, and powers at
most the power. -/
theorem magnitude_mul_le {l k : Linear (Extended K)} (hl : IsProper (active l))
    (hk : IsProper (active k)) : ∃ μ ν : K,
    (active l).toInterval.magnitude = .finite μ ∧ (active k).toInterval.magnitude = .finite ν ∧
    (active l * active k).toInterval.magnitude ≤ .finite (μ * ν) ∧
    (l.size ≠ k.size → (active l * active k).toInterval.magnitude = .finite (μ * ν)) ∧
    (∀ r : Interval (Extended K), r.IsProper → r.isBounded = true → ∃ η, r.magnitude = .finite η ∧
      (active l * r).toInterval.magnitude = .finite (μ * η)) ∧
    (active l).sqr.toInterval.magnitude = .finite (μ ^ 2) ∧
    ∀ n : ℕ, ((active l).pow n).toInterval.magnitude ≤ .finite (μ ^ n) := by
  obtain ⟨p, rfl, hp⟩ := hl.exists_lift
  obtain ⟨q, rfl, hq⟩ := hk.exists_lift
  obtain ⟨t, ht, hte, hle, heq⟩ := exists_mul_lift hp hq
  obtain ⟨s, hs, hse, -, hsq⟩ := exists_sqr_lift hp
  refine ⟨p.magnitude, q.magnitude, Linear.magnitude_toInterval hp,
    Linear.magnitude_toInterval hq, ?_, ?_, ?_, ?_, ?_⟩
  · rw [ht, toInterval, Linear.magnitude_toInterval hte]
    exact hle
  · intro hne
    rw [ht, toInterval, Linear.magnitude_toInterval hte, heq (by simpa using hne)]
  · intro r hr hb
    obtain ⟨m, ρ, hρ, rfl⟩ := Interval.exists_ball hr hb
    refine ⟨|m| + ρ, Interval.magnitude_ball hρ, ?_⟩
    rw [mul_ball p hρ, toInterval,
      Linear.magnitude_toInterval (Linear.error_ballProduct_nonneg hp hρ),
      Linear.magnitude_ballProduct]
  · rw [hs, toInterval, Linear.magnitude_toInterval hse, hsq]
  · intro n
    have hx : Within p.magnitude (active p.lift) := ⟨p, rfl, hp, le_rfl⟩
    obtain ⟨t, ht, hte, hle⟩ := isMultiplicative_within.pow hx n
    rw [ht, toInterval, Linear.magnitude_toInterval hte]
    exact hle

/-- The numbers from -2 to 4, around 1 and over one noise symbol. -/
def minusTwoToFour : Linear (Extended ℚ) := ⟨.finite 1, [.finite 2], .finite 1⟩

/-- The numbers from -5 to -1, without noise symbols. -/
def minusFiveToMinusOne : Linear (Extended ℚ) := .constant (.finite (-3)) (.finite 2)

/-- The magnitudes 4 and 5 of forms over different symbols are multiplied, as are 4 and the
magnitude 2 of an interval; the square has the magnitude 16, and the cube at most 64. -/
theorem magnitude_mul_le_of_straddling :
    (active minusTwoToFour * active minusFiveToMinusOne).toInterval.magnitude = .finite (4 * 5) ∧
      (active minusTwoToFour * Interval.ofBounds (.finite (-1) : Extended ℚ)
        (.finite 2)).toInterval.magnitude = .finite (4 * 2) ∧
      (active minusTwoToFour).sqr.toInterval.magnitude = .finite (4 ^ 2) ∧
      ((active minusTwoToFour).pow 3).toInterval.magnitude ≤ .finite (4 ^ 3) := by
  obtain ⟨μ, ν, hμ, hν, -, hne, hball, hsqr, hpow⟩ := magnitude_mul_le
    (l := minusTwoToFour) (k := minusFiveToMinusOne)
    ⟨by decide, by decide +kernel⟩ ⟨by decide, by decide +kernel⟩
  obtain ⟨η, hη, hr⟩ := hball (.ofBounds (.finite (-1)) (.finite 2))
    (Interval.isProper_ofBounds _ _) (by decide +kernel)
  obtain rfl : μ = 4 := Extended.finite.inj (hμ.symm.trans (by decide +kernel))
  obtain rfl : ν = 5 := Extended.finite.inj (hν.symm.trans (by decide +kernel))
  obtain rfl : η = 2 := Extended.finite.inj (hη.symm.trans (by decide +kernel))
  exact ⟨hne (by decide), hr, hsqr, hpow 3⟩

end AffineForm
end AffineArithmetic

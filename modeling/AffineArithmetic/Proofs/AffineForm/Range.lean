import AffineArithmetic.AffineForm.Symbol
import AffineArithmetic.Proofs.AffineForm.Exact
import AffineArithmetic.Proofs.Linear.Value

/-!
# The range of a linear form

Over exact numbers the interval of a linear form is its range: it holds every value that the form
admits for noise symbols between -1 and 1, and no others, and its bounds are values themselves. A
bounded interval is the range of its form on a noise symbol, where the one symbol that has the
radius makes all the values, or the error does if there is no such symbol.
-/

namespace AffineArithmetic

open Scalar

variable {K : Type} [Field K] [LinearOrder K] [IsStrictOrderedRing K] {p : Linear K} {m ρ v : K}
  {size position : ℕ}

namespace Linear

/-! ### Bounds -/

/-- The bounds of a finite form are its least and its greatest value. -/
theorem exists_bounds (hp : 0 ≤ p.error) : ∃ l u, p.lift.toInterval = ⟨.finite l, .finite u⟩ ∧
    IsLeast p.lift.values l ∧ IsGreatest p.lift.values u := by
  have hr := radius_nonneg hp
  have hball := toInterval_lift hp
  have hvalues : {v | v ∈ Interval.ball p.center (spread p.coeffs + p.error)} = p.lift.values :=
    Set.ext fun v ↦ hball ▸ mem_toInterval_iff hp
  refine ⟨_, _, hball, ?_, ?_⟩ <;> rw [← hvalues]
  · exact Interval.isLeast_ball hr
  · exact Interval.isGreatest_ball hr

/-! ### One noise symbol -/

/-- The points of a ball come from the symbol that has its radius, or from the error. -/
theorem admitsThrough_ballOnSymbol (hp : position ≤ size) (h : v ∈ Interval.ball m ρ) :
    (ballOnSymbol size position m ρ).lift.AdmitsThrough position v := by
  cases position with
  | zero =>
    refine ⟨v - m, ?_, fun ε ↦ ?_⟩
    · rw [ballOnSymbol_zero]
      exact Interval.mem_ball.mp h
    · rw [evaluate_eq rfl rfl, ballOnSymbol_zero, deviation_replicate_zero, add_zero,
        Extended.finite_add_finite, add_sub_cancel]
  | succ j =>
    obtain ⟨s, hs, hv⟩ := Interval.exists_share_of_mem_ball h
    refine ⟨s, hs, fun ε hε ↦ ?_⟩
    have hsum : m + deviation ((List.replicate size 0).set j ρ) ε = v := by
      rw [deviation_set_replicate (Nat.lt_of_succ_le hp), hε, ← hv, add_sub_cancel]
    rw [ballOnSymbol_succ]
    refine ⟨by rw [evaluate_eq rfl rfl, hsum], admits_iff.mpr ⟨m, _, rfl, rfl, ?_⟩⟩
    rw [hsum, sub_self, abs_zero]
    exact le_refl (0 : K)

end Linear

namespace AffineForm

variable {i : Interval (Extended K)}

/-- The form of a ball on a noise symbol has field elements as entries. -/
theorem onSymbol_ball (h : 0 ≤ ρ) : onSymbol size position (Interval.ball m ρ) =
    active (Linear.ballOnSymbol size position m ρ).lift := by
  rw [onSymbol, Interval.isBounded_ball h, if_pos rfl, Interval.midpoint_ball h,
    Interval.radius_ball h, Linear.onSymbol_finite]

/-- Over exact numbers the interval of a linear form is its range. It holds the values of the form
and nothing else, and both its bounds are values. The form of a bounded interval on any of its noise
symbols, or on none, encloses just this interval, and admits each point through the one symbol, or
through the error. -/
theorem toInterval_range :
    (∀ p : Linear (Extended K), IsProper (active p) →
      (∀ v, v ∈ (active p).toInterval ↔ v ∈ p.values) ∧
      ∃ l u, (active p).toInterval = ⟨.finite l, .finite u⟩ ∧
        IsLeast p.values l ∧ IsGreatest p.values u) ∧
    ∀ (i : Interval (Extended K)) (size position : ℕ), i.IsProper → i.isBounded = true →
      position ≤ size → ∃ p, withSymbol size position i = .ok (active p) ∧ p.size = size ∧
        (active p).toInterval = i ∧ ∀ v ∈ i, p.AdmitsThrough position v := by
  constructor
  · intro p hp
    obtain ⟨q, rfl, hq⟩ := hp.exists_lift
    exact ⟨fun v ↦ Linear.mem_toInterval_iff hq, Linear.exists_bounds hq⟩
  · intro i size position hi hb hle
    obtain ⟨m, ρ, hρ, rfl⟩ := Interval.exists_ball hi hb
    refine ⟨(Linear.ballOnSymbol size position m ρ).lift, ?_, ?_,
      Linear.toInterval_ballOnSymbol hle hρ, fun v hv ↦ Linear.admitsThrough_ballOnSymbol hle hv⟩
    · rw [withSymbol, if_pos hle, onSymbol_ball hρ]
    · rw [Linear.size_lift, Linear.size_ballOnSymbol]

/-- A form around 1 over two noise symbols, one of them with a negative coefficient. -/
def twoSymbols : Linear (Extended ℚ) :=
  ⟨.finite 1, [.finite 2, .finite (-1 / 2)], .finite (1 / 4)⟩

/-- The form from 0 to 2 on the second of three noise symbols. -/
def secondOfThree : Linear (Extended ℚ) :=
  ⟨.finite 1, [.finite 0, .finite 1, .finite 0], .finite 0⟩

/-- The values of a form go from one bound to the other, also where a coefficient is negative. Those
from 0 to 2 come from the second symbol. -/
theorem toInterval_range_of_symbols :
    IsLeast twoSymbols.values (-7 / 4) ∧ IsGreatest twoSymbols.values (15 / 4) ∧
      withSymbol 3 2 (.ofBounds (.finite 0) (.finite 2)) = .ok (active secondOfThree) ∧
      ∀ v, 0 ≤ v → v ≤ 2 → secondOfThree.AdmitsThrough 2 v := by
  obtain ⟨hrange, hsymbol⟩ := toInterval_range (K := ℚ)
  obtain ⟨-, l, u, hbounds, hl, hu⟩ := hrange twoSymbols ⟨by decide, by decide +kernel⟩
  have hbounds' : (active twoSymbols).toInterval = ⟨.finite (-7 / 4), .finite (15 / 4)⟩ := by
    decide +kernel
  obtain ⟨hlow, hupp⟩ := Interval.mk.inj (hbounds.symm.trans hbounds')
  obtain rfl := Extended.finite.inj hlow
  obtain rfl := Extended.finite.inj hupp
  obtain ⟨p, hp, -, -, hadmits⟩ := hsymbol (.ofBounds (.finite 0) (.finite 2)) 3 2
    (Interval.isProper_ofBounds _ _) (by decide +kernel) (by decide)
  have hp' : withSymbol 3 2 (.ofBounds (.finite 0) (.finite 2)) = .ok (active secondOfThree) := by
    decide +kernel
  obtain rfl := active.inj (Except.ok.inj (hp.symm.trans hp'))
  exact ⟨hl, hu, hp', fun v h0 h2 ↦ hadmits v (Interval.mem_ofBounds h0 h2)⟩

end AffineForm
end AffineArithmetic

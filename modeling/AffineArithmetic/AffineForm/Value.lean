import AffineArithmetic.AffineForm.Basic
import AffineArithmetic.Interval.Membership

/-!
# The values of an affine form

What an affine form with exact entries says about a real quantity: once the noise symbols are given,
a linear form admits the values within its error of one number, and every other form admits its
points. Forms over the same number of symbols share them.
-/

namespace AffineArithmetic

/-- A value for each noise symbol, for each number of symbols. -/
abbrev Noise (K : Type) : Type := Nat → Nat → K

variable {K : Type} [Field K] [LinearOrder K]

/-- Every noise symbol is between -1 and 1. -/
def Noise.InRange (ε : Noise K) : Prop := ∀ n i, |ε n i| ≤ 1

/-- The linear part of a form at given values of its symbols. -/
def Linear.evaluate (x : Linear (Extended K)) (ε : Nat → K) : Extended K :=
  x.center + Scalar.sum (x.coeffs.mapIdx fun i c ↦ c * .finite (ε i))

/-- The linear part and a deviation of at most the error make up the value. -/
def Linear.Admits (x : Linear (Extended K)) (ε : Nat → K) (v : K) : Prop :=
  ∃ t : K, .finite v = x.evaluate ε + .finite t ∧ .finite |t| ≤ x.error

/-- The values that are possible with every noise symbol between -1 and 1. -/
def Linear.values (x : Linear (Extended K)) : Set K :=
  {v | ∃ ε : Nat → K, (∀ i, |ε i| ≤ 1) ∧ x.Admits ε v}

/-- Noise symbol `position`, which counts from 1, alone makes the value, or the error alone if
`position` is 0: the other symbols may have any values. -/
def Linear.AdmitsThrough (x : Linear (Extended K)) (position : Nat) (v : K) : Prop :=
  match position with
  | 0 => ∃ t : K, .finite |t| ≤ x.error ∧ ∀ ε, .finite v = x.evaluate ε + .finite t
  | j + 1 => ∃ s : K, |s| ≤ 1 ∧ ∀ ε : Nat → K, ε j = s → x.evaluate ε = .finite v ∧ x.Admits ε v

/-- The value is possible under the given noise. -/
def AffineForm.Admits (x : AffineForm (Extended K)) (ε : Noise K) (v : K) : Prop :=
  match x with
  | active l => l.Admits (ε l.size) v
  | x => v ∈ x.toInterval

end AffineArithmetic

import AffineArithmetic.Proofs.AffineForm.Reachable
import AffineArithmetic.Proofs.AffineForm.Rounded

/-!
# The laws of binary64 forms

Reachable forms inherit from rounded numbers what does not need exact arithmetic: sums and products
commute, negation is a symmetry of every operation, a difference adds the opposite form, and a
scalar can be replaced by its interval or its form. Results are compared as scalars are, which does
not tell zeros of different signs apart. All of this holds whatever overflows, but for products with
a scalar taken as an interval or a form: these are the real line where the absolute values of the
entries add up to infinity.
-/

namespace AffineArithmetic.AffineForm

open Binary64 Scalar

variable {limit : ℕ} {x y : AffineForm Float} {d : Float}

/-- The numbers from 1 to 2, with their whole width on one noise symbol. -/
def oneToTwo : AffineForm Float := onSymbol 1 1 (.ofBounds 1.0 2.0)

/-- A form over one noise symbol with the largest finite number as centre and as coefficient. -/
def largest : AffineForm Float :=
  onSymbol 1 1 (.ofBounds (-maxFinite) (maxFinite : Float)) + (maxFinite : Float)

/-- The numbers from 1 to 2 are a reachable form. -/
theorem reachable_oneToTwo (h : 1 < limit) : Reachable limit oneToTwo :=
  .onSymbol h le_rfl (.ofBounds 1.0 2.0)

/-- The form with the largest entries is reachable. -/
theorem reachable_largest (h : 1 < limit) : Reachable limit largest := by
  apply Reachable.addScalar
  exact .onSymbol h le_rfl (.ofBounds (-maxFinite) maxFinite)

/-! ### Commutativity -/

/-- Sums and products of reachable forms do not depend on the order of the operands, whatever their
states and numbers of symbols are. -/
theorem reachable_add_mul_comm (hx : Reachable limit x) (hy : Reachable limit y) :
    (x + y == y + x) = true ∧ (x * y == y * x) = true := by
  constructor
  · apply (hx.add hy).valid.beq_iff.mpr
    rw [toRounded_add, toRounded_add, AffineForm.add_comm]
  · apply (hx.mul hy).valid.beq_iff.mpr
    rw [toRounded_mul, toRounded_mul, AffineForm.mul_comm]

/-- A sum and a product of forms over one and over two symbols do not depend on their order. -/
theorem add_mul_comm_of_folded :
    Reachable 3 oneToTwo ∧ Reachable 3 (onSymbol 2 2 (.ofBounds 0.1 0.7)) ∧
      (oneToTwo + onSymbol 2 2 (.ofBounds 0.1 0.7) ==
        onSymbol 2 2 (.ofBounds 0.1 0.7) + oneToTwo) = true ∧
      (oneToTwo * onSymbol 2 2 (.ofBounds 0.1 0.7) ==
        onSymbol 2 2 (.ofBounds 0.1 0.7) * oneToTwo) = true := by
  have hx : Reachable 3 oneToTwo := reachable_oneToTwo (by decide)
  have hy : Reachable 3 (onSymbol 2 2 (.ofBounds 0.1 0.7)) :=
    .onSymbol (by decide) (by decide) (.ofBounds 0.1 0.7)
  exact ⟨hx, hy, reachable_add_mul_comm hx hy⟩

/-! ### Negation -/

private theorem neg_beq (hx : Reachable limit x) :
    (- -x == x) = true ∧ (x * (-1.0 : Float) == -x) = true ∧
      ((-x).toInterval == -x.toInterval) = true := by
  refine ⟨?_, ?_, ?_⟩
  · apply hx.neg.neg.valid.beq_iff.mpr
    rw [toRounded_neg, toRounded_neg, AffineForm.neg_neg]
  · have hone : Binary64.toRounded (-1.0) = -Scalar.one := Binary64.toRounded_neg Scalar.one
    have hf : IsFinite x.toRounded := hx.valid.isFinite_toRounded
    apply (hx.mulScalar (-1.0)).valid.beq_iff.mpr
    rw [toRounded_mul_scalar, hone, mul_neg_one hf, toRounded_neg]
  · apply (isProper_toInterval (-x)).beq_iff.mpr
    rw [toRounded_toInterval, toRounded_neg, neg_toInterval, Interval.toRounded_neg,
      toRounded_toInterval]

private theorem neg_add_beq (hx : Reachable limit x) (hy : Reachable limit y) :
    (-x + -y == -(x + y)) = true := by
  apply (hx.neg.add hy.neg).valid.beq_iff.mpr
  rw [toRounded_add, toRounded_neg, toRounded_neg, toRounded_neg, toRounded_add,
    AffineForm.neg_add]

private theorem neg_mul_beq (hx : Reachable limit x) (hy : Reachable limit y) :
    (-x * y == -(x * y)) = true ∧ (-(x * y) == x * -y) = true := by
  constructor
  · apply (hx.neg.mul hy).valid.beq_iff.mpr
    rw [toRounded_mul, toRounded_neg, toRounded_neg, toRounded_mul, AffineForm.neg_mul]
  · apply (hx.mul hy).neg.valid.beq_iff.mpr
    rw [toRounded_neg, toRounded_mul, toRounded_mul, toRounded_neg, AffineForm.mul_neg]

private theorem neg_mul_interval_beq (hx : Reachable limit x) {r : Interval Float}
    (hr : r.Reachable) : (-x * r == -(x * r)) = true ∧ (-(x * r) == x * -r) = true := by
  constructor
  · apply (hx.neg.mulInterval hr).valid.beq_iff.mpr
    rw [toRounded_mul_interval, toRounded_neg, toRounded_neg, toRounded_mul_interval]
    exact neg_mulInterval _ _
  · apply (hx.mulInterval hr).neg.valid.beq_iff.mpr
    rw [toRounded_neg, toRounded_mul_interval, toRounded_mul_interval, Interval.toRounded_neg]
    exact (mulInterval_neg _ _).symm

private theorem mul_neg_scalar_beq (hx : Reachable limit x) (d : Float) :
    (x * -d == -(x * d)) = true := by
  apply (hx.mulScalar (-d)).valid.beq_iff.mpr
  rw [toRounded_mul_scalar, Binary64.toRounded_neg, toRounded_neg, toRounded_mul_scalar,
    mul_neg_scalar]

private theorem neg_sqr_beq (hx : Reachable limit x) : ((-x).sqr == x.sqr) = true := by
  apply hx.neg.sqr.valid.beq_iff.mpr
  rw [toRounded_sqr, toRounded_neg, neg_sqr, toRounded_sqr]

private theorem neg_pow_beq (hx : Reachable limit x) (n : ℕ) :
    (n % 2 = 0 → ((-x).pow n == x.pow n) = true) ∧
      (n % 2 = 1 → ((-x).pow n == -x.pow n) = true) := by
  constructor
  · intro h
    apply (hx.neg.pow n).valid.beq_iff.mpr
    rw [toRounded_pow, toRounded_neg, neg_pow_of_even _ h, toRounded_pow]
  · intro h
    apply (hx.neg.pow n).valid.beq_iff.mpr
    rw [toRounded_pow, toRounded_neg, neg_pow_of_odd _ h, toRounded_neg, toRounded_pow]

/-- Negation is a symmetry of all operations on reachable forms: it is its own inverse and is
multiplication by -1, it passes through conversion, sums, products and odd powers, and squares and
even powers do not see it. -/
theorem reachable_neg_symmetry (hx : Reachable limit x) (hy : Reachable limit y) :
    ((- -x == x) = true ∧ (x * (-1.0 : Float) == -x) = true ∧
      ((-x).toInterval == -x.toInterval) = true) ∧
    (-x + -y == -(x + y)) = true ∧
    ((-x * y == -(x * y)) = true ∧ (-(x * y) == x * -y) = true) ∧
    (∀ r : Interval Float, r.Reachable →
      (-x * r == -(x * r)) = true ∧ (-(x * r) == x * -r) = true) ∧
    (∀ d : Float, (x * -d == -(x * d)) = true) ∧
    ((-x).sqr == x.sqr) = true ∧
    ∀ n : ℕ, (n % 2 = 0 → ((-x).pow n == x.pow n) = true) ∧
      (n % 2 = 1 → ((-x).pow n == -x.pow n) = true) := by
  exact ⟨neg_beq hx, neg_add_beq hx hy, neg_mul_beq hx hy, fun _ ↦ neg_mul_interval_beq hx,
    mul_neg_scalar_beq hx, neg_sqr_beq hx, neg_pow_beq hx⟩

/-- A linear form and a half line pass the sign through products and powers. -/
theorem neg_symmetry_of_halfLine :
    Reachable 2 oneToTwo ∧ Reachable 2 (ofScalar infinity) ∧ Interval.Reachable .noise ∧
      (-oneToTwo * ofScalar infinity == -(oneToTwo * ofScalar infinity)) = true ∧
      (-oneToTwo * (Interval.noise : Interval Float) ==
        -(oneToTwo * (Interval.noise : Interval Float))) = true ∧
      ((-oneToTwo).pow 4 == oneToTwo.pow 4) = true ∧
      ((-oneToTwo).pow 5 == -oneToTwo.pow 5) = true := by
  have hx : Reachable 2 oneToTwo := reachable_oneToTwo (by decide)
  have hy : Reachable 2 (ofScalar infinity) := .ofScalar infinity
  obtain ⟨-, -, hmul, hinterval, -, -, hpow⟩ := reachable_neg_symmetry hx hy
  exact ⟨hx, hy, .noise, hmul.1, (hinterval .noise .noise).1, (hpow 4).1 rfl, (hpow 5).2 rfl⟩

/-! ### Differences -/

/-- The entries of a form that is made of zeros in rounded arithmetic are zeros. -/
private theorem beq_zero_of_toRounded {q : Linear Float} {cs : List Float} {e : Rounded}
    (h : q.toRounded = ⟨Scalar.zero, cs.map fun _ ↦ Scalar.zero, e⟩) :
    ∀ a ∈ q.entries, (a == Scalar.zero) = true := by
  have hzero : ∀ a ∈ q.toRounded.entries, a = Scalar.zero := by
    rw [h]
    intro a ha
    rcases List.mem_cons.mp ha with rfl | ha
    · rfl
    · exact (List.mem_map.mp ha).choose_spec.2.symm
  intro a ha
  have ha' : Binary64.toRounded a = Scalar.zero :=
    hzero _ (Linear.entries_toRounded q ▸ List.mem_map_of_mem ha)
  rw [← toRounded_beq, ha', ← toRounded_zero, toRounded_beq]
  rfl

private theorem toRounded_sub_self {p : Linear Float} (h : p.isFinite = true) :
    (active p - active p).toRounded = (active ⟨Scalar.zero, p.coeffs.map fun _ ↦ Scalar.zero,
      Binary64.toRounded (p.error + p.error)⟩).settle := by
  rw [toRounded_sub]
  refine (active_sub_self ((Linear.isFinite_toRounded p).trans h)).trans ?_
  rw [Linear.coeffs_toRounded, List.map_map, Linear.error_toRounded, ← Binary64.toRounded_add]
  rfl

private theorem isFinite_zeros {cs : List Float} {e : Rounded} :
    (⟨Scalar.zero, cs.map fun _ ↦ Scalar.zero, e⟩ : Linear Rounded).isFinite =
      Scalar.isFinite e := by
  have h0 : Scalar.isFinite (Scalar.zero : Rounded) = true := LawfulScalar.isFinite_zero
  rw [Bool.eq_iff_iff, Linear.isFinite_iff]
  simp [h0]

private theorem sub_self_of_isFinite {p : Linear Float} (h : p.isFinite = true)
    (he : Scalar.isFinite (p.error + p.error) = true) :
    ∃ q, active p - active p = active q ∧ q.size = p.size ∧
      (∀ a ∈ q.entries, (a == Scalar.zero) = true) ∧ (q.error == p.error + p.error) = true := by
  have hsub := toRounded_sub_self h
  rw [settle, if_pos (isFinite_zeros.trans (Binary64.isFinite_toRounded.trans he))] at hsub
  cases hq : active p - active p with
  | active q =>
    rw [hq] at hsub
    have heq := active.inj hsub
    refine ⟨q, rfl, ?_, beq_zero_of_toRounded heq, ?_⟩
    · rw [← Linear.size_toRounded, heq]
      exact List.length_map _
    · have hqe : Binary64.toRounded q.error = Binary64.toRounded (p.error + p.error) :=
        congrArg Linear.error heq
      have hfin : Scalar.isFinite q.error = true := by
        rw [← Binary64.isFinite_toRounded, hqe, Binary64.isFinite_toRounded, he]
      exact (Binary64.beq_iff_of_isFinite hfin).mpr hqe
  | _ =>
    rw [hq] at hsub
    contradiction

private theorem sub_self_of_not_isFinite {p : Linear Float} (h : p.isFinite = true)
    (he : Scalar.isFinite (p.error + p.error) = false) : active p - active p = allReals := by
  apply toRounded_eq_allReals.mp
  rw [toRounded_sub_self h, settle, isFinite_zeros, Binary64.isFinite_toRounded, he]
  rfl

/-- A difference of reachable forms is the sum with the opposite form, whatever their states and
numbers of symbols are. The difference of a linear form with itself is over the same symbols with
all entries 0 and twice the error, or the real line if twice the error overflows. -/
theorem reachable_sub_eq (hx : Reachable limit x) (hy : Reachable limit y) :
    (x - y == x + -y) = true ∧
    ∀ p, x = active p →
      (Scalar.isFinite (p.error + p.error) = true → ∃ q, x - x = active q ∧ q.size = p.size ∧
        (∀ a ∈ q.entries, (a == Scalar.zero) = true) ∧ (q.error == p.error + p.error) = true) ∧
      (Scalar.isFinite (p.error + p.error) = false → x - x = allReals) := by
  constructor
  · apply (hx.sub hy).valid.beq_iff.mpr
    rw [toRounded_sub, toRounded_add, toRounded_neg,
      AffineForm.sub_eq_add_neg hx.valid.isFinite_toRounded]
  · rintro p rfl
    have hp : p.isFinite = true := hx.valid.1
    exact ⟨sub_self_of_isFinite hp, sub_self_of_not_isFinite hp⟩

/-- The numbers from 1 to 3, one half of the width on a noise symbol and the other on the error. -/
def oneToThree : AffineForm Float := oneToTwo + Interval.ofBounds 0.0 1.0

/-- A form over one noise symbol with the largest error. -/
def widest : AffineForm Float := onSymbol 1 0 (.ofBounds (-maxFinite) maxFinite)

/-- A form over one symbol is subtracted from one over two symbols and from a half line, and from
itself it leaves its doubled error. The largest error cannot be doubled. -/
theorem sub_eq_of_oneToThree :
    Reachable 3 oneToThree ∧ Reachable 3 (onSymbol 2 2 (.ofBounds 0.1 0.7)) ∧
      Reachable 3 (ofScalar infinity) ∧
      (onSymbol 2 2 (.ofBounds 0.1 0.7) - oneToThree ==
        onSymbol 2 2 (.ofBounds 0.1 0.7) + -oneToThree) = true ∧
      (ofScalar infinity - oneToThree == ofScalar infinity + -oneToThree) = true ∧
      oneToThree = active ⟨2.0, [0.5], 0.5⟩ ∧ Scalar.isFinite (0.5 + 0.5 : Float) = true ∧
      (∃ q, oneToThree - oneToThree = active q ∧ q.size = 1 ∧
        (∀ a ∈ q.entries, (a == Scalar.zero) = true) ∧ (q.error == 0.5 + 0.5) = true) ∧
      Reachable 3 widest ∧ widest = active ⟨0.0, [0.0], maxFinite⟩ ∧
      Scalar.isFinite (maxFinite + maxFinite : Float) = false ∧ widest - widest = allReals := by
  have hx : Reachable 3 oneToThree :=
    (reachable_oneToTwo (by decide)).addInterval (.ofBounds 0.0 1.0)
  have hy : Reachable 3 (onSymbol 2 2 (.ofBounds 0.1 0.7)) :=
    .onSymbol (by decide) (by decide) (.ofBounds 0.1 0.7)
  have hz : Reachable 3 (ofScalar infinity) := .ofScalar infinity
  have hw : Reachable 3 widest :=
    .onSymbol (by decide) (by decide) (.ofBounds (-maxFinite) maxFinite)
  have hxp : oneToThree = active ⟨2.0, [0.5], 0.5⟩ := by decide +kernel
  have hwp : widest = active ⟨0.0, [0.0], maxFinite⟩ := by decide +kernel
  have hhalf : Scalar.isFinite (0.5 + 0.5 : Float) = true := by decide +kernel
  have hmax : Scalar.isFinite (maxFinite + maxFinite : Float) = false := by decide +kernel
  exact ⟨hx, hy, hz, (reachable_sub_eq hy hx).1, (reachable_sub_eq hz hx).1, hxp, hhalf,
    ((reachable_sub_eq hx hx).2 _ hxp).1 hhalf, hw, hwp, hmax,
    ((reachable_sub_eq hw hw).2 _ hwp).2 hmax⟩

/-! ### Scalars as operands -/

/-- A scalar, its interval and its form have the same sums and differences with reachable forms, on
either side, also if the scalar is infinite or undefined. -/
theorem reachable_scalar_add_eq (hx : Reachable limit x) (d : Float) :
    ((x + d == x + Interval.ofScalar d) = true ∧
      (x + Interval.ofScalar d == x + ofScalar d) = true) ∧
    ((x - d == x - Interval.ofScalar d) = true ∧
      (x - Interval.ofScalar d == x - ofScalar d) = true) ∧
    ((d - x == Interval.ofScalar d - x) = true ∧
      (Interval.ofScalar d - x == ofScalar d - x) = true) := by
  have hf : IsFinite x.toRounded := hx.valid.isFinite_toRounded
  have hd : IsFinite (ofScalar (Binary64.toRounded d)) :=
    toRounded_ofScalar d ▸ (valid_ofScalar d).isFinite_toRounded
  have hi : (Interval.ofScalar d).Reachable := .ofScalar d
  refine ⟨⟨?_, ?_⟩, ⟨?_, ?_⟩, ?_, ?_⟩
  · apply (hx.addScalar d).valid.beq_iff.mpr
    rw [toRounded_add_scalar, toRounded_add_interval, Interval.toRounded_ofScalar,
      add_interval_ofScalar]
  · apply (hx.addInterval hi).valid.beq_iff.mpr
    rw [toRounded_add_interval, Interval.toRounded_ofScalar, toRounded_add, toRounded_ofScalar,
      add_interval_ofScalar, add_ofScalar]
  · apply (hx.subScalar d).1.valid.beq_iff.mpr
    rw [toRounded_sub_scalar, toRounded_sub_interval, Interval.toRounded_ofScalar,
      sub_interval_ofScalar]
  · apply (hx.subInterval hi).1.valid.beq_iff.mpr
    rw [toRounded_sub_interval, Interval.toRounded_ofScalar, toRounded_sub, toRounded_ofScalar,
      sub_interval_ofScalar, sub_ofScalar hf]
  · apply (hx.subScalar d).2.valid.beq_iff.mpr
    rw [toRounded_scalar_sub, toRounded_interval_sub, Interval.toRounded_ofScalar,
      interval_ofScalar_sub]
  · apply (hx.subInterval hi).2.valid.beq_iff.mpr
    rw [toRounded_interval_sub, Interval.toRounded_ofScalar, toRounded_sub, toRounded_ofScalar,
      interval_ofScalar_sub, ofScalar_sub hd]

/-- The undefined scalar has the same sums and differences in all three types. -/
theorem scalar_add_eq_of_nan :
    Reachable 2 oneToTwo ∧
      (oneToTwo + (nan : Float) == oneToTwo + Interval.ofScalar (nan : Float)) = true ∧
      (oneToTwo - Interval.ofScalar (nan : Float) == oneToTwo - ofScalar (nan : Float)) = true ∧
      (Interval.ofScalar (nan : Float) - oneToTwo == ofScalar (nan : Float) - oneToTwo) = true := by
  have hx : Reachable 2 oneToTwo := reachable_oneToTwo (by decide)
  obtain ⟨hadd, hsub, hrev⟩ := reachable_scalar_add_eq hx nan
  exact ⟨hx, hadd.1, hsub.2, hrev.2⟩

/-- The interval and the form of a scalar have the same product with a reachable form. It is the
product with the scalar, unless the scalar is finite and the absolute entries of the form add up to
infinity: then it is the real line. -/
theorem reachable_scalar_mul_eq (hx : Reachable limit x) (d : Float) :
    (x * Interval.ofScalar d == x * ofScalar d) = true ∧
    (HasFiniteSum x ∨ Scalar.isFinite d = false → (x * d == x * Interval.ofScalar d) = true) ∧
    (¬ HasFiniteSum x → Scalar.isFinite d = true → x * Interval.ofScalar d = allReals) ∧
    (HasFiniteSum x → (x * one == x) = true ∧
      (x ≠ empty → (x * (Interval.zero : Interval Float)).isZero = true)) := by
  have hf : IsFinite x.toRounded := hx.valid.isFinite_toRounded
  have hi : (Interval.ofScalar d).Reachable := .ofScalar d
  -- products are settled, so that settling them once more does not matter
  have hprod : (x.toRounded * Interval.ofScalar (Binary64.toRounded d)).settle =
      x.toRounded * Interval.ofScalar (Binary64.toRounded d) := by
    rw [← Interval.toRounded_ofScalar, ← toRounded_mul_interval]
    exact settle_of_isFinite (hx.mulInterval hi).valid.isFinite_toRounded
  refine ⟨?_, ?_, ?_, ?_⟩
  · apply (hx.mulInterval hi).valid.beq_iff.mpr
    rw [toRounded_mul_interval, Interval.toRounded_ofScalar, toRounded_mul, toRounded_ofScalar,
      mul_ofScalar hf]
  · intro hs
    apply (hx.mulScalar d).valid.beq_iff.mpr
    rw [toRounded_mul_scalar, toRounded_mul_interval, Interval.toRounded_ofScalar, ← hprod]
    exact (settle_mul_interval_ofScalar hf (by simpa using hs)).symm
  · intro hs hd
    apply toRounded_eq_allReals.mp
    rw [toRounded_mul_interval, Interval.toRounded_ofScalar]
    exact mul_interval_ofScalar_of_not (by simpa using hs) (by simpa using hd)
  · intro hs
    have hs' : HasFiniteSum x.toRounded := (hasFiniteSum_toRounded x).mpr hs
    constructor
    · have hone : Reachable limit one := .ofScalar Scalar.one
      have hprod : (x * one).toRounded.settle = (x * one).toRounded :=
        settle_of_isFinite (hx.mul hone).valid.isFinite_toRounded
      apply (hx.mul hone).valid.beq_iff.mpr
      rw [← hprod, toRounded_mul, one, toRounded_ofScalar]
      exact settle_mul_one hf hs'
    · intro hne
      rw [← isZero_toRounded, toRounded_mul_interval, Interval.toRounded_point_zero]
      exact isZero_mul_zero hf hs' (toRounded_eq_empty.not.mpr hne)

/-- Halving by the interval of one half is halving, but the real line where the absolute entries add
up to infinity. -/
theorem scalar_mul_eq_of_half :
    Reachable 2 oneToTwo ∧ HasFiniteSum oneToTwo ∧
      (oneToTwo * (0.5 : Float) == oneToTwo * Interval.ofScalar (0.5 : Float)) = true ∧
      (oneToTwo * one == oneToTwo) = true ∧ oneToTwo ≠ empty ∧
      (oneToTwo * (Interval.zero : Interval Float)).isZero = true ∧
      Reachable 2 largest ∧ ¬ HasFiniteSum largest ∧ Scalar.isFinite (0.5 : Float) = true ∧
      largest * Interval.ofScalar (0.5 : Float) = allReals := by
  have hx : Reachable 2 oneToTwo := reachable_oneToTwo (by decide)
  have hy : Reachable 2 largest := reachable_largest (by decide)
  have hsx : HasFiniteSum oneToTwo := by decide +kernel
  have hsy : ¬ HasFiniteSum largest := by decide +kernel
  have hne : oneToTwo ≠ empty := by decide +kernel
  obtain ⟨-, hscalar, -, hexact⟩ := reachable_scalar_mul_eq hx 0.5
  have hlost := (reachable_scalar_mul_eq hy 0.5).2.2.1
  exact ⟨hx, hsx, hscalar (.inl hsx), (hexact hsx).1, hne, (hexact hsx).2 hne, hy, hsy,
    by decide +kernel, hlost hsy (by decide +kernel)⟩

/-- Where the absolute entries add up to infinity, a half of the form is not its product with the
interval of one half, the product with the form 1 is not the form, and the product with the point 0
is not 0. -/
theorem scalar_mul_ne_of_overflow :
    Reachable 2 largest ∧
      (largest * (0.5 : Float) == largest * Interval.ofScalar (0.5 : Float)) = false ∧
      (largest * one == largest) = false ∧ largest ≠ empty ∧
      (largest * (Interval.zero : Interval Float)).isZero = false :=
  ⟨reachable_largest (by decide), by decide +kernel, by decide +kernel, by decide +kernel,
    by decide +kernel⟩

end AffineArithmetic.AffineForm

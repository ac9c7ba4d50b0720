import Mathlib.Algebra.Ring.Parity
import Mathlib.Order.Bounds.Basic
import AffineArithmetic.Interval.Hull
import AffineArithmetic.Proofs.Interval.Points

/-!
# Operations compute hulls

Over exact numbers an operation on proper intervals computes the hull of the results on the points
of its operands: no narrower interval contains them all. Its bounds are results on elements, and a
result on infinite elements is approached by results on points: either these are unbounded on its
side, or the infinite element was multiplied by 0 and any point of its interval does as well.
-/

namespace AffineArithmetic.Interval

open Scalar

variable {K : Type} [Field K] [LinearOrder K] {i j k : Interval (Extended K)} {s t : Set K}
  {a b : Extended K} {x : K}

/-- The elements of the set reach the number: it is one of them, or they are unbounded on its
side. -/
def Reaches (s : Set K) : Extended K → Prop
  | .nan => False
  | .negInf => ¬ BddBelow s
  | .finite x => x ∈ s
  | .posInf => ¬ BddAbove s

/-- A set that reaches a number is not empty. -/
theorem Reaches.nonempty (h : Reaches s a) : s.Nonempty := by
  cases a with
  | nan => exact h.elim
  | negInf =>
    obtain ⟨x, hx, -⟩ := not_bddBelow_iff.mp h 0
    exact ⟨x, hx⟩
  | finite x => exact ⟨x, h⟩
  | posInf =>
    obtain ⟨x, hx, -⟩ := not_bddAbove_iff.mp h 0
    exact ⟨x, hx⟩

variable [IsStrictOrderedRing K]

/-! ### Opposites and sums -/

/-- Opposite elements reach the opposite number. -/
theorem Reaches.neg (h : Reaches s a) : Reaches ((-·) '' s) (-a) := by
  cases a with
  | nan => exact h
  | finite x => exact Set.mem_image_of_mem _ h
  | negInf =>
    apply not_bddAbove_iff.mpr
    intro c
    obtain ⟨x, hx, hlt⟩ := not_bddBelow_iff.mp h (-c)
    exact ⟨-x, Set.mem_image_of_mem _ hx, lt_neg_of_lt_neg hlt⟩
  | posInf =>
    apply not_bddBelow_iff.mpr
    intro c
    obtain ⟨x, hx, hlt⟩ := not_bddAbove_iff.mp h (-c)
    exact ⟨-x, Set.mem_image_of_mem _ hx, neg_lt_of_neg_lt hlt⟩

private theorem not_bddAbove_add (hs : s.Nonempty) (ht : ¬ BddAbove t) :
    ¬ BddAbove (Set.image2 (· + ·) s t) := by
  apply not_bddAbove_iff.mpr
  intro c
  obtain ⟨x, hx⟩ := hs
  obtain ⟨y, hy, hlt⟩ := not_bddAbove_iff.mp ht (c - x)
  exact ⟨x + y, Set.mem_image2_of_mem hx hy, sub_lt_iff_lt_add'.mp hlt⟩

private theorem not_bddBelow_add (hs : s.Nonempty) (ht : ¬ BddBelow t) :
    ¬ BddBelow (Set.image2 (· + ·) s t) := by
  apply not_bddBelow_iff.mpr
  intro c
  obtain ⟨x, hx⟩ := hs
  obtain ⟨y, hy, hlt⟩ := not_bddBelow_iff.mp ht (c - x)
  exact ⟨x + y, Set.mem_image2_of_mem hx hy, lt_sub_iff_add_lt'.mp hlt⟩

omit [LinearOrder K] [IsStrictOrderedRing K] in
private theorem image2_add_comm (s t : Set K) :
    Set.image2 (· + ·) s t = Set.image2 (· + ·) t s := Set.image2_comm add_comm

/-- Sums of elements reach the sum, if it is defined. -/
theorem Reaches.add (hs : Reaches s a) (ht : Reaches t b) (hn : a + b ≠ .nan) :
    Reaches (Set.image2 (· + ·) s t) (a + b) := by
  cases a with
  | nan => exact hs.elim
  | finite x =>
    cases b with
    | nan => exact ht.elim
    | finite y => exact Set.mem_image2_of_mem hs ht
    | posInf => exact not_bddAbove_add hs.nonempty ht
    | negInf => exact not_bddBelow_add hs.nonempty ht
  | posInf =>
    rw [image2_add_comm]
    cases b with
    | nan => exact ht.elim
    | negInf => exact absurd rfl hn
    | _ => exact not_bddAbove_add ht.nonempty hs
  | negInf =>
    rw [image2_add_comm]
    cases b with
    | nan => exact ht.elim
    | posInf => exact absurd rfl hn
    | _ => exact not_bddBelow_add ht.nonempty hs

/-! ### Products -/

private theorem not_bddAbove_mul (hx : x ∈ s) (hpos : 0 < x) (ht : ¬ BddAbove t) :
    ¬ BddAbove (Set.image2 (· * ·) s t) := by
  apply not_bddAbove_iff.mpr
  intro c
  obtain ⟨y, hy, hlt⟩ := not_bddAbove_iff.mp ht (c / x)
  exact ⟨x * y, Set.mem_image2_of_mem hx hy, (div_lt_iff₀' hpos).mp hlt⟩

private theorem mulBounds_posInf (ha : .finite 0 ≤ a) (h0 : a ≠ .finite 0) :
    mulBounds a .posInf = .posInf := by
  have hne : Extended.posInf ≠ (Scalar.zero : Extended K) := by simp [Scalar.zero]
  rw [mulBounds_of_ne_zero h0 hne]
  cases a with
  | finite x =>
    have hx : 0 < x := lt_of_le_of_ne ha fun h ↦ h0 (congrArg Extended.finite h.symm)
    exact Extended.infinityTimes_of_pos hx
  | posInf => rfl
  | _ => simp at ha

-- An infinite factor beside 0 counts for nothing, and any element of its set can take its place.
private theorem reaches_mul_posInf (hs : Reaches s a) (ha : .finite 0 ≤ a)
    (ht : Reaches t .posInf) : Reaches (Set.image2 (· * ·) s t) (mulBounds a .posInf) := by
  by_cases h0 : a = .finite 0
  · subst h0
    obtain ⟨y, hy⟩ := ht.nonempty
    have hzero : mulBounds (.finite 0) .posInf = (.finite 0 : Extended K) := zero_mulBounds _
    rw [hzero, ← zero_mul y]
    exact Set.mem_image2_of_mem hs hy
  rw [mulBounds_posInf ha h0]
  obtain ⟨x, hx, hpos⟩ : ∃ x ∈ s, 0 < x := by
    cases a with
    | finite x => exact ⟨x, hs, lt_of_le_of_ne ha fun h ↦ h0 (congrArg Extended.finite h.symm)⟩
    | posInf => exact not_bddAbove_iff.mp hs 0
    | _ => simp at ha
  exact not_bddAbove_mul hx hpos ht

private theorem reaches_mul_of_nonneg (hs : Reaches s a) (ht : Reaches t b)
    (ha : .finite 0 ≤ a) (hb : .finite 0 ≤ b) :
    Reaches (Set.image2 (· * ·) s t) (mulBounds a b) := by
  cases b with
  | posInf => exact reaches_mul_posInf hs ha ht
  | finite y =>
    cases a with
    | finite x =>
      rw [mulBounds_of_isFinite rfl rfl]
      exact Set.mem_image2_of_mem hs ht
    | posInf =>
      rw [Set.image2_comm mul_comm, mulBounds_swap]
      exact reaches_mul_posInf ht hb hs
    | _ => simp at ha
  | _ => simp at hb

private theorem reaches_neg_mul {c : Extended K}
    (h : Reaches (Set.image2 (· * ·) ((-·) '' s) t) (-c)) :
    Reaches (Set.image2 (· * ·) s t) c := by
  have himage : (-·) '' Set.image2 (· * ·) ((-·) '' s) t = Set.image2 (· * ·) s t := by
    rw [Set.image_image2, Set.image2_image_left]
    simp only [neg_mul, neg_neg]
  rw [← himage, ← Extended.neg_neg (a := c)]
  exact h.neg

/-- Products of elements reach the product of bounds. -/
theorem Reaches.mulBounds (hs : Reaches s a) (ht : Reaches t b) :
    Reaches (Set.image2 (· * ·) s t) (mulBounds a b) := by
  have hne : ∀ {s : Set K} {a}, Reaches s a → a ≠ nan := by
    rintro s _ h rfl
    exact h
  -- the sign of each factor is that of the product
  have key : ∀ {s t : Set K} {a b}, Reaches s a → Reaches t b → .finite 0 ≤ b →
      Reaches (Set.image2 (· * ·) s t) (Interval.mulBounds a b) := by
    intro s t a b hs ht hb
    rcases OrderedScalar.nonneg_or_nonpos (hne hs) with ha | ha
    · exact reaches_mul_of_nonneg hs ht ha hb
    · apply reaches_neg_mul
      rw [← neg_mulBounds]
      exact reaches_mul_of_nonneg hs.neg ht (OrderedScalar.neg_nonneg.mpr ha) hb
  rcases OrderedScalar.nonneg_or_nonpos (hne ht) with hb | hb
  · exact key hs ht hb
  · rw [Set.image2_comm mul_comm, mulBounds_swap]
    apply reaches_neg_mul
    rw [← neg_mulBounds, Set.image2_comm mul_comm, mulBounds_swap]
    exact key hs ht.neg (OrderedScalar.neg_nonneg.mpr hb)

/-! ### Absolute values and powers -/

/-- Absolute values of elements reach the absolute value. -/
theorem Reaches.abs (h : Reaches s a) : Reaches ((|·|) '' s) (Scalar.abs a) := by
  cases a with
  | nan => exact h
  | finite x => exact Set.mem_image_of_mem _ h
  | negInf =>
    apply not_bddAbove_iff.mpr
    intro c
    obtain ⟨x, hx, hlt⟩ := not_bddBelow_iff.mp h (-c)
    exact ⟨|x|, Set.mem_image_of_mem _ hx, (lt_neg_of_lt_neg hlt).trans_le (neg_le_abs x)⟩
  | posInf =>
    apply not_bddAbove_iff.mpr
    intro c
    obtain ⟨x, hx, hlt⟩ := not_bddAbove_iff.mp h c
    exact ⟨|x|, Set.mem_image_of_mem _ hx, hlt.trans_le (le_abs_self x)⟩

omit [IsStrictOrderedRing K] in
private theorem mulSquares_posInf {n : ℕ} (hn : n ≠ 0) (ha : a * .posInf = .posInf) :
    mulSquares a .posInf n = .posInf := by
  induction n using Nat.strong_induction_on generalizing a with
  | _ n ih =>
    rw [mulSquares]
    by_cases h2 : n / 2 = 0
    · rw [if_pos h2, if_pos (by omega), ha]
    · rw [if_neg h2, Extended.posInf_mul_posInf]
      have hlt : n / 2 < n := by omega
      split
      · rw [ha]
        exact ih _ hlt h2 Extended.posInf_mul_posInf
      · exact ih _ hlt h2 ha

private theorem power_posInf {n : ℕ} (hn : n ≠ 0) : power (.posInf : Extended K) n = .posInf :=
  mulSquares_posInf hn (Extended.one_mul .posInf)

private theorem reaches_pow_posInf {n : ℕ} (hn : n ≠ 0) (h : Reaches s .posInf) :
    Reaches ((· ^ n) '' s) .posInf := by
  apply not_bddAbove_iff.mpr
  intro c
  obtain ⟨x, hx, hlt⟩ := not_bddAbove_iff.mp h (max 1 c)
  obtain ⟨h1, hc⟩ := max_lt_iff.mp hlt
  exact ⟨x ^ n, Set.mem_image_of_mem _ hx, hc.trans_le (le_self_pow₀ h1.le hn)⟩

/-- Powers of elements reach the power. -/
theorem Reaches.pow (h : Reaches s a) (n : ℕ) : Reaches ((· ^ n) '' s) (power a n) := by
  by_cases hn : n = 0
  · obtain ⟨x, hx⟩ := h.nonempty
    rw [hn, OrderedScalar.power_zero]
    exact ⟨x, hx, pow_zero x⟩
  cases a with
  | nan => exact h.elim
  | finite x =>
    rw [Extended.power_finite]
    exact Set.mem_image_of_mem _ h
  | posInf =>
    rw [power_posInf hn]
    exact reaches_pow_posInf hn h
  | negInf =>
    -- the powers of the opposite elements are the powers, or their opposites
    have hneg := reaches_pow_posInf hn h.neg
    rw [Set.image_image] at hneg
    rcases Nat.mod_two_eq_zero_or_one n with hmod | hmod
    · have heven : ∀ x : K, (-x) ^ n = x ^ n := (Nat.even_iff.mpr hmod).neg_pow
      simp only [heven] at hneg
      rw [← Extended.neg_posInf, OrderedScalar.power_neg_of_even _ hmod, power_posInf hn]
      exact hneg
    · have hodd : ∀ x : K, (-x) ^ n = -x ^ n := (Nat.odd_iff.mpr hmod).neg_pow
      have hpow := hneg.neg
      simp only [Set.image_image, hodd, neg_neg] at hpow
      rw [← Extended.neg_posInf, OrderedScalar.power_neg_of_odd _ hmod, power_posInf hn]
      exact hpow

/-! ### Hulls -/

omit [IsStrictOrderedRing K] in
/-- The empty interval has no points. -/
theorem points_empty : (empty : Interval (Extended K)).points = ∅ :=
  Set.eq_empty_of_forall_notMem not_mem_empty

/-- The points of the opposite interval are the opposite points. -/
theorem points_neg (i : Interval (Extended K)) : (-i).points = (-·) '' i.points := by
  ext x
  constructor
  · intro hx
    have hneg := mem_neg hx
    rw [Interval.neg_neg] at hneg
    exact ⟨-x, hneg, neg_neg x⟩
  · rintro ⟨y, hy, rfl⟩
    exact mem_neg hy

/-- The points of bounds in order reach every number between the bounds. -/
theorem reaches_points (h : InOrder i.lower i.upper) (ha : a ∈ i.elements) :
    Reaches i.points a := by
  obtain ⟨-, hl, hu⟩ := inOrder_iff_ne.mp h
  obtain ⟨hla, hau⟩ := mem_elements.mp ha
  cases a with
  | nan => exact absurd hla (Extended.not_le_nan _)
  | finite x => exact ⟨hla, hau⟩
  | posInf =>
    apply not_bddAbove_iff.mpr
    intro c
    have hupp : i.upper = .posInf := (Extended.posInf_le_iff _).mp hau
    obtain ⟨x, hcx, hx⟩ : ∃ x, c < x ∧ i.lower ≤ .finite x := by
      cases hlow : i.lower with
      | nan => simp [hlow] at hla
      | negInf => exact ⟨c + 1, lt_add_one c, trivial⟩
      | finite l => exact ⟨max l (c + 1), (lt_add_one c).trans_le (le_max_right _ _),
          le_max_left l (c + 1)⟩
      | posInf => exact absurd hlow hl
    exact ⟨x, ⟨hx, hupp ▸ Extended.finite_le_posInf x⟩, hcx⟩
  | negInf =>
    apply not_bddBelow_iff.mpr
    intro c
    have hlow : i.lower = .negInf := (Extended.le_negInf_iff _).mp hla
    obtain ⟨x, hxc, hx⟩ : ∃ x, x < c ∧ .finite x ≤ i.upper := by
      cases hupp : i.upper with
      | nan => simp [hupp] at hau
      | posInf => exact ⟨c - 1, sub_one_lt c, trivial⟩
      | finite u => exact ⟨min u (c - 1), (min_le_right _ _).trans_lt (sub_one_lt c),
          min_le_left u (c - 1)⟩
      | negInf => exact absurd hupp hu
    exact ⟨x, ⟨hlow ▸ Extended.negInf_le_finite x, hx⟩, hxc⟩

omit [IsStrictOrderedRing K] in
/-- An interval that spans results is the hull of those on points, if these reach the others. -/
theorem Spans.isHull {r : Set (Extended K)} (h : Spans k r) (hmem : ∀ x ∈ s, .finite x ∈ r)
    (hreach : ∀ a ∈ r, Reaches s a) : IsHull k s := by
  obtain ⟨l, u, hl, hu, rfl⟩ := h
  obtain ⟨x, hx⟩ := (hreach l hl.1).nonempty
  have hlx : l ≤ .finite x := hl.2 (hmem x hx)
  have hxu : .finite x ≤ u := hu.2 (hmem x hx)
  rw [outward_of_inOrder (inOrder_of_le hlx hxu)]
  refine ⟨fun hy ↦ ⟨hl.2 (hmem _ hy), hu.2 (hmem _ hy)⟩, fun _ ↦ ?_, fun _ ↦ ?_⟩
  · have hr := hreach l hl.1
    cases l with
    | finite y => exact ⟨hr, fun z hz ↦ hl.2 (hmem z hz)⟩
    | negInf => exact hr
    | _ => simp at hlx
  · have hr := hreach u hu.1
    cases u with
    | finite y => exact ⟨hr, fun z hz ↦ hu.2 (hmem z hz)⟩
    | posInf => exact hr
    | _ => simp at hxu

/-- The empty interval is the hull of the empty set. -/
theorem isHull_empty : IsHull (empty : Interval (Extended K)) ∅ where
  mem h := h.elim
  lower h := by
    rw [empty_isEmpty] at h
    contradiction
  upper h := by
    rw [empty_isEmpty] at h
    contradiction

omit [IsStrictOrderedRing K] in
/-- No lower bound of a set is above its lower end. -/
theorem IsLowerEnd.le (h : IsLowerEnd s a) (hb : ∀ x ∈ s, b ≤ .finite x) : b ≤ a := by
  cases a with
  | finite x => exact hb x h.1
  | negInf =>
    obtain ⟨x, hx, -⟩ := not_bddBelow_iff.mp h 0
    have hbx := hb x hx
    cases b with
    | finite y => exact absurd ⟨y, hb⟩ h
    | negInf => trivial
    | _ => simp at hbx
  | _ => exact h.elim

omit [IsStrictOrderedRing K] in
/-- No upper bound of a set is below its upper end. -/
theorem IsUpperEnd.le (h : IsUpperEnd s a) (hb : ∀ x ∈ s, .finite x ≤ b) : a ≤ b := by
  cases a with
  | finite x => exact hb x h.1
  | posInf =>
    obtain ⟨x, hx, -⟩ := not_bddAbove_iff.mp h 0
    have hbx := hb x hx
    cases b with
    | finite y => exact absurd ⟨y, hb⟩ h
    | posInf => trivial
    | _ => simp at hbx
  | _ => exact h.elim

omit [IsStrictOrderedRing K] in
/-- A hull lies in every interval around its set. -/
theorem IsHull.isSubset (h : IsHull i s) (hs : ∀ x ∈ s, x ∈ j) : i.isSubset j = true := by
  rw [Interval.isSubset]
  cases he : i.isEmpty with
  | true => rfl
  | false =>
    rw [Bool.false_or, decide_eq_true_iff]
    exact ⟨(h.lower he).le fun x hx ↦ (hs x hx).1, (h.upper he).le fun x hx ↦ (hs x hx).2⟩

/-- An operation that computes a range computes hulls, if it computes in the field on points. -/
theorem IsRange.isHull {f : Interval (Extended K) → Interval (Extended K)}
    {g : Extended K → Extended K} {φ : K → K} (h : IsRange f g)
    (hg : ∀ x, g (.finite x) = .finite (φ x))
    (hreach : ∀ {s a}, Reaches s a → Reaches (φ '' s) (g a)) (hi : i.IsProper) :
    IsHull (f i) (φ '' i.points) := by
  rcases hi with rfl | hi
  · rw [h.of_empty, points_empty, Set.image_empty]
    exact isHull_empty
  apply (h.spans hi).isHull
  · rintro _ ⟨x, hx, rfl⟩
    exact ⟨.finite x, contains_iff_mem.mpr hx, hg x⟩
  · rintro _ ⟨a, ha, rfl⟩
    exact hreach (reaches_points hi ha)

/-- An operation that computes a range on two intervals computes hulls, if it computes in the field
on points. -/
theorem IsRange₂.isHull {f : Interval (Extended K) → Interval (Extended K) → Interval (Extended K)}
    {g : Set (Extended K) → Set (Extended K) → Set (Extended K)} {φ : K → K → K}
    (h : IsRange₂ f g)
    (hg : ∀ {i j : Interval (Extended K)} {x y}, x ∈ i → y ∈ j →
      .finite (φ x y) ∈ g i.elements j.elements)
    (hreach : ∀ {i j : Interval (Extended K)}, InOrder i.lower i.upper → InOrder j.lower j.upper →
      ∀ a ∈ g i.elements j.elements, Reaches (Set.image2 φ i.points j.points) a)
    (hi : i.IsProper) (hj : j.IsProper) : IsHull (f i j) (Set.image2 φ i.points j.points) := by
  rcases hi with rfl | hi
  · rw [h.of_empty (.inl rfl), points_empty, Set.image2_empty_left]
    exact isHull_empty
  rcases hj with rfl | hj
  · rw [h.of_empty (.inr rfl), points_empty, Set.image2_empty_right]
    exact isHull_empty
  apply (h.spans hi hj).isHull
  · rintro _ ⟨x, hx, y, hy, rfl⟩
    exact hg hx hy
  · exact hreach hi hj

/-- The sum is the hull of the sums. -/
theorem isHull_add (hi : i.IsProper) (hj : j.IsProper) :
    IsHull (i + j) (Set.image2 (· + ·) i.points j.points) := by
  refine isRange_add.isHull add_mem_sums ?_ hi hj
  rintro i j hi hj _ ⟨⟨a, ha, b, hb, rfl⟩, hn⟩
  exact (reaches_points hi ha).add (reaches_points hj hb) hn

/-- The product is the hull of the products. -/
theorem isHull_mul (hi : i.IsProper) (hj : j.IsProper) :
    IsHull (i * j) (Set.image2 (· * ·) i.points j.points) := by
  refine isRange_mul.isHull mul_mem_products ?_ hi hj
  rintro i j hi hj _ ⟨a, ha, b, hb, rfl⟩
  exact (reaches_points hi ha).mulBounds (reaches_points hj hb)

/-- The difference is the hull of the differences. -/
theorem isHull_sub (hi : i.IsProper) (hj : j.IsProper) :
    IsHull (i - j) (Set.image2 (· - ·) i.points j.points) := by
  have hadd := isHull_add hi (isProper_neg hj)
  rw [points_neg, Set.image2_image_right] at hadd
  simp only [← sub_eq_add_neg] at hadd
  exact hadd

/-- The power is the hull of the powers. -/
theorem isHull_pow (hi : i.IsProper) (n : ℕ) : IsHull (i.pow n) ((· ^ n) '' i.points) :=
  (isRange_pow n).isHull (fun x ↦ Extended.power_finite x n) (·.pow n) hi

/-- Over exact numbers every operation on proper intervals computes the hull of the results on the
points of its operands, and the result is empty only if an operand is. -/
theorem isHull_of_isProper (hi : i.IsProper) (hj : j.IsProper) :
    (IsHull (i + j) (Set.image2 (· + ·) i.points j.points) ∧
      IsHull (i - j) (Set.image2 (· - ·) i.points j.points) ∧
      IsHull (i * j) (Set.image2 (· * ·) i.points j.points)) ∧
    (IsHull (-i) ((-·) '' i.points) ∧ IsHull i.abs ((|·|) '' i.points) ∧
      ∀ n : ℕ, IsHull (i.pow n) ((· ^ n) '' i.points)) ∧
    ((i + j).isEmpty = (i.isEmpty || j.isEmpty) ∧ (i - j).isEmpty = (i.isEmpty || j.isEmpty) ∧
      (i * j).isEmpty = (i.isEmpty || j.isEmpty)) ∧
    (-i).isEmpty = i.isEmpty ∧ i.abs.isEmpty = i.isEmpty ∧
      ∀ n : ℕ, (i.pow n).isEmpty = i.isEmpty := by
  have hsub : (i + -j).isEmpty = (i.isEmpty || j.isEmpty) := by
    rw [isRange_add.isEmpty hi (isProper_neg hj), neg_isEmpty]
  refine ⟨⟨isHull_add hi hj, isHull_sub hi hj, isHull_mul hi hj⟩, ⟨?_, ?_, fun n ↦ ?_⟩,
    ⟨isRange_add.isEmpty hi hj, hsub, isRange_mul.isEmpty hi hj⟩, neg_isEmpty i,
    isRange_abs.isEmpty hi, fun n ↦ (isRange_pow n).isEmpty hi⟩
  · exact isRange_neg.isHull (fun _ ↦ rfl) Reaches.neg hi
  · exact isRange_abs.isHull (fun _ ↦ rfl) Reaches.abs hi
  · exact isHull_pow hi n

/-- Of an interval on both sides of 0 and a half line that starts at 0, the product is the whole
line, and the square starts at 0 and ends at the square of the farther bound. -/
theorem isHull_of_straddling :
    (ofBounds (.finite (-2)) (.finite 3) * ofBounds (.finite 0) .posInf : Interval (Extended ℚ)) =
        univ ∧
      IsHull (univ : Interval (Extended ℚ)) (Set.image2 (· * ·)
        (ofBounds (.finite (-2)) (.finite 3)).points (ofBounds (.finite 0) .posInf).points) ∧
      (ofBounds (.finite (-2)) (.finite 3) : Interval (Extended ℚ)).pow 2 =
        ⟨.finite 0, .finite 9⟩ ∧
      IsHull (⟨.finite 0, .finite 9⟩ : Interval (Extended ℚ))
        ((· ^ 2) '' (ofBounds (.finite (-2)) (.finite 3)).points) := by
  have hmul : (ofBounds (.finite (-2)) (.finite 3) * ofBounds (.finite 0) .posInf :
      Interval (Extended ℚ)) = univ := by decide +kernel
  have hpow : (ofBounds (.finite (-2)) (.finite 3) : Interval (Extended ℚ)).pow 2 =
      ⟨.finite 0, .finite 9⟩ := by decide +kernel
  obtain ⟨⟨-, -, hm⟩, ⟨-, -, hp⟩, -⟩ := isHull_of_isProper (K := ℚ)
    (isProper_ofBounds (.finite (-2)) (.finite 3)) (isProper_ofBounds (.finite 0) .posInf)
  rw [hmul] at hm
  have hp2 := hp 2
  rw [hpow] at hp2
  exact ⟨hmul, hm, hpow, hp2⟩

end AffineArithmetic.Interval

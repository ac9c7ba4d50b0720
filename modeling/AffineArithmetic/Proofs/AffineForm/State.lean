import AffineArithmetic.Proofs.AffineForm.Rounded
import AffineArithmetic.Proofs.Interval.Ends

/-!
# The states of results in binary64

Which state the result of an operator is in. Nothing but an empty operand makes a result empty; two
linear forms have a linear form over the larger number of symbols as result, or the real line after
an overflow. Where the smaller form only encloses an unbounded interval, results carry no symbols.
-/

namespace AffineArithmetic.AffineForm

open Binary64 Scalar

variable {x y : AffineForm Float} {p q : Linear Float} {i r : Interval Float} {n : ℕ}

/-- The form is linear over `n` symbols, or the real line. -/
def ActiveOrAll (n : ℕ) (x : AffineForm Float) : Prop := x.state = .active n ∨ x = allReals

/-- The form is the real line or a half line. -/
def IsUnbounded (x : AffineForm Float) : Prop :=
  x.state = .allReals ∨ x.state = .boundedBelow ∨ x.state = .boundedAbove

/-- The real line is the only form in its state. -/
theorem state_eq_allReals : x.state = .allReals ↔ x = allReals := by
  cases x <;> simp [state]

/-- The empty form is the only form in its state. -/
theorem state_eq_empty : x.state = .empty ↔ x = empty := by
  cases x <;> simp [state]

private theorem activeOrAll_congr (h : x.state = y.state) : ActiveOrAll n x ↔ ActiveOrAll n y := by
  rw [ActiveOrAll, ActiveOrAll, ← state_eq_allReals, ← state_eq_allReals, h]

private theorem isUnbounded_congr (h : x.state = y.state) : IsUnbounded x ↔ IsUnbounded y := by
  rw [IsUnbounded, IsUnbounded, h]

/-- Linear forms and the real line are not empty. -/
theorem ActiveOrAll.ne_empty (h : ActiveOrAll n x) : x ≠ empty := by
  rintro rfl
  rcases h with h | h <;> contradiction

/-- The real line and half lines are not empty. -/
theorem IsUnbounded.ne_empty (h : IsUnbounded x) : x ≠ empty := by
  rintro rfl
  rcases h with h | h | h <;> contradiction

/-! ### Settling, negation and conversion -/

/-- Settling makes no form empty. -/
theorem settle_eq_empty : x.settle = empty ↔ x = empty := by
  cases x with
  | active l =>
    unfold settle
    by_cases h : l.isFinite = true
    · simp [h]
    · simp [h]
  | _ => rfl

/-- Settling keeps the symbols or gives the real line. -/
theorem activeOrAll_settle (p : Linear Float) : ActiveOrAll p.size (active p).settle := by
  by_cases h : p.isFinite = true
  · rw [settle, if_pos h]
    exact .inl rfl
  · rw [settle, if_neg h]
    exact .inr rfl

/-- Settling twice keeps the symbols or gives the real line. -/
theorem ActiveOrAll.settle (h : ActiveOrAll n x) : ActiveOrAll n x.settle := by
  cases x with
  | active p =>
    have hn : p.size = n := by simpa [ActiveOrAll, state] using h
    exact hn ▸ activeOrAll_settle p
  | _ => exact h

/-- Settling keeps unbounded forms. -/
theorem IsUnbounded.settle (h : IsUnbounded x) : IsUnbounded x.settle := by
  cases x with
  | active p => rcases h with h | h | h <;> contradiction
  | _ => exact h

/-- Negation keeps the symbols. -/
theorem ActiveOrAll.neg (h : ActiveOrAll n x) : ActiveOrAll n (-x) := by
  cases x with
  | active p =>
    have hn : p.size = n := by simpa [ActiveOrAll, state] using h
    exact .inl (congrArg State.active ((Linear.size_neg p).trans hn))
  | allReals => exact .inr rfl
  | _ => rcases h with h | h <;> contradiction

/-- The form of an interval is empty if the interval is. -/
theorem ofInterval_eq_empty : ofInterval i = empty ↔ i.isEmpty = true := by
  unfold ofInterval
  by_cases h : i.isEmpty = true
  · simp [h]
  · rw [if_neg h]
    cases i.isUnboundedBelow <;> cases i.isUnboundedAbove <;> simp [h]

/-- The form of an unbounded interval is unbounded. -/
theorem isUnbounded_ofInterval (hne : i.isEmpty = false) (h : i.isUnbounded = true) :
    IsUnbounded (ofInterval i) := by
  rcases ofInterval_cases i with ⟨he, -⟩ | ⟨-, ⟨-, -, hi⟩ | ⟨-, -, hi⟩ | ⟨-, -, hi⟩ | ⟨hb, -⟩⟩
  · rw [hne] at he
    contradiction
  · rw [hi]
    exact .inl rfl
  · rw [hi]
    exact .inr (.inl rfl)
  · rw [hi]
    exact .inr (.inr rfl)
  · rw [Interval.isBounded, h, Bool.not_true, Bool.and_false] at hb
    contradiction

/-- Linear forms enclose something. -/
theorem Valid.isEmpty_toInterval_active (h : Valid (active p)) : p.toInterval.isEmpty = false :=
  h.not_isEmpty_toInterval nofun

/-- A linear form that does not enclose a bounded interval encloses an unbounded one. -/
theorem Valid.isUnbounded_toInterval (h : Valid (active p)) (hb : p.toInterval.isBounded = false) :
    p.toInterval.isUnbounded = true := by
  rw [Interval.isBounded, h.isEmpty_toInterval_active] at hb
  simpa using hb

/-! ### Sums -/

/-- Adding a bounded interval keeps the symbols. -/
theorem activeOrAll_addInterval (hr : r.IsProper) (hb : r.isBounded = true) :
    ActiveOrAll p.size ((active p).addInterval r) := by
  obtain ⟨hm, hd⟩ := hr.isFinite_midpoint_radius hb
  rw [addInterval_of_isBounded hb, shiftStep_of_isFinite hm, widenStep_of_isFinite hd]
  exact activeOrAll_settle ((p.shift r.midpoint).widen r.radius)

/-- Adding an unbounded interval gives an unbounded form. -/
theorem isUnbounded_addInterval (hp : Valid (active p)) (hr : r.IsProper)
    (hub : r.isUnbounded = true) : IsUnbounded ((active p).addInterval r) := by
  have hne := hp.isEmpty_toInterval_active
  have hprop := isProper_toInterval (active p)
  have hb : r.isBounded = false := by
    rw [Interval.isBounded, hub, Bool.not_true, Bool.and_false]
  have hsum := Interval.isUnbounded_add hprop hr hne hub
  have hne' : (p.toInterval + r).isEmpty = false := Interval.not_isEmpty_of_isUnbounded hsum
  rw [addInterval_of_not_isBounded hb]
  exact (isUnbounded_ofInterval hne' hsum).settle

/-- The sum of linear forms over the same symbols keeps these. -/
theorem activeOrAll_addStep_of_eq (h : p.size = q.size) :
    ActiveOrAll p.size ((active p).addStep (active q)).settle := by
  rw [addStep_of_eq h, ← Linear.size_add h]
  exact activeOrAll_settle (p + q)

/-- The linear form with fewer symbols, and the second one of two over the same symbols. -/
def smaller (p q : Linear Float) : Linear Float := if p.size < q.size then p else q

/-- The sum of linear forms over different symbols keeps those of the larger form, as long as the
smaller one encloses a bounded interval. -/
theorem activeOrAll_addStep_of_ne (h : p.size ≠ q.size)
    (hb : (smaller p q).toInterval.isBounded = true) :
    ActiveOrAll (max p.size q.size) ((active p).addStep (active q)).settle := by
  unfold smaller at hb
  rcases lt_or_gt_of_ne h with hlt | hgt
  · rw [if_pos hlt] at hb
    rw [addStep_of_lt hlt, max_eq_right hlt.le]
    exact (activeOrAll_addInterval (isProper_toInterval (active p)) hb).settle
  · rw [if_neg hgt.not_gt] at hb
    rw [addStep_of_gt hgt, max_eq_left hgt.le]
    exact (activeOrAll_addInterval (isProper_toInterval (active q)) hb).settle

/-- The sum of linear forms over different symbols is unbounded if the smaller one encloses an
unbounded interval. -/
theorem isUnbounded_addStep (hp : Valid (active p)) (hq : Valid (active q)) (h : p.size ≠ q.size)
    (hb : (smaller p q).toInterval.isBounded = false) :
    IsUnbounded ((active p).addStep (active q)).settle := by
  unfold smaller at hb
  rcases lt_or_gt_of_ne h with hlt | hgt
  · rw [if_pos hlt] at hb
    rw [addStep_of_lt hlt]
    exact (isUnbounded_addInterval hq (isProper_toInterval (active p))
      (hp.isUnbounded_toInterval hb)).settle
  · rw [if_neg hgt.not_gt] at hb
    rw [addStep_of_gt hgt]
    exact (isUnbounded_addInterval hp (isProper_toInterval (active q))
      (hq.isUnbounded_toInterval hb)).settle

/-- A sum is empty only if an operand is. -/
theorem addStep_eq_empty (hx : Valid x) (hy : Valid y) :
    (x.addStep y).settle = empty ↔ x = empty ∨ y = empty := by
  by_cases hact : x.isActive = false ∨ y.isActive = false
  · rw [addStep_of_not_active hact, settle_eq_empty, ofInterval_eq_empty,
      Interval.isEmpty_add (isProper_toInterval x) (isProper_toInterval y),
      hx.isEmpty_toInterval, hy.isEmpty_toInterval]
  · cases x with
    | active p =>
      cases y with
      | active q =>
        have hne : ((active p).addStep (active q)).settle ≠ empty := by
          by_cases h : p.size = q.size
          · exact (activeOrAll_addStep_of_eq h).ne_empty
          · cases hb : (smaller p q).toInterval.isBounded with
            | true => exact (activeOrAll_addStep_of_ne h hb).ne_empty
            | false => exact (isUnbounded_addStep hx hy h hb).ne_empty
        constructor
        · exact fun he ↦ absurd he hne
        · rintro (he | he) <;> contradiction
      | _ => exact absurd (.inr rfl) hact
    | _ => exact absurd (.inl rfl) hact

/-! ### Differences

The scaling by -1 that a difference starts with does not round, so a difference is in the state of
the sum with the opposite form. -/

private theorem state_sub (hx : Valid x) (y : AffineForm Float) :
    (x - y).state = (x + -y).state := by
  rw [← state_toRounded, ← state_toRounded, toRounded_sub, toRounded_add, toRounded_neg,
    AffineForm.sub_eq_add_neg hx.isFinite_toRounded]

private theorem isBounded_toInterval_neg (q : Linear Float) :
    (-q).toInterval.isBounded = q.toInterval.isBounded := by
  rw [← Interval.isBounded_toRounded, Linear.toRounded_toInterval, Linear.toRounded_neg,
    Linear.neg_toInterval, Interval.neg_isBounded, ← Linear.toRounded_toInterval,
    Interval.isBounded_toRounded]

private theorem isBounded_smaller_neg (p q : Linear Float) :
    (smaller p (-q)).toInterval.isBounded = (smaller p q).toInterval.isBounded := by
  unfold smaller
  rw [Linear.size_neg]
  split
  · rfl
  · exact isBounded_toInterval_neg q

/-- A difference is empty only if an operand is. -/
theorem sub_eq_empty (hx : Valid x) (hy : Valid y) : x - y = empty ↔ x = empty ∨ y = empty := by
  have hadd : x + -y = empty ↔ x = empty ∨ -y = empty := addStep_eq_empty hx hy.neg
  rw [← state_eq_empty, state_sub hx, state_eq_empty, hadd, neg_eq_empty]

/-- The difference of linear forms over the same symbols keeps these. -/
theorem activeOrAll_sub_of_eq (h : p.size = q.size) :
    ActiveOrAll p.size (active p - active q) := by
  have hone : Scalar.isFinite (-Scalar.one : Float) = true := by decide +kernel
  rw [← Linear.size_scale p (-Scalar.one)] at h
  rw [sub_eq, scaleStep_of_isFinite hone, ← Linear.size_scale p (-Scalar.one)]
  exact (activeOrAll_addStep_of_eq h).neg

/-- The difference of linear forms over different symbols keeps those of the larger form, as long
as the smaller one encloses a bounded interval. -/
theorem activeOrAll_sub_of_ne (hp : Valid (active p)) (h : p.size ≠ q.size)
    (hb : (smaller p q).toInterval.isBounded = true) :
    ActiveOrAll (max p.size q.size) (active p - active q) := by
  rw [← Linear.size_neg q] at h
  rw [← isBounded_smaller_neg] at hb
  apply (activeOrAll_congr (state_sub hp (active q))).mpr
  rw [← Linear.size_neg q]
  exact activeOrAll_addStep_of_ne h hb

/-- The difference of linear forms over different symbols is unbounded if the smaller one encloses
an unbounded interval. -/
theorem isUnbounded_sub (hp : Valid (active p)) (hq : Valid (active q)) (h : p.size ≠ q.size)
    (hb : (smaller p q).toInterval.isBounded = false) : IsUnbounded (active p - active q) := by
  have hq' : Valid (active (-q)) := hq.neg
  rw [← Linear.size_neg q] at h
  rw [← isBounded_smaller_neg] at hb
  apply (isUnbounded_congr (state_sub hp (active q))).mpr
  exact isUnbounded_addStep hp hq' h hb

/-! ### Products -/

/-- The form is unbounded, or exactly 0 over no symbols. -/
def IsUnboundedOrZero (x : AffineForm Float) : Prop :=
  IsUnbounded x ∨ x.state = .active 0 ∧ x.isZero = true

/-- Forms that are unbounded or exactly 0 are not empty. -/
theorem IsUnboundedOrZero.ne_empty (h : IsUnboundedOrZero x) : x ≠ empty := by
  rcases h with h | h
  · exact h.ne_empty
  · rintro rfl
    exact absurd h.1 (by decide)

/-- Multiplying by a bounded interval keeps the symbols. -/
theorem activeOrAll_mulInterval (hb : r.isBounded = true) :
    ActiveOrAll p.size ((active p).mulInterval r) := by
  rw [mulInterval_of_isBounded hb, ← Linear.size_mulInterval p r]
  exact activeOrAll_settle (p.mulInterval r)

/-- Multiplying by an unbounded interval gives an unbounded form, unless the form encloses only
the point 0. -/
theorem isUnboundedOrZero_mulInterval (hp : Valid (active p)) (hr : r.IsProper)
    (hub : r.isUnbounded = true) : IsUnboundedOrZero ((active p).mulInterval r) := by
  have hne := hp.isEmpty_toInterval_active
  have hne' := Interval.not_isEmpty_of_isUnbounded hub
  have hb : r.isBounded = false := by
    rw [Interval.isBounded, hub, Bool.not_true, Bool.and_false]
  rw [mulInterval_of_not_isBounded hb]
  change IsUnboundedOrZero (ofInterval (p.toInterval * r))
  by_cases h0 : value p.toInterval.lower = .finite 0 ∧ value p.toInterval.upper = .finite 0
  · rw [Interval.mul_eq_zero hne hne' h0.1 h0.2]
    exact .inr (by decide +kernel)
  · have hmul := Interval.isUnbounded_mul (isProper_toInterval (active p)) hr hne hub h0
    exact .inl (isUnbounded_ofInterval (Interval.not_isEmpty_of_isUnbounded hmul) hmul)

/-- The product of linear forms over the same symbols keeps these. -/
theorem activeOrAll_mul_of_eq (h : p.size = q.size) :
    ActiveOrAll p.size (active p * active q) := by
  rw [mul_of_eq h, ← Linear.size_mul h]
  exact activeOrAll_settle (p * q)

/-- The product of linear forms over different symbols keeps those of the larger form, as long as
the smaller one encloses a bounded interval. -/
theorem activeOrAll_mul_of_ne (h : p.size ≠ q.size)
    (hb : (smaller p q).toInterval.isBounded = true) :
    ActiveOrAll (max p.size q.size) (active p * active q) := by
  unfold smaller at hb
  rcases lt_or_gt_of_ne h with hlt | hgt
  · rw [if_pos hlt] at hb
    rw [mul_of_lt hlt, max_eq_right hlt.le]
    exact activeOrAll_mulInterval hb
  · rw [if_neg hgt.not_gt] at hb
    rw [mul_of_gt hgt, max_eq_left hgt.le]
    exact activeOrAll_mulInterval hb

/-- The product of linear forms over different symbols is unbounded or exactly 0 if the smaller one
encloses an unbounded interval. -/
theorem isUnboundedOrZero_mul (hp : Valid (active p)) (hq : Valid (active q))
    (h : p.size ≠ q.size) (hb : (smaller p q).toInterval.isBounded = false) :
    IsUnboundedOrZero (active p * active q) := by
  unfold smaller at hb
  rcases lt_or_gt_of_ne h with hlt | hgt
  · rw [if_pos hlt] at hb
    rw [mul_of_lt hlt]
    exact isUnboundedOrZero_mulInterval hq (isProper_toInterval (active p))
      (hp.isUnbounded_toInterval hb)
  · rw [if_neg hgt.not_gt] at hb
    rw [mul_of_gt hgt]
    exact isUnboundedOrZero_mulInterval hp (isProper_toInterval (active q))
      (hq.isUnbounded_toInterval hb)

/-- A product is empty only if an operand is. -/
theorem mul_eq_empty (hx : Valid x) (hy : Valid y) : x * y = empty ↔ x = empty ∨ y = empty := by
  by_cases hact : x.isActive = false ∨ y.isActive = false
  · rw [mul_of_not_active hact, ofInterval_eq_empty,
      Interval.isEmpty_mul (isProper_toInterval x) (isProper_toInterval y),
      hx.isEmpty_toInterval, hy.isEmpty_toInterval]
  · cases x with
    | active p =>
      cases y with
      | active q =>
        have hne : active p * active q ≠ empty := by
          by_cases h : p.size = q.size
          · exact (activeOrAll_mul_of_eq h).ne_empty
          · cases hb : (smaller p q).toInterval.isBounded with
            | true => exact (activeOrAll_mul_of_ne h hb).ne_empty
            | false => exact (isUnboundedOrZero_mul hx hy h hb).ne_empty
        constructor
        · exact fun he ↦ absurd he hne
        · rintro (he | he) <;> contradiction
      | _ => exact absurd (.inr rfl) hact
    | _ => exact absurd (.inl rfl) hact

/-! ### Squares and powers -/

/-- A square is empty only if the operand is. -/
theorem sqr_eq_empty (h : Valid x) : x.sqr = empty ↔ x = empty := by
  have hpow : ofInterval (x.toInterval.pow 2) = empty ↔ x = empty := by
    rw [ofInterval_eq_empty, Interval.isEmpty_pow (isProper_toInterval x) (by decide),
      h.isEmpty_toInterval]
  cases hs : x.squaresAsInterval with
  | true => rwa [sqr_of_squaresAsInterval hs]
  | false =>
    cases x with
    | active p =>
      rw [sqr_of_linear hs, settle_eq_empty]
      constructor <;> intro he <;> contradiction
    | _ => rwa [sqr_of_not_active rfl]

/-- A product with a power is empty only if a factor is. -/
theorem mulPower_eq_empty (hx : Valid x) (hy : Valid y) (hn : 0 < n) :
    x.mulPower y n = empty ↔ x = empty ∨ y = empty := by
  induction n using Nat.strong_induction_on generalizing x y with
  | _ n ih =>
    rcases Nat.mod_two_eq_zero_or_one n with hn2 | hn2
    · rw [mulPower_of_two_le (by omega), if_neg (by omega),
        ih (n / 2) (by omega) hx hy.sqr (by omega), sqr_eq_empty hy]
    by_cases h2 : n / 2 = 0
    · rw [mulPower_of_lt_two h2, if_pos hn2, mul_eq_empty hx hy]
    · rw [mulPower_of_two_le h2, if_pos hn2,
        ih (n / 2) (by omega) (hx.mul hy) hy.sqr (Nat.pos_of_ne_zero h2), mul_eq_empty hx hy,
        sqr_eq_empty hy, or_assoc, or_self]

/-- The form of the number 1 is not empty. -/
theorem one_ne_empty : one ≠ (empty : AffineForm Float) := by
  rw [one, ofScalar, if_pos (scalar_isFinite_iff.mpr ⟨1, value_one⟩)]
  intro he
  contradiction

/-- A power is empty only if the operand is, also with exponent 0. -/
theorem pow_eq_empty (h : Valid x) (n : ℕ) : x.pow n = empty ↔ x = empty := by
  induction n using Nat.strong_induction_on generalizing x with
  | _ n ih =>
    by_cases h0 : n = 0
    · rw [h0]
      by_cases hx : x = empty
      · rw [hx, empty_pow_zero]
      · rw [pow_zero_of_ne_empty hx]
        exact iff_of_false one_ne_empty hx
    by_cases h1 : n = 1
    · rw [h1, AffineForm.pow_one]
    rcases Nat.mod_two_eq_zero_or_one n with hn | hn
    · rw [pow_of_even h0 hn, ih (n / 2) (by omega) h.sqr, sqr_eq_empty h]
    · rw [pow_of_odd h1 hn, mulPower_eq_empty h h.sqr (by omega), sqr_eq_empty h, or_self]

/-! ### Reachable forms -/

/-- The results of operators on reachable forms are empty only if an operand is, whatever
overflows. Linear forms over the same symbols have a linear form over these as sum, difference and
product, or the real line; those over different symbols have one over the larger number of symbols
as long as the smaller form encloses a bounded interval, and results without symbols otherwise. -/
theorem reachable_state {limit : ℕ} (hx : Reachable limit x) (hy : Reachable limit y) :
    ((x + y = empty ↔ x = empty ∨ y = empty) ∧ (x - y = empty ↔ x = empty ∨ y = empty) ∧
      (x * y = empty ↔ x = empty ∨ y = empty) ∧ (x.sqr = empty ↔ x = empty) ∧
      ∀ n, x.pow n = empty ↔ x = empty) ∧
    ∀ p q, x = active p → y = active q →
      (p.size = q.size → ActiveOrAll p.size (x + y) ∧ ActiveOrAll p.size (x - y) ∧
        ActiveOrAll p.size (x * y)) ∧
      (p.size ≠ q.size → (smaller p q).toInterval.isBounded = true →
        ActiveOrAll (max p.size q.size) (x + y) ∧ ActiveOrAll (max p.size q.size) (x - y) ∧
          ActiveOrAll (max p.size q.size) (x * y)) ∧
      (p.size ≠ q.size → (smaller p q).toInterval.isBounded = false →
        IsUnbounded (x + y) ∧ IsUnbounded (x - y) ∧ IsUnboundedOrZero (x * y)) := by
  have hx := hx.valid
  have hy := hy.valid
  refine ⟨⟨addStep_eq_empty hx hy, sub_eq_empty hx hy, mul_eq_empty hx hy, sqr_eq_empty hx,
    pow_eq_empty hx⟩, ?_⟩
  rintro p q rfl rfl
  refine ⟨fun h ↦ ?_, fun h hb ↦ ?_, fun h hb ↦ ?_⟩
  · exact ⟨activeOrAll_addStep_of_eq h, activeOrAll_sub_of_eq h, activeOrAll_mul_of_eq h⟩
  · exact ⟨activeOrAll_addStep_of_ne h hb, activeOrAll_sub_of_ne hx h hb,
      activeOrAll_mul_of_ne h hb⟩
  · exact ⟨isUnbounded_addStep hx hy h hb, isUnbounded_sub hx hy h hb,
      isUnboundedOrZero_mul hx hy h hb⟩

/-- The values of the largest number with the largest error overflow. Its sum with a form over one
symbol is a half line. -/
theorem isUnbounded_add_of_overflow :
    Reachable 2 ((ofScalar maxFinite).update { widen := some maxFinite }) ∧
      Reachable 2 (onSymbol 1 1 (.ofBounds 1.0 2.0)) ∧
      IsUnbounded ((ofScalar maxFinite).update { widen := some maxFinite } +
        onSymbol 1 1 (.ofBounds 1.0 2.0)) ∧
      (ofScalar maxFinite).update { widen := some maxFinite } + onSymbol 1 1 (.ofBounds 1.0 2.0) =
        boundedBelow 1.0 := by
  have hx : Reachable 2 ((ofScalar maxFinite).update { widen := some maxFinite }) :=
    .update (.ofScalar maxFinite) _ fun y hy ↦ nomatch hy
  have hy : Reachable 2 (onSymbol 1 1 (.ofBounds 1.0 2.0)) :=
    .onSymbol (by decide) (by decide) (.ofBounds 1.0 2.0)
  have h := (reachable_state hx hy).2 ⟨maxFinite, [], maxFinite⟩ ⟨1.5, [0.5], 0.0⟩
    (by decide +kernel) (by decide +kernel)
  exact ⟨hx, hy, (h.2.2 (by decide) (by decide +kernel)).1, by decide +kernel⟩

end AffineArithmetic.AffineForm

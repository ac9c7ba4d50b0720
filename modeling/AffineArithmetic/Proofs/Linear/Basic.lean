import AffineArithmetic.AffineForm.Update

/-!
# Finite linear forms and matched forms

A linear form is finite entry by entry, and bringing two forms to one set of symbols either keeps
both or takes the one with fewer symbols as an interval.
-/

namespace AffineArithmetic.Linear

variable {α : Type} [Scalar α] {p q l m : Linear α} {r : Interval α} {a : α}

/-- A form is finite if its error, its centre and its coefficients are. -/
theorem isFinite_iff {x : Linear α} : x.isFinite = true ↔
    Scalar.isFinite x.error = true ∧ Scalar.isFinite x.center = true ∧
      ∀ a ∈ x.coeffs, Scalar.isFinite a = true := by
  rw [isFinite, entries, List.all_cons, Bool.and_eq_true, Bool.and_eq_true, List.all_eq_true]

/-- Scaling by 0 gives zeros. -/
theorem scale_of_eq_zero (h : (a == Scalar.zero) = true) :
    p.scale a = ⟨Scalar.zero, p.coeffs.map fun _ ↦ Scalar.zero, Scalar.zero⟩ := if_pos h

/-- Scaling by any other scalar multiplies every entry. -/
theorem scale_of_ne_zero (h : ¬ (a == Scalar.zero) = true) :
    p.scale a = ⟨p.center * a, p.coeffs.map (· * a), p.error * Scalar.abs a⟩ := if_neg h

/-- Forms over the same symbols are kept. -/
theorem matchWith_of_eq {x y : Linear α} (h : x.size = y.size) : x.matchWith y = .aligned x y :=
  if_pos h

/-- The second form is taken as an interval if it has fewer symbols. -/
theorem matchWith_of_gt {x y : Linear α} (h : y.size < x.size) :
    x.matchWith y = .folded x y.toInterval := by
  rw [matchWith, if_neg (Nat.ne_of_gt h), if_pos h]

/-- The first form is taken as an interval if it has fewer symbols. -/
theorem matchWith_of_lt {x y : Linear α} (h : x.size < y.size) :
    x.matchWith y = .folded y x.toInterval := by
  rw [matchWith, if_neg (Nat.ne_of_lt h), if_neg (Nat.lt_asymm h), overwrite_eq]

/-- Forms that were aligned are those that were to be matched. -/
theorem cases_of_aligned (h : p.matchWith q = .aligned l m) :
    p.size = q.size ∧ l = p ∧ m = q := by
  rcases Nat.lt_trichotomy p.size q.size with hlt | heq | hgt
  · rw [matchWith_of_lt hlt] at h
    contradiction
  · rw [matchWith_of_eq heq] at h
    obtain ⟨rfl, rfl⟩ := Matched.aligned.inj h
    exact ⟨heq, rfl, rfl⟩
  · rw [matchWith_of_gt hgt] at h
    contradiction

/-- A folded match is of the larger form with the interval of the smaller one. -/
theorem cases_of_folded (h : p.matchWith q = .folded l r) :
    (p.size < q.size ∧ l = q ∧ r = p.toInterval) ∨
      (q.size < p.size ∧ l = p ∧ r = q.toInterval) := by
  rcases Nat.lt_trichotomy p.size q.size with hlt | heq | hgt
  · rw [matchWith_of_lt hlt] at h
    obtain ⟨rfl, rfl⟩ := Matched.folded.inj h
    exact .inl ⟨hlt, rfl, rfl⟩
  · rw [matchWith_of_eq heq] at h
    contradiction
  · rw [matchWith_of_gt hgt] at h
    obtain ⟨rfl, rfl⟩ := Matched.folded.inj h
    exact .inr ⟨hgt, rfl, rfl⟩

end AffineArithmetic.Linear

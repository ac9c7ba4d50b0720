import AffineArithmetic.Program.Value
import AffineArithmetic.Proofs.AffineForm.Value

/-!
# Soundness of programs

Over exact numbers the forms in the registers of a straight-line program admit the true results of
its assignments, under one and the same choice of values for the noise symbols. One assignment keeps
this for every register, and so does a whole program.
-/

namespace AffineArithmetic.Program

open Scalar

variable {ι K : Type} [Field K] [LinearOrder K] {s : Registers ι (Extended K)} {ε : Noise K}
  {v w : ι → K} {x : AffineForm (Extended K)} {y z : K}

/-! ### Operands -/

/-- The number is possible for the value of an operand. -/
def Value.Admits (ε : Noise K) : Value (Extended K) → K → Prop
  | scalar d, y => d = .finite y
  | interval i, y => y ∈ i
  | form x, y => x.Admits ε y

/-- Reading gives the form in the register. -/
theorem Registers.read_eq_ok {α : Type} [Scalar α] {s : Registers ι α} {x : AffineForm α} {r : ι} :
    s.read r = .ok x ↔ s r = some x := by
  unfold Registers.read
  cases s r with
  | none => exact ⟨fun h ↦ (nomatch h), fun h ↦ (nomatch h)⟩
  | some y => rw [Except.ok.injEq, Option.some.injEq]

/-- Registers that are read admit their values. -/
theorem Registers.Admit.read (h : s.Admit ε v) {r : ι} (hx : s.read r = .ok x) :
    x.Admits ε (v r) :=
  h r x (read_eq_ok.mp hx)

private theorem exists_of_map_eq_ok {β γ δ : Type} {e : Except δ β} {f : β → γ} {c : γ}
    (h : e.map f = .ok c) : ∃ b, e = .ok b ∧ f b = c := by
  cases e with
  | error _ => contradiction
  | ok b => exact ⟨b, rfl, Except.ok.inj h⟩

private theorem exists_of_bind_eq_ok {β γ δ : Type} {e : Except δ β} {f : β → Except δ γ} {c : γ}
    (h : e >>= f = .ok c) : ∃ b, e = .ok b ∧ f b = .ok c := by
  cases e with
  | error _ => contradiction
  | ok b => exact ⟨b, rfl, h⟩

/-- The value of an operand admits what the operand stands for. -/
theorem Operand.admits_eval (hs : s.Admit ε v) {o : Operand ι (Extended K)}
    {a : Value (Extended K)} (ha : o.eval s = .ok a) (hy : o.Holds s v y) : a.Admits ε y := by
  cases o with
  | scalar d =>
    cases ha
    exact hy
  | interval i =>
    obtain ⟨j, hj, rfl⟩ := exists_of_map_eq_ok ha
    obtain ⟨k, hk, hy⟩ := hy
    cases hj.symm.trans hk
    exact hy
  | register r =>
    obtain ⟨x, hx, rfl⟩ := exists_of_map_eq_ok ha
    cases hy
    exact hs.read hx

variable [IsStrictOrderedRing K]

/-! ### Operations -/

/-- A binary operation on forms, scalars and intervals admits the results of the operation. -/
theorem Op.admits_onForms? (hε : ε.InRange) {op : Op} {a b : Value (Extended K)}
    (ha : a.Admits ε y) (hb : b.Admits ε z) (h : op.onForms? a b = some x) :
    x.Admits ε (op.exact y z) := by
  cases a with
  | form p =>
    cases b with
    | form q =>
      cases op <;> cases h
      · exact AffineForm.Admits.add hε ha hb
      · exact AffineForm.Admits.sub hε ha hb
      · exact AffineForm.Admits.mul hε ha hb
    | scalar d =>
      cases hb
      cases op <;> cases h
      · exact AffineForm.Admits.addScalar ha z
      · exact AffineForm.Admits.subScalar ha z
      · exact AffineForm.Admits.mulScalar ha z
    | interval i =>
      cases op <;> cases h
      · exact AffineForm.Admits.addInterval hε ha hb
      · exact AffineForm.Admits.subInterval hε ha hb
      · exact AffineForm.Admits.mulInterval hε ha hb
  | scalar d =>
    cases ha
    cases b with
    | form q =>
      cases op <;> cases h
      · have h := AffineForm.Admits.addScalar hb y
        rw [add_comm z y] at h
        exact h
      · exact AffineForm.Admits.scalarSub hb y
      · have h := AffineForm.Admits.mulScalar hb y
        rw [mul_comm z y] at h
        exact h
    | _ => contradiction
  | interval i =>
    cases b with
    | form q =>
      cases op <;> cases h
      · have h := AffineForm.Admits.addInterval hε hb ha
        rw [add_comm z y] at h
        exact h
      · exact AffineForm.Admits.intervalSub hε hb ha
      · have h := AffineForm.Admits.mulInterval hε hb ha
        rw [mul_comm z y] at h
        exact h
    | _ => contradiction

omit [IsStrictOrderedRing K] in
-- An absent step leaves the form and the value as they are.
private theorem admits_elim {o : Option (Extended K)} {step : Extended K → AffineForm (Extended K)}
    {absent d b : K} (hd : Holds? absent o d) (hnone : d = absent → x.Admits ε b)
    (hsome : (step (.finite d)).Admits ε b) : (o.elim x step).Admits ε b := by
  cases o with
  | none => exact hnone hd
  | some a =>
    cases hd
    exact hsome

/-- A linear update admits the results of its steps. -/
theorem admits_update (hε : ε.InRange) {u : Update (Extended K)} {b c d e f t : K}
    (hx : x.Admits ε b) (hscale : Holds? 1 u.scale d)
    (hadd : u.add.elim (c = 0) fun q ↦ q.Admits ε c) (hshift : Holds? 0 u.shift e)
    (hwiden : Holds? 0 u.widen f) (ht : |t| ≤ |f|) :
    (x.update u).Admits ε (d * b + c + e + t) := by
  have hscaled : (u.scale.elim x x.scaleStep).Admits ε (d * b) := by
    refine admits_elim hscale (fun h ↦ ?_) (hx.scaleStep d)
    rwa [h, one_mul]
  have hadded : (u.add.elim (u.scale.elim x x.scaleStep)
      (u.scale.elim x x.scaleStep).addStep).Admits ε (d * b + c) := by
    cases h : u.add with
    | none =>
      rw [h] at hadd
      cases hadd
      rwa [add_zero]
    | some q =>
      rw [h] at hadd
      exact hscaled.addStep hε hadd
  have hshifted := admits_elim hshift (fun h ↦ (by rwa [h, add_zero])) (hadded.shiftStep e)
  have hwidened := admits_elim hwiden (fun h ↦ (by
    rw [h, abs_zero, abs_nonpos_iff] at ht
    rwa [ht, add_zero])) (hshifted.widenStep ht)
  exact hwidened.settle

/-- The form of a term admits the true results of the term. -/
theorem Term.admits_eval (hε : ε.InRange) (hs : s.Admit ε v) {t : Term ι (Extended K)}
    (hx : t.eval s = .ok x) (hy : t.Yields s v ε y) : x.Admits ε y := by
  cases t with
  | scalar d =>
    cases hx
    cases hy
    exact AffineForm.admits_ofScalar ε y
  | interval i =>
    obtain ⟨j, hj, rfl⟩ := exists_of_map_eq_ok hx
    obtain ⟨k, hk, hy⟩ := hy
    cases hj.symm.trans hk
    exact AffineForm.admits_ofInterval ε hy
  | symbol size position i =>
    obtain ⟨z, hz, hy⟩ := hy
    cases hx.symm.trans hz
    exact hy
  | checkedSymbol size position i =>
    obtain ⟨z, hz, hy⟩ := hy
    cases hx.symm.trans hz
    exact hy
  | register r =>
    cases hy
    exact hs.read hx
  | neg r =>
    obtain ⟨z, hz, rfl⟩ := exists_of_map_eq_ok hx
    cases hy
    exact (hs.read hz).neg
  | sqr r =>
    obtain ⟨z, hz, rfl⟩ := exists_of_map_eq_ok hx
    cases hy
    exact (hs.read hz).sqr hε
  | pow r n =>
    obtain ⟨z, hz, rfl⟩ := exists_of_map_eq_ok hx
    cases hy
    exact (hs.read hz).pow hε n
  | binary op a b =>
    obtain ⟨p, hp, hx⟩ := exists_of_bind_eq_ok hx
    obtain ⟨q, hq, hx⟩ := exists_of_bind_eq_ok hx
    obtain ⟨b, c, hb, hc, rfl⟩ := hy
    have hp := Operand.admits_eval hs hp hb
    have hq := Operand.admits_eval hs hq hc
    cases h : op.onForms? p q with
    | none =>
      rw [h] at hx
      contradiction
    | some z =>
      rw [h] at hx
      cases hx
      exact Op.admits_onForms? hε hp hq h
  | update r scale add shift widen =>
    obtain ⟨p, hp, hx⟩ := exists_of_bind_eq_ok hx
    obtain ⟨q, hq, hx⟩ := exists_of_bind_eq_ok hx
    obtain ⟨d, e, f, t, hscale, hshift, hwiden, ht, rfl⟩ := hy
    cases hx
    refine admits_update hε (hs.read hp) hscale ?_ hshift hwiden ht
    cases add with
    | none =>
      cases hq
      rfl
    | some i =>
      obtain ⟨z, hz, hq⟩ := exists_of_bind_eq_ok hq
      cases hq
      exact hs.read hz

/-! ### Runs -/

section Run

variable [DecidableEq ι] {p : List (Assignment ι (Extended K))}

omit [IsStrictOrderedRing K] in
/-- Writing a form that admits a value keeps what the registers admit. -/
theorem Registers.Admit.write (h : s.Admit ε v) {r : ι} (hx : x.Admits ε y) :
    (s.write r x).Admit ε (Function.update v r y) := by
  intro q z hz
  unfold Registers.write at hz
  by_cases hq : q = r
  · rw [if_pos hq] at hz
    cases hz
    rwa [hq, Function.update_self]
  · rw [if_neg hq] at hz
    rw [Function.update_of_ne hq]
    exact h q z hz

/-- After a program every register admits its true value. -/
theorem Follows.admit (hε : ε.InRange) (hp : Follows ε s v p w) (hs : s.Admit ε v) :
    (run s p).Admit ε w := by
  induction hp with
  | nil => exact hs
  | @write s a p x v w y hx hy _ ih =>
    have hstep : (a.run s).1 = s.write a.target x := by
      rw [Assignment.run, hx]
    rw [run, List.foldl_cons, hstep]
    exact ih (hs.write (Term.admits_eval hε hs hx hy))
  | @fail s a p f v w hf _ ih =>
    have hstep : (a.run s).1 = s := by
      rw [Assignment.run, hf]
    rw [run, List.foldl_cons, hstep]
    exact ih hs

/-- Whatever values the noise symbols have, the registers admit and enclose the true results of a
program if they admit the values at its start, and so does the form that the next assignment
writes. -/
theorem run_admits (hε : ε.InRange) (hs : s.Admit ε v) (hp : Follows ε s v p w) :
    (∀ r x, run s p r = some x → x.Admits ε (w r) ∧ w r ∈ x.toInterval) ∧
      ∀ t x y, Term.eval (run s p) t = .ok x → t.Yields (run s p) w ε y →
        x.Admits ε y ∧ y ∈ x.toInterval := by
  have h := hp.admit hε hs
  refine ⟨fun r x hx ↦ ⟨h r x hx, (h r x hx).mem_toInterval hε⟩, fun t x y hx hy ↦ ?_⟩
  have hxy := Term.admits_eval hε h hx hy
  exact ⟨hxy, hxy.mem_toInterval hε⟩

/-- Squaring `3 + ε₁` as a product admits and encloses the square of its value where `ε₁` is one
half. -/
theorem run_admits_square :
    ∃ x, run (fun _ ↦ some (.active ⟨.finite 3, [.finite 1], .finite 0⟩))
        [⟨true, .binary .mul (.register false) (.register false)⟩] true = some x ∧
      x.Admits (fun _ _ ↦ 1 / 2) (49 / 4 : ℚ) ∧ (49 / 4 : ℚ) ∈ x.toInterval := by
  let s : Registers Bool (Extended ℚ) :=
    fun _ ↦ some (.active ⟨.finite 3, [.finite 1], .finite 0⟩)
  have hε : Noise.InRange (fun _ _ ↦ 1 / 2 : Noise ℚ) := fun _ _ ↦ by norm_num
  have hs : s.Admit (fun _ _ ↦ 1 / 2) fun _ ↦ 7 / 2 := by
    intro r x hx
    cases hx
    exact Linear.admits_iff.mpr ⟨3, [1], rfl, rfl, by norm_num⟩
  have hp : Follows (fun _ _ ↦ 1 / 2) s (fun _ ↦ 7 / 2)
      [⟨true, .binary .mul (.register false) (.register false)⟩]
      (Function.update (fun _ ↦ 7 / 2) true (7 / 2 * (7 / 2))) :=
    .write rfl ⟨7 / 2, 7 / 2, rfl, rfl, rfl⟩ .nil
  have h := (run_admits hε hs hp).1 true _ rfl
  rw [Function.update_self, show (7 / 2 * (7 / 2) : ℚ) = 49 / 4 by norm_num] at h
  exact ⟨_, rfl, h⟩

end Run

end AffineArithmetic.Program

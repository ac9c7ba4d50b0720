import AffineArithmetic.AffineForm.Text
import AffineArithmetic.Proofs.AffineForm.Reachable
import AffineArithmetic.Proofs.Interval.Text
import AffineArithmetic.Proofs.Linear.Symmetry

/-!
# Forms told apart by their text

The text of a reachable form determines the form, bit for bit. A number ends where a character
follows that no number has: the space before a sign or the dot before a noise symbol. The sign of a
coefficient is read off the sign between the terms, also that of a zero, and the error stands behind
a sign that no coefficient has. Forms that are not linear start with a bracket.
-/

namespace AffineArithmetic

open Binary64 Scalar
open Decimal (IsNumberChar write_append_inj write_inj)

namespace Linear

variable {p q : Linear Float} {cs ds : List Float} {v w e f : Float} {r s : List Char} {i k : ℕ}

/-! ### Terms -/

-- The number that stands behind the sign of a coefficient.
private def unsigned (v : Float) : Float := if isNegative v then -v else v

private theorem isNaN_unsigned (h : v.isNaN = false) : (unsigned v).isNaN = false := by
  unfold unsigned
  split
  · rw [← Bool.not_eq_true, isNaN_iff, value_neg, Extended.neg_eq_nan, ← isNaN_iff, h]
    exact Bool.false_ne_true
  · exact h

-- A number is known from its sign and the number behind it.
private theorem unsigned_inj (hv : v.isNaN = false) (hw : w.isNaN = false)
    (hs : isNegative v = isNegative w) (h : unsigned v = unsigned w) : v = w := by
  unfold unsigned at h
  rw [hs] at h
  split at h
  · rw [← neg_neg_of_not_isNaN hv, h, neg_neg_of_not_isNaN hw]
  · exact h

private theorem writeTerm_append (v : Float) (i : ℕ) (r : List Char) : writeTerm v i ++ r =
    ' ' :: (if isNegative v then '-' else '+') :: ' ' ::
      (Decimal.write (unsigned v) ++ '·' :: 'ε' :: (Nat.toDigits 10 i ++ r)) := by
  unfold writeTerm unsigned
  split <;> simp

/-- The term of a noise symbol determines its coefficient, whatever follows. -/
theorem writeTerm_append_inj (hv : v.isNaN = false) (hw : w.isNaN = false)
    (h : writeTerm v i ++ r = writeTerm w i ++ s) : v = w ∧ r = s := by
  rw [writeTerm_append, writeTerm_append] at h
  obtain ⟨hsign, h⟩ := List.cons.inj (List.cons.inj h).2
  obtain ⟨hnumber, -, h⟩ := write_append_inj (isNaN_unsigned hv) (isNaN_unsigned hw)
    (by decide) (by decide) (List.cons.inj h).2
  have hs : isNegative v = isNegative w := by
    cases hv' : isNegative v <;> cases hw' : isNegative w <;> simp [hv', hw'] at hsign ⊢
  exact ⟨unsigned_inj hv hw hs hnumber, List.append_cancel_left (List.cons.inj h).2⟩

-- The terms from noise symbol `k` on, the error and what follows it.
private def writeFrom (k : ℕ) (cs : List Float) (e : Float) : List Char :=
  (cs.zipIdx k).flatMap (fun t ↦ writeTerm t.1 t.2) ++ " ± ".toList ++ Decimal.write e

private theorem writeFrom_nil (k : ℕ) (e : Float) :
    writeFrom k [] e = [' ', '±', ' '] ++ Decimal.write e := rfl

private theorem writeFrom_cons (k : ℕ) (c : Float) (cs : List Float) (e : Float) :
    writeFrom k (c :: cs) e = writeTerm c k ++ writeFrom (k + 1) cs e := by
  rw [writeFrom, List.zipIdx_cons, List.flatMap_cons, List.append_assoc, List.append_assoc,
    writeFrom, List.append_assoc]

-- No coefficient has the sign of the error.
private theorem writeFrom_nil_ne_cons (c : Float) :
    writeFrom k [] e ≠ writeFrom k (c :: cs) f := by
  rw [writeFrom_nil, writeFrom_cons, writeTerm_append]
  intro h
  have hsign := (List.cons.inj (List.cons.inj h).2).1
  split at hsign <;> contradiction

private theorem exists_writeFrom (k : ℕ) (cs : List Float) (e : Float) :
    ∃ t, writeFrom k cs e = ' ' :: t := by
  cases cs with
  | nil => exact ⟨_, writeFrom_nil k e⟩
  | cons c cs => exact ⟨_, (writeFrom_cons k c cs e).trans (writeTerm_append c k _)⟩

-- The terms fall apart from the front, one noise symbol after the other.
private theorem writeFrom_inj (hc : ∀ v ∈ cs, v.isNaN = false) (hd : ∀ v ∈ ds, v.isNaN = false)
    (he : e.isNaN = false) (hf : f.isNaN = false) (h : writeFrom k cs e = writeFrom k ds f) :
    cs = ds ∧ e = f := by
  induction cs generalizing ds k with
  | nil =>
    cases ds with
    | nil =>
      rw [writeFrom_nil, writeFrom_nil] at h
      exact ⟨rfl, write_inj he hf (List.append_cancel_left h)⟩
    | cons d ds => exact absurd h (writeFrom_nil_ne_cons d)
  | cons c cs ih =>
    cases ds with
    | nil => exact absurd h.symm (writeFrom_nil_ne_cons c)
    | cons d ds =>
      obtain ⟨hc, hcs⟩ := List.forall_mem_cons.mp hc
      obtain ⟨hd, hds⟩ := List.forall_mem_cons.mp hd
      rw [writeFrom_cons, writeFrom_cons] at h
      obtain ⟨rfl, hrest⟩ := writeTerm_append_inj hc hd h
      obtain ⟨rfl, rfl⟩ := ih hcs hds hrest
      exact ⟨rfl, rfl⟩

/-! ### Linear forms -/

private theorem write_eq (p : Linear Float) :
    p.write = Decimal.write p.center ++ writeFrom 1 p.coeffs p.error := by
  rw [write, writeFrom, List.append_assoc, List.append_assoc, List.append_assoc]

/-- Finite forms are told apart by their text. -/
theorem write_inj_of_isFinite (hp : p.isFinite = true) (hq : q.isFinite = true)
    (h : p.write = q.write) : p = q := by
  obtain ⟨hpe, hpc, hpcs⟩ := isFinite_iff.mp hp
  obtain ⟨hqe, hqc, hqcs⟩ := isFinite_iff.mp hq
  obtain ⟨t, ht⟩ := exists_writeFrom 1 p.coeffs p.error
  obtain ⟨u, hu⟩ := exists_writeFrom 1 q.coeffs q.error
  rw [write_eq, write_eq, ht, hu] at h
  obtain ⟨hcenter, -, htu⟩ := write_append_inj (isNaN_of_isFinite hpc) (isNaN_of_isFinite hqc)
    (by decide) (by decide) h
  rw [← htu, ← ht] at hu
  obtain ⟨hcoeffs, herror⟩ := writeFrom_inj (fun v hv ↦ isNaN_of_isFinite (hpcs v hv))
    (fun v hv ↦ isNaN_of_isFinite (hqcs v hv)) (isNaN_of_isFinite hpe) (isNaN_of_isFinite hqe)
    hu.symm
  exact Linear.ext hcenter hcoeffs herror

/-- The text of a linear form starts as a number does. -/
theorem exists_write (p : Linear Float) : ∃ c t, p.write = c :: t ∧ IsNumberChar c := by
  obtain ⟨hne, hall⟩ := Decimal.write_chars p.center
  obtain ⟨c, t, ht⟩ := List.exists_cons_of_ne_nil hne
  rw [write_eq, ht]
  exact ⟨c, _, rfl, hall c (ht ▸ List.mem_cons_self)⟩

end Linear

/-- The text of an interval starts with a bracket. -/
theorem Interval.exists_write (i : Interval Float) : ∃ t, i.write = '[' :: t := by
  unfold write
  split
  · exact ⟨_, rfl⟩
  · exact ⟨_, rfl⟩

namespace AffineForm

variable {m n : ℕ} {x y : AffineForm Float} {p : Linear Float}

/-! ### Forms -/

private theorem write_of_not_active (h : x.isActive = false) : x.write = x.toInterval.write := by
  cases x with
  | active p => contradiction
  | _ => rfl

private theorem write_linear_ne (h : x.isActive = false) : (active p).write ≠ x.write := by
  obtain ⟨c, t, ht, hc⟩ := p.exists_write
  obtain ⟨u, hu⟩ := x.toInterval.exists_write
  rw [write_of_not_active h, hu]
  intro heq
  obtain ⟨rfl, -⟩ := List.cons.inj (ht.symm.trans heq)
  revert hc
  decide

/-- Valid forms are told apart by their text. -/
theorem Valid.write_inj (hx : Valid x) (hy : Valid y) (h : x.write = y.write) : x = y := by
  cases hxa : x.isActive with
  | true =>
    obtain ⟨p, rfl, -⟩ := (active_or_not x true).resolve_right (by simp [hxa])
    cases hya : y.isActive with
    | true =>
      obtain ⟨q, rfl, -⟩ := (active_or_not y true).resolve_right (by simp [hya])
      exact congrArg active (Linear.write_inj_of_isFinite hx.1 hy.1 h)
    | false => exact absurd h (write_linear_ne hya)
  | false =>
    cases hya : y.isActive with
    | true =>
      obtain ⟨q, rfl, -⟩ := (active_or_not y true).resolve_right (by simp [hya])
      exact absurd h.symm (write_linear_ne hxa)
    | false =>
      rw [write_of_not_active hxa, write_of_not_active hya] at h
      have hinterval := (isProper_toInterval x).write_inj (isProper_toInterval y) h
      rw [← hx.ofInterval_toInterval hxa, hinterval, hy.ofInterval_toInterval hya]

/-- Reachable forms with the same text are the same form: of one kind, over the same number of noise
symbols, with the same entries and error or the same bound, bit for bit. -/
theorem reachable_toText_inj (hx : Reachable m x) (hy : Reachable n y) :
    x.toText = y.toText ↔ x = y := by
  constructor
  · intro h
    have hwrite : x.write = y.write := by
      rw [← String.toList_ofList (l := x.write), ← toText, h, toText, String.toList_ofList]
    exact hx.valid.write_inj hy.valid hwrite
  · exact congrArg toText

/-- Two forms that agree but for the sign of a coefficient 0 have different texts. -/
theorem toText_ne_of_negative_zero :
    let x : AffineForm Float := onSymbol 1 1 (.ofBounds 1 1)
    let y : AffineForm Float := (-x).update { shift := some 2 }
    Reachable 2 x ∧ Reachable 2 y ∧ x = active ⟨1, [0], 0⟩ ∧ y = active ⟨1, [-0.0], 0⟩ ∧
      x.toText ≠ y.toText := by
  intro x y
  have hx : Reachable 2 x := .onSymbol (by decide) (by decide) (.ofBounds 1 1)
  have hy : Reachable 2 y := .update (.neg hx) { shift := some 2 } nofun
  have hne : x ≠ y := by decide +kernel
  exact ⟨hx, hy, by decide +kernel, by decide +kernel, (reachable_toText_inj hx hy).not.mpr hne⟩

end AffineForm
end AffineArithmetic

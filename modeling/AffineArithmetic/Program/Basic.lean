import AffineArithmetic.AffineForm.Operators
import AffineArithmetic.AffineForm.Symbol

/-!
# Straight-line programs

Sequences of assignments to registers that hold affine forms. The right-hand sides are the
operations of the library on registers, scalars and intervals. An assignment that fails leaves all
registers as they are.
-/

namespace AffineArithmetic.Program

/-- A binary operation. -/
inductive Op where
  | add
  | sub
  | mul
deriving DecidableEq

/-- An interval, or the interval that the form in a register encloses. -/
inductive IntervalTerm (ι α : Type) where
  | interval (i : Interval α)
  | register (r : ι)

/-- An operand of a binary operation. -/
inductive Operand (ι α : Type) where
  | scalar (d : α)
  | interval (i : IntervalTerm ι α)
  | register (r : ι)

/-- The right-hand side of an assignment. -/
inductive Term (ι α : Type) where
  /-- The form of a scalar. -/
  | scalar (d : α)
  /-- The form of an interval. -/
  | interval (i : IntervalTerm ι α)
  /-- A form on a noise symbol, whose position is promised to be in range. -/
  | symbol (size position : Nat) (i : IntervalTerm ι α)
  /-- A form on a noise symbol, if its position is in range. -/
  | checkedSymbol (size position : Nat) (i : IntervalTerm ι α)
  /-- The form in a register. -/
  | register (r : ι)
  /-- The opposite of the form in a register. -/
  | neg (r : ι)
  /-- The square of the form in a register. -/
  | sqr (r : ι)
  /-- A power of the form in a register. -/
  | pow (r : ι) (n : Nat)
  /-- A binary operation with a form as one operand at least. -/
  | binary (op : Op) (a b : Operand ι α)
  /-- A linear update of the form in register `r`, with the added form in another one. -/
  | update (r : ι) (scale : Option α) (add : Option ι) (shift widen : Option α)

/-- The value of a term goes to a register. -/
structure Assignment (ι α : Type) where
  target : ι
  term : Term ι α

/-- The forms in the registers; registers that were never assigned are unset. -/
abbrev Registers (ι α : Type) : Type := ι → Option (AffineForm α)

/-- Why an assignment has no effect. -/
inductive Failure (ι : Type) where
  /-- The register was never assigned. -/
  | unset (r : ι)
  /-- Neither operand of a binary operation is a form. -/
  | noForm
  /-- A checked operation reported a fault. -/
  | fault (f : Fault)
  /-- A promise about a position was broken. -/
  | breach (b : Breach)
deriving DecidableEq

variable {ι α : Type} [Scalar α]

/-- No register is set. -/
def Registers.unset : Registers ι α := fun _ ↦ none

/-- The registers after a form was written to one of them. -/
def Registers.write [DecidableEq ι] (s : Registers ι α) (r : ι) (x : AffineForm α) :
    Registers ι α :=
  fun q ↦ if q = r then some x else s q

/-- The form in a register. -/
def Registers.read (s : Registers ι α) (r : ι) : Except (Failure ι) (AffineForm α) :=
  match s r with
  | some x => .ok x
  | none => .error (.unset r)

/-- A value of an operand. -/
inductive Value (α : Type) where
  | scalar (d : α)
  | interval (i : Interval α)
  | form (x : AffineForm α)

/-- The result of an operation where one operand at least is a form. -/
def Op.onForms? (op : Op) : Value α → Value α → Option (AffineForm α)
  | .form x, .form y =>
    some (match op with | add => x + y | sub => x - y | mul => x * y)
  | .form x, .scalar d =>
    some (match op with | add => x + d | sub => x - d | mul => x * d)
  | .form x, .interval i =>
    some (match op with | add => x + i | sub => x - i | mul => x * i)
  | .scalar d, .form y =>
    some (match op with | add => d + y | sub => d - y | mul => d * y)
  | .interval i, .form y =>
    some (match op with | add => i + y | sub => i - y | mul => i * y)
  | _, _ => none

/-- The result of an operation on intervals and scalars where one operand at least is an
interval. -/
def Op.onIntervals? (op : Op) : Value α → Value α → Option (Interval α)
  | .interval i, .interval j =>
    some (match op with | add => i + j | sub => i - j | mul => i * j)
  | .interval i, .scalar d =>
    some (match op with | add => i + d | sub => i - d | mul => i * d)
  | .scalar d, .interval i =>
    some (match op with | add => d + i | sub => d - i | mul => d * i)
  | _, _ => none

/-- The interval of a term. -/
def IntervalTerm.eval (s : Registers ι α) : IntervalTerm ι α → Except (Failure ι) (Interval α)
  | interval i => .ok i
  | register r => (s.read r).map AffineForm.toInterval

/-- The value of an operand. -/
def Operand.eval (s : Registers ι α) : Operand ι α → Except (Failure ι) (Value α)
  | scalar d => .ok (.scalar d)
  | interval i => (i.eval s).map .interval
  | register r => (s.read r).map .form

/-- The form of a term. -/
def Term.eval (s : Registers ι α) : Term ι α → Except (Failure ι) (AffineForm α)
  | scalar d => .ok (.ofScalar d)
  | interval i => (i.eval s).map .ofInterval
  | symbol size position i => do
    ((AffineForm.withSymbol size position (← i.eval s)).mapError .breach)
  | checkedSymbol size position i => do
    ((AffineForm.withSymbol? size position (← i.eval s)).mapError .fault)
  | register r => s.read r
  | neg r => (s.read r).map (- ·)
  | sqr r => (s.read r).map AffineForm.sqr
  | pow r n => (s.read r).map (·.pow n)
  | binary op a b => do
    let a ← a.eval s
    let b ← b.eval s
    match op.onForms? a b with
    | some x => .ok x
    | none => .error .noForm
  | update r scale add shift widen => do
    let x ← s.read r
    let y ← add.mapM s.read
    .ok (x.update { scale, add := y, shift, widen })

/-- One assignment: the registers afterwards and the written form, or the reason why nothing was
written. -/
def Assignment.run [DecidableEq ι] (s : Registers ι α) (a : Assignment ι α) :
    Registers ι α × Except (Failure ι) (AffineForm α) :=
  match a.term.eval s with
  | .ok x => (s.write a.target x, .ok x)
  | .error f => (s, .error f)

/-- The registers after a sequence of assignments. -/
def run [DecidableEq ι] (s : Registers ι α) (p : List (Assignment ι α)) : Registers ι α :=
  p.foldl (fun s a ↦ (a.run s).1) s

end AffineArithmetic.Program

import AffineArithmetic.AffineForm.Value
import AffineArithmetic.Program.Basic

/-!
# The values of a program

The true result of a straight-line program over exact numbers, beside its run on affine forms. An
interval operand stands for any of its points, and widening for any shift up to its size; all other
operations have one result.
-/

namespace AffineArithmetic.Program

variable {ι K : Type} [Field K] [LinearOrder K]

/-- The operation on field elements. -/
def Op.exact : Op → K → K → K
  | add => (· + ·)
  | sub => (· - ·)
  | mul => (· * ·)

/-- The number is a point of the interval. -/
def IntervalTerm.Holds (s : Registers ι (Extended K)) (t : IntervalTerm ι (Extended K)) (x : K) :
    Prop :=
  ∃ i, t.eval s = .ok i ∧ x ∈ i

/-- The number is a value of the operand where the registers have the values `v`. -/
def Operand.Holds (s : Registers ι (Extended K)) (v : ι → K) :
    Operand ι (Extended K) → K → Prop
  | scalar d, x => d = .finite x
  | interval i, x => i.Holds s x
  | register r, x => x = v r

/-- The number is what an optional finite scalar stands for, and `absent` without one. -/
def Holds? (absent : K) : Option (Extended K) → K → Prop
  | none, x => x = absent
  | some d, x => d = .finite x

/-- The number is a true result of the term where the registers have the values `v` and the noise
symbols the values `ε`. -/
def Term.Yields (s : Registers ι (Extended K)) (v : ι → K) (ε : Noise K) :
    Term ι (Extended K) → K → Prop
  | scalar d, x => d = .finite x
  | interval i, x => i.Holds s x
  | symbol size position i, x =>
    ∃ f, (symbol size position i).eval s = .ok f ∧ f.Admits ε x
  | checkedSymbol size position i, x =>
    ∃ f, (checkedSymbol size position i).eval s = .ok f ∧ f.Admits ε x
  | register r, x => x = v r
  | neg r, x => x = -v r
  | sqr r, x => x = v r ^ 2
  | pow r n, x => x = v r ^ n
  | binary op a b, x => ∃ y z, a.Holds s v y ∧ b.Holds s v z ∧ x = op.exact y z
  | update r scale add shift widen, x =>
    ∃ a b d t, Holds? 1 scale a ∧ Holds? 0 shift b ∧ Holds? 0 widen d ∧ |t| ≤ |d| ∧
      x = a * v r + add.elim 0 v + b + t

/-- Every set register admits its value. -/
def Registers.Admit (s : Registers ι (Extended K)) (ε : Noise K) (v : ι → K) : Prop :=
  ∀ r x, s r = some x → x.Admits ε (v r)

/-- Running the assignments turns the values `v` into the values `w`: every assignment that does not
fail gives its target a true result of its term. -/
inductive Follows [DecidableEq ι] (ε : Noise K) : Registers ι (Extended K) → (ι → K) →
    List (Assignment ι (Extended K)) → (ι → K) → Prop
  | nil {s : Registers ι (Extended K)} {v : ι → K} : Follows ε s v [] v
  | write {s : Registers ι (Extended K)} {a : Assignment ι (Extended K)}
      {p : List (Assignment ι (Extended K))} {x : AffineForm (Extended K)} {v w : ι → K} {y : K}
      (hx : a.term.eval s = .ok x) (hy : a.term.Yields s v ε y)
      (hp : Follows ε (s.write a.target x) (Function.update v a.target y) p w) :
      Follows ε s v (a :: p) w
  | fail {s : Registers ι (Extended K)} {a : Assignment ι (Extended K)}
      {p : List (Assignment ι (Extended K))} {f : Failure ι} {v w : ι → K}
      (hf : a.term.eval s = .error f) (hp : Follows ε s v p w) : Follows ε s v (a :: p) w

end AffineArithmetic.Program

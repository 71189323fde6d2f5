import LazyTensor.SymInt.Variable
import LazyTensor.Width

/-!
Symbolic integers: constants, and integer polynomials in canonical form.

A polynomial lists its monomials in increasing order, without repetition and without zero
coefficients, each monomial listing its variables in increasing order. A polynomial with no variable
is a constant, so equal expressions are equal values.
-/

namespace LazyTensor

abbrev Monomial := List SymVar

abbrev Term := Monomial × Int

inductive SymInt where
  | const (c : Int)
  | poly (terms : List Term)
  deriving DecidableEq, Repr

namespace Monomial

def cmp : Monomial → Monomial → Ordering := compareLists SymVar.cmp

def sorted (vs : List SymVar) : Monomial := sortBy (fun a b => SymVar.cmp a b != .gt) vs

def mul (a b : Monomial) : Monomial := sorted (a ++ b)

end Monomial

namespace SymInt

instance : Inhabited SymInt := ⟨.const 0⟩

instance : OfNat SymInt n := ⟨.const n⟩

instance : Coe Int SymInt := ⟨.const⟩

section

variable [Width]

def ofInt (n : Int) : SymInt := .const (Width.wrap n)

/-- Adds `c` times a monomial to a list of terms in increasing order. -/
def addTerm (m : Monomial) (c : Int) : List Term → List Term
  | [] => [(m, c)]
  | (m', c') :: rest =>
    match Monomial.cmp m m' with
    | .lt => (m, c) :: (m', c') :: rest
    | .eq => (m', Width.wrap (c' + c)) :: rest
    | .gt => (m', c') :: addTerm m c rest

def addTerms (new old : List Term) : List Term :=
  new.foldl (fun acc t => addTerm t.1 t.2 acc) old

end

def ofTerms (ts : List Term) : SymInt :=
  match ts.filter (·.2 ≠ 0) with
  | [] => .const 0
  | [([], c)] => .const c
  | kept => .poly kept

/-- The terms of a symbolic integer; a constant has one, without variables. -/
def terms : SymInt → List Term
  | const c => [([], c)]
  | poly ts => ts

def var (v : SymVar) : SymInt := .poly [([v], 1)]

def asConst? : SymInt → Option Int
  | const c => some c
  | poly _ => none

def isConst : SymInt → Bool
  | const _ => true
  | poly _ => false

def cmp : SymInt → SymInt → Ordering
  | const a, const b => compare a b
  | const _, poly _ => .lt
  | poly _, const _ => .gt
  | poly a, poly b => compareLists (fun s t => (Monomial.cmp s.1 t.1).then (compare s.2 t.2)) a b

variable [Width]

def add : SymInt → SymInt → SymInt
  | const a, const b => .const (Width.wrap (a + b))
  | a, b => ofTerms (addTerms b.terms a.terms)

def mulTerms (as bs : List Term) : List Term :=
  as.foldl (fun acc s =>
    bs.foldl (fun acc t => addTerm (s.1.mul t.1) (Width.wrap (s.2 * t.2)) acc) acc) []

def mul : SymInt → SymInt → SymInt
  | const a, const b => .const (Width.wrap (a * b))
  | a, b => ofTerms (mulTerms a.terms b.terms)

instance : Add SymInt := ⟨add⟩

instance : Mul SymInt := ⟨mul⟩

instance : Neg SymInt := ⟨fun a => a * const (-1)⟩

instance : Sub SymInt := ⟨fun a b => a + -b⟩

def prod (xs : List SymInt) : SymInt := xs.foldl (· * ·) 1

end SymInt

end LazyTensor

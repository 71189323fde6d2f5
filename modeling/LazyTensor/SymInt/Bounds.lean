import LazyTensor.SymInt.Basic

/-!
Bounds of symbolic integers over all values of their variables, and the comparisons they decide.
-/

namespace LazyTensor.SymInt

variable [Width]

def mulRange (r : Int × Int) (v : SymVar) : Int × Int :=
  let a := Width.clamp (r.1 * v.min)
  let b := Width.clamp (r.1 * v.max)
  let c := Width.clamp (r.2 * v.min)
  let d := Width.clamp (r.2 * v.max)
  (min (min a b) (min c d), max (max a b) (max c d))

def monomialRange (m : Monomial) : Int × Int := m.foldl mulRange (1, 1)

def addRange (r : Int × Int) (t : Term) : Int × Int :=
  let m := monomialRange t.1
  let a := Width.clamp (m.1 * t.2)
  let b := Width.clamp (m.2 * t.2)
  (Width.clamp (r.1 + min a b), Width.clamp (r.2 + max a b))

def bounds (x : SymInt) : Int × Int := x.terms.foldl addRange (0, 0)

def lower (x : SymInt) : Int := x.bounds.1

def upper (x : SymInt) : Int := x.bounds.2

/-- Whether `a < b` for all values of the variables, or for none; `none` if neither is known. -/
def lt? (a b : SymInt) : Option Bool :=
  let d := a - b
  if d.upper < 0 then some true else if 0 ≤ d.lower then some false else none

def max? (a b : SymInt) : Option SymInt := (lt? a b).map fun less => if less then b else a

def min? (a b : SymInt) : Option SymInt := (lt? a b).map fun less => if less then a else b

end LazyTensor.SymInt

import LazyTensor.SymInt.Basic

/-!
Substitution of values for variables, removal of bound values, and exact division.
-/

namespace LazyTensor

/-- Values found for unbound variables, in increasing order of the variables. -/
abbrev Bindings := List (SymVar × Int)

namespace SymInt

def dividesAll (d : Int) (ts : List Term) : Bool := ts.all fun t => t.2.tmod d == 0

def divExact? (x : SymInt) (d : Int) : Option SymInt :=
  if d = 0 then none
  else if dividesAll d x.terms then some (ofTerms (x.terms.map fun t => (t.1, t.2.tdiv d)))
  else none

def vars : SymInt → List SymVar
  | const _ => []
  | poly ts => ts.foldl (fun acc t => insertElems SymVar.cmp t.1 acc) []

variable [Width]

def substTerm (f : SymVar → Option Int) (t : Term) : Term :=
  t.1.foldr (fun v acc =>
    match f v with
    | some x => (acc.1, Width.wrap (acc.2 * x))
    | none => (v :: acc.1, acc.2)) ([], t.2)

def subst (f : SymVar → Option Int) : SymInt → SymInt
  | const c => .const c
  | poly ts => ofTerms (addTerms (ts.map (substTerm f)) [])

/-- The value under the values that the variables are bound to. -/
def evalBound? (x : SymInt) : Option Int := (x.subst SymVar.value).asConst?

/-- The value under bindings by name; a variable without one falls back on its own value. -/
def eval? (env : String → Option Int) (x : SymInt) : Option Int :=
  (x.subst fun v => (env v.name).or v.value).asConst?

def monomialBindings (m : Monomial) : Bindings :=
  m.filterMap fun v => v.value.map fun x => (v.unbound, x)

def unbind : SymInt → SymInt × Bindings
  | const c => (.const c, [])
  | poly ts =>
    (ofTerms (addTerms (ts.map fun t => (Monomial.sorted (t.1.map SymVar.unbound), t.2)) []),
      ts.foldl (fun acc t => insertKeys SymVar.cmp (monomialBindings t.1) acc) [])

end SymInt

end LazyTensor

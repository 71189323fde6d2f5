import LazyTensor.Kernel.Error
import LazyTensor.Graph.Basic

/-!
Scopes: the loops and branches, outermost first, in which each node has to stand.

A node stands in the innermost of the scopes of its sources, and reading a loop counter or a branch
places the reader inside it. All loops form one nest, global loops outside. The final value of an
accumulator is available outside its loops, and the update that feeds it is pinned inside the
innermost of them.
-/

namespace LazyTensor

/-- Scopes from the outermost inwards. -/
abbrev Chain := List Ref

def Graph.gatedStore? (g : Graph) (r : Ref) : Option (Ref × Ref × Ref × Ref) :=
  match g.op r with
  | .store buffer index value (some cond) =>
    if g.dtype cond = .bool then some (buffer, index, value, cond) else none
  | _ => none

/-- Puts a gated store under a branch, which waits for everything else that the store reads. -/
def Graph.branchStore (g : Graph) (waits : List (Ref × List Ref)) (r : Ref) :
    Graph × List (Ref × List Ref) :=
  match g.gatedStore? r with
  | none => (g, waits)
  | some (buffer, index, value, cond) =>
    let (branch, g) := g.insert ⟨.branch cond, .void⟩
    (g.replace r ⟨.store buffer index value (some branch), .void⟩,
      insertKey compare branch [buffer, index, value] waits)

def Graph.insertBranches (g : Graph) (sink : Ref) : Graph × List (Ref × List Ref) :=
  (g.order sink).foldl (fun (g, waits) r => g.branchStore waits r) (g, [])

structure Scopes where
  chains : List (Ref × Chain) := []
  waits : List (Ref × List Ref) := []
  nest : List Ref := []
  /-- Updates of accumulators and the loop each has to stand in. -/
  pinned : List (Ref × Ref) := []

namespace Scopes

def chainOf (s : Scopes) (r : Ref) : Chain := (s.chains.lookup r).getD []

def waitsOf (s : Scopes) (r : Ref) : List Ref := (s.waits.lookup r).getD []

def loopAxis? (g : Graph) (r : Ref) : Option (LoopAxis × Ref) :=
  match g.op r with
  | .loop _ _ axis => some (axis, r)
  | _ => none

def loopLe (a b : LoopAxis × Ref) : Bool := if a.1 = b.1 then a.2 ≤ b.2 else a.1.le b.1

def nestOf (g : Graph) (order : List Ref) : List Ref :=
  (sortBy loopLe (order.filterMap (loopAxis? g))).map (·.2)

def depthIn (nest : List Ref) (r : Ref) : Nat := (nest.idxOf? r).elim 0 (· + 1)

def staysPut : Op → Bool
  | .const _ | .defineAcc .. => true
  | _ => false

/-- The update behind a final value, and the innermost of its loops. -/
def pin? (g : Graph) (nest : List Ref) (r : Ref) : Option (Ref × Ref) :=
  match g.op r with
  | .phi _ value loops =>
    if staysPut (g.op value) then none
    else (lastMax? (depthIn nest) loops).map fun inner => (value, inner)
  | _ => none

def innerChain (g : Graph) (s : Scopes) (r : Ref) : Chain :=
  if (g.op r).opensScope then s.chainOf r ++ [r] else s.chainOf r

/-- The longer of two chains, one of which has to continue the other. -/
def join (node : Ref) (a b : Chain) : Except CompileError Chain :=
  if a.length < b.length then
    if a.isPrefixOf b then .ok b else .error (.scopeConflict node)
  else if b.isPrefixOf a then .ok a else .error (.scopeConflict node)

def merged (g : Graph) (s : Scopes) (r : Ref) : Except CompileError Chain :=
  let sources := g.sources r ++ s.waitsOf r ++ (s.pinned.lookup r).toList
  sources.foldlM (fun chain src => join r chain (innerChain g s src)) []

def loopChain (g : Graph) (s : Scopes) (r : Ref) : Except CompileError Chain := do
  let chain ← merged g s r
  let outer := s.nest.takeWhile (· != r)
  if chain.isPrefixOf outer then return outer else throw (.scopeConflict r)

/-- The scopes of a final value end before the first of its loops. -/
def phiChain (g : Graph) (s : Scopes) (r : Ref) (loops : List Ref) : Except CompileError Chain := do
  let chain ← merged g s r
  return match loops.head? with
    | some first => chain.takeWhile (· != first)
    | none => chain

/-- An accumulator stands outside the outermost of its loops. -/
def accChain (s : Scopes) (loops : List Ref) : Chain :=
  (firstMin? List.length (loops.filterMap fun l => s.chains.lookup l)).getD []

def chainFor (g : Graph) (s : Scopes) (r : Ref) : Except CompileError Chain :=
  match g.op r with
  | .sink _ => .ok []
  | .defineAcc _ _ loops => .ok (s.accChain loops)
  | .loop .. => s.loopChain g r
  | .phi _ _ loops => s.phiChain g r loops
  | _ => s.merged g r

def place (g : Graph) (s : Scopes) (r : Ref) : Except CompileError Scopes := do
  return { s with chains := insertKey compare r (← s.chainFor g r) s.chains }

def ofGraph (g : Graph) (sink : Ref) (waits : List (Ref × List Ref)) : Except CompileError Scopes :=
  let order := g.order sink
  let nest := nestOf g order
  let pinned := insertKeys compare (order.filterMap (pin? g nest)) []
  order.foldlM (place g) { waits, nest, pinned }

end Scopes

end LazyTensor

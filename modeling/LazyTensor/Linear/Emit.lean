import LazyTensor.Linear.Check
import LazyTensor.Linear.Scope

/-!
Putting a graph into a list.

A node is ready when everything it waits for has been emitted. Of the ready nodes whose scopes are
the open ones, the one with the least rank goes next. A scope is closed as soon as nothing in it is
left. A load that nothing deeper needs comes after the loops beside it, and an accumulator directly
before the outermost of its loops.
-/

namespace LazyTensor

inductive Entry where
  | node (r : Ref)
  | close (scope : Ref)
  deriving DecidableEq

namespace Emit

/-- What has to be emitted before a node. An accumulator comes before the loops it names. -/
def dependencies (g : Graph) (s : Scopes) (r : Ref) : List Ref :=
  match g.op r with
  | .defineAcc .. => []
  | _ => g.sources r ++ s.waitsOf r

structure Pending where
  node : Ref
  chain : Chain
  needs : List Ref

namespace Pending

def make (g : Graph) (s : Scopes) (r : Ref) : Pending := ⟨r, s.chainOf r, dependencies g s r⟩

/-- Whether a node feeds a deeper scope, given which of the others do. -/
def feedsDeeper (all : List Pending) (known : List Ref) (w : Pending) : Bool :=
  all.any fun d => d.needs.contains w.node &&
    (w.chain.length < d.chain.length || (d.chain == w.chain && known.contains d.node))

/-- The nodes that something in a deeper scope depends on, where `all` lists readers last. -/
def deeper (all : List Pending) : List Ref :=
  all.foldr (fun w known => if feedsDeeper all known w then w.node :: known else known) []

end Pending

/-- The rank of a node among ready ones: its class, an argument as a signed word, its hash, and its
number. A load comes early if something deeper depends on it. -/
def rank (g : Graph) (deeper : List Ref) (hash : Ref → Nat) (r : Ref) : List Int :=
  let word := fun (n : Nat) => wrapSigned 64 n
  let first : List Int := match g.op r with
    | .defineGlobal slot => [-20, word slot]
    | .defineVar _ => [-19]
    | .defineLocal _ size => [-18, word size]
    | .defineAcc slot _ _ => [-17, word slot]
    | .const _ => [-10]
    | .special axis _ => [-8, word axis]
    | .load .. => [if deeper.contains r then -1 else 6]
    | .store .. => [1]
    | .branch _ => [4]
    | .loop _ _ axis => [5, word axis.axis]
    | _ => [0]
  first ++ [(hash r : Int), (r : Int)]

def ranked (g : Graph) (hash : Ref → Nat) (all : List Pending) : List Pending :=
  let deeper := Pending.deeper all
  let keyed := all.map fun w => (rank g deeper hash w.node, w)
  (sortBy (fun a b => compareLists compare a.1 b.1 != .gt) keyed).map (·.2)

def isAccumulator (g : Graph) (r : Ref) : Bool :=
  match g.op r with
  | .defineAcc _ _ loops => !loops.isEmpty
  | _ => false

def outermostLoop? (g : Graph) (s : Scopes) (r : Ref) : Option Ref :=
  match g.op r with
  | .defineAcc _ _ loops => firstMin? (fun l => (s.chainOf l).length) loops
  | _ => none

structure State where
  pending : List Pending
  scopes : List Ref := []
  entries : List Entry := []

namespace State

/-- The node of least rank that waits for nothing and whose scopes are the open ones. -/
def next? (g : Graph) (s : State) : Option Ref :=
  let here := s.scopes.reverse
  (s.pending.find? fun w => w.needs.isEmpty && !isAccumulator g w.node && w.chain == here).map
    (·.node)

def emit (g : Graph) (s : State) (r : Ref) : State where
  pending := (s.pending.filter (·.node != r)).map fun w =>
    { w with needs := w.needs.filter (· != r) }
  entries := .node r :: s.entries
  scopes := if (g.op r).opensScope then r :: s.scopes else s.scopes

def isBusy (s : State) (scope : Ref) : Bool := s.pending.any (·.chain.contains scope)

def closeFrom (busy : Ref → Bool) : List Ref → List Entry → List Ref × List Entry
  | [], entries => ([], entries)
  | scope :: outer, entries =>
    if busy scope then (scope :: outer, entries)
    else closeFrom busy outer (.close scope :: entries)

def closeFinished (s : State) : State :=
  let (scopes, entries) := closeFrom s.isBusy s.scopes s.entries
  { s with scopes, entries }

def step (g : Graph) (scopes : Scopes) (s : State) (r : Ref) : State :=
  let accs := (s.pending.map (·.node)).filter fun a => outermostLoop? g scopes a = some r
  ((accs.foldl (emit g) s).emit g r).closeFinished

/-- Emits until all nodes are out; `steps` bounds how many are left. -/
def run (g : Graph) (scopes : Scopes) : (steps : Nat) → State → Except CompileError State
  | 0, s => .ok s
  | steps + 1, s =>
    if s.pending.isEmpty then .ok s
    else
      match s.next? g with
      | none => .error (.stalled s.pending.length)
      | some r => run g scopes steps (s.step g scopes r)

end State

def entries (g : Graph) (hash : Ref → Nat) (sink : Ref) (s : Scopes) :
    Except CompileError (List Entry) := do
  let all := ((g.order sink).filter (· != sink)).map (Pending.make g s)
  let last ← State.run g s all.length { pending := ranked g hash all }
  return (Entry.node sink :: last.entries).reverse

/-- The position of a node among entries; a node that is not there keeps its number. -/
def positionIn (g : Graph) (es : List Entry) (r : Ref) : Ref :=
  (es.idxOf? (.node (g.resolve r))).getD r

def instr (g : Graph) (es : List Entry) : Entry → Instr
  | .node r =>
    let n := g.get r
    { n with op := n.op.mapSources (positionIn g es) }
  | .close scope =>
    match g.op scope with
    | .branch _ => ⟨.endBranch (positionIn g es scope), .void⟩
    | _ => ⟨.endLoop (positionIn g es scope), .void⟩

end Emit

/-- Hashes for the nodes of a graph, which order those of equal class and argument. Any will do. -/
abbrev NodeHash := Graph → Ref → Nat

/-- The instruction list of a graph: sources are earlier positions, scopes have end markers, and the
sink comes last. -/
def linearize (g : Graph) (sink : Ref) (hash : NodeHash := fun _ _ => 0) :
    Except CompileError (Array Instr) := do
  let sink := g.resolve sink
  match g.op sink with
  | .sink _ =>
    let (g, waits) := g.insertBranches sink
    let scopes ← Scopes.ofGraph g sink waits
    let es ← Emit.entries g (hash g) sink scopes
    let is := (es.map (Emit.instr g es)).toArray
    verifyOrder is
    return is
  | _ => throw .missingSink

end LazyTensor

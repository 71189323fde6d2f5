import LazyTensor.Error
import LazyTensor.Graph.Op
import LazyTensor.Traversal

/-!
Instruction graphs without duplicates.

Nodes are added by contents: adding what is already there gives the existing node. A node can be
overwritten in place. If its new contents already exist, the slot is given up and every reference to
it leads to the existing node; `resolve` follows such references.
-/

namespace LazyTensor

structure Graph where
  nodes : Array Instr := #[]
  /-- The slot that stands for each slot: itself unless it was given up. -/
  home : Array Ref := #[]
  deriving DecidableEq

namespace Graph

def size (g : Graph) : Nat := g.nodes.size

def resolve (g : Graph) (r : Ref) : Ref := g.home.getD r r

def Holds (g : Graph) (i : Ref) (n : Instr) : Prop := g.home[i]? = some i ∧ g.nodes[i]? = some n

instance (g : Graph) (i : Ref) (n : Instr) : Decidable (g.Holds i n) :=
  inferInstanceAs (Decidable (_ ∧ _))

def findBelow (g : Graph) (n : Instr) (skip : Option Ref) : (bound : Nat) → Option Ref
  | 0 => none
  | i + 1 => if some i ≠ skip ∧ g.Holds i n then some i else findBelow g n skip i

def find? (g : Graph) (n : Instr) : Option Ref := g.findBelow n none g.size

def resolved (g : Graph) (n : Instr) : Instr := { n with op := n.op.mapSources g.resolve }

def insert (g : Graph) (n : Instr) : Ref × Graph :=
  let n := g.resolved n
  match g.find? n with
  | some i => (i, g)
  | none => (g.size, { nodes := g.nodes.push n, home := g.home.push g.size })

def replace (g : Graph) (r : Ref) (n : Instr) : Graph :=
  let i := g.resolve r
  let n := g.resolved n
  let home := match g.findBelow n (some i) g.size with
    | some j => g.home.map fun h => if h = i then j else h
    | none => g.home
  { nodes := g.nodes.setIfInBounds i n, home }

def noop : Instr := ⟨.noop, .void⟩

def get (g : Graph) (r : Ref) : Instr := g.nodes.getD (g.resolve r) noop

def op (g : Graph) (r : Ref) : Op := (g.get r).op

def dtype (g : Graph) (r : Ref) : DType := (g.get r).dtype

def const? (g : Graph) (r : Ref) : Option Value := (g.get r).const?

def sources (g : Graph) (r : Ref) : List Ref := (g.op r).sources.map g.resolve

/-- The nodes reachable from `root`, each once and after its sources. -/
def order (g : Graph) (root : Ref) : List Ref := postorder g.sources g.size (g.resolve root)

/-- The order as a loop over a stack gives it. -/
def toposort (g : Graph) (root : Ref) : List Ref :=
  (Walk.drain g.sources g.size {} [(g.resolve root, false)]).finished.reverse

def dependsOn (g : Graph) (node target : Ref) : Bool := (g.order node).contains (g.resolve target)

def readers (g : Graph) (order : List Ref) (r : Ref) : List Ref :=
  order.filter fun n => (g.sources n).contains r

def consumers (g : Graph) (root : Ref) : List (Ref × List Ref) :=
  let order := g.order root
  (order.filter fun r => !(g.readers order r).isEmpty).map fun r => (r, g.readers order r)

/-- Adds copies of the nodes under `root` of another graph, and says where each went. -/
def copyFrom (g source : Graph) (root : Ref) : Graph × List (Ref × Ref) :=
  (source.order root).foldl (fun (g, places) r =>
    let n := source.get r
    let moved := n.op.mapSources fun s => (places.lookup (source.resolve s)).getD s
    let (i, g) := g.insert { n with op := moved }
    (g, (r, i) :: places)) (g, [])

def placeOf (source : Graph) (places : List (Ref × Ref)) (r : Ref) : Ref :=
  (places.lookup (source.resolve r)).getD r

/-- A graph of only the nodes under `root`, numbered in their order. -/
def prune (g : Graph) (root : Ref) : Graph × Ref :=
  let (pruned, places) := copyFrom {} g root
  (pruned, placeOf g places root)

/-- Whether two nodes, possibly of different graphs, stand for the same expression. -/
def sameExpr (g : Graph) (a : Ref) (h : Graph) (b : Ref) : Bool :=
  let (merged, left) := copyFrom {} g a
  let (_, right) := copyFrom merged h b
  placeOf g left a == placeOf h right b

/-- The nodes under `root` in order, with sources numbered by their position in it. -/
def numbered (g : Graph) (root : Ref) : List Instr :=
  let order := g.order root
  order.map fun r =>
    let n := g.get r
    { n with op := n.op.mapSources fun s => order.idxOf (g.resolve s) }

def listing (g : Graph) (root : Ref) : String :=
  String.join ((g.order root).map fun r => Instr.line r (g.get r) (g.sources r))

end Graph

def instrListing (is : List Instr) : String :=
  String.join (is.zipIdx.map fun (i, p) => Instr.line p i i.op.sources)

abbrev GraphM := StateM Graph

/-- Work on a graph that may fail; nodes added before the failure stay. -/
abbrev Build := ExceptT BuildError GraphM

/-- Work on a graph that may come to nothing; nodes added on the way stay. -/
abbrev Attempt := OptionT GraphM

namespace Build

def ofResult {α : Type} : Except BuildError α → Attempt α
  | .ok a => pure a
  | .error _ => failure

def toAttempt {α : Type} (b : Build α) : Attempt α := do ofResult (← (b.run : GraphM _))

end Build

end LazyTensor

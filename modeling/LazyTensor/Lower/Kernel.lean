import LazyTensor.Lower.Frame

/-!
From an operation tree to an instruction graph.

The kernel runs over its output shape with loops, or once per element. A reduction adds a loop for
every reduced axis inside those, an accumulator that starts at the identity, and a node for its
final value. A masked load or store is gated.
-/

namespace LazyTensor

structure LoweredKernel where
  graph : Graph
  sink : Ref
  globals : List GlobalArg
  outputShape : Shape
  fullShape : Shape
  reduceAxes : List Nat

namespace Lower

/-- A subtree, and whether it stands inside a reduction. -/
structure Site where
  place : Nat
  reducing : Bool
  deriving DecidableEq

/-- The sites that a site reads; of several, the last is lowered first. -/
def Site.reads (e : Expr) (s : Site) : List Site :=
  let op := (e.node s.place).op
  op.sources.reverse.map fun i => ⟨i, s.reducing || op.isReduce⟩

structure State where
  graph : Graph := {}
  done : List (Site × Ref) := []
  accumulators : Nat := 0

abbrev LowerM := ExceptT CompileError (StateM State)

def building {α : Type} (b : Build α) : LowerM α := do
  let s ← get
  let (result, graph) := b.run s.graph
  set { s with graph }
  match result with
  | .ok a => return a
  | .error e => throw (.build e)

def zeroOf (t : DType) : GraphM Ref := Build.const (.zero t.base) t

def refOf (place : Nat) (reducing : Bool) : LowerM Ref :=
  return ((← get).done.lookup ⟨place, reducing⟩).getD 0

def reduction (f : Frame) (op : ReduceOp) (t : DType) (value : Ref) : LowerM Ref := do
  if f.reduceLoops.isEmpty then return value
  else
    let slot := (← get).accumulators
    modify fun s => { s with accumulators := slot + 1 }
    building (accumulate f slot op t value)

variable [Width]

def load (f : Frame) (reducing : Bool) (slot : Nat) (t : DType) (l : Layout) : Build Ref := do
  let (index, valid) ← Address.layout l (f.coords reducing)
  let gate ← match valid with
    | none => pure none
    | some v => do pure (some (v, ← (zeroOf t : GraphM Ref)))
  Build.load (f.buffer slot) index gate

def const (f : Frame) (reducing : Bool) (v : Value) (t : DType) (l : Layout) : Build Ref := do
  let c ← (Build.const v t : GraphM Ref)
  let (_, valid) ← Address.layout l (f.coords reducing)
  match valid with
  | none => return c
  | some valid => Build.select valid c (← (zeroOf t : GraphM Ref))

def store (f : Frame) (reducing : Bool) (slot : Nat) (l : Layout) (value : Ref) : Build Ref := do
  let (index, valid) ← Address.layout l (f.coords reducing)
  Build.store (f.buffer slot) index value valid

def node (f : Frame) (e : Expr) (s : Site) : LowerM Ref := do
  let n := e.node s.place
  match n.op with
  | .load slot l => building (load f s.reducing slot n.dtype l)
  | .const v l => building (const f s.reducing v n.dtype l)
  | .unary op a => do
    let a ← refOf a s.reducing
    building (Build.unary op a)
  | .binary op a b => do
    let a ← refOf a s.reducing
    let b ← refOf b s.reducing
    building (Build.binary op a b)
  | .ternary op a b c => do
    let a ← refOf a s.reducing
    let b ← refOf b s.reducing
    let c ← refOf c s.reducing
    building (Build.ternary op a b c)
  | .cast a => do
    let a ← refOf a s.reducing
    building (Build.cast a n.dtype : GraphM Ref)
  | .reduce op _ a => do
    if s.reducing then throw (.unsupported "reduce inside a reduce")
    else reduction f op n.dtype (← refOf a true)
  | .store slot l a => do
    let value ← refOf a s.reducing
    building (store f s.reducing slot l value)
  | .sink _ => throw (.unsupported "nested sink")

def lowerSite (f : Frame) (e : Expr) (s : Site) : LowerM Unit := do
  let r ← node f e s
  modify fun st => { st with done := (s, r) :: st.done }

/-- The sites below the stores of a kernel, each once and after what it reads. -/
def sites (e : Expr) (stores : List Nat) : List Site :=
  postorderFrom (Site.reads e) (2 * e.size) (stores.map (⟨·, false⟩))

def sink (f : Frame) (e : Expr) (stores : List Nat) : LowerM Ref := do
  (sites e stores).forM (lowerSite f e)
  let sources ← stores.mapM (refOf · false)
  building (Build.sink sources : GraphM Ref)

end Lower

def lower [Width] (e : Expr) (config : CompileConfig) : Except CompileError LoweredKernel := do
  let (stores, output) ← Lower.checkedStores e
  let (full, axes) ← Lower.reduceSignature e output
  let args := Lower.collectArgs e
  let work : Lower.LowerM Ref := do
    let f ← Lower.building (Lower.frame config.globalDims args output full axes)
    Lower.sink f e stores
  let (result, state) := work.run {}
  return ⟨state.graph, ← result, args, output, full, axes⟩

end LazyTensor

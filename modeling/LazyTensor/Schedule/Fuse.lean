import LazyTensor.Config
import LazyTensor.Expr.Build
import LazyTensor.Tensor.Node

/-!
Kernels from the tensor graph.

What is not stored anywhere is fused into the kernel that reads it: views are pushed down to the
leaves, where a buffer or a constant is read through one layout. A reduction is fused where it is
read as it is; a kernel that reads it through a reshape alone is indexed in the shape of the
reduction instead. Whatever cannot be fused stops the kernel and gets a kernel of its own.
-/

namespace LazyTensor

structure ScheduleItem where
  root : Tensor
  /-- A sink of one store, whose slots number the buffers. -/
  tree : Expr
  output : BufferId
  inputs : List BufferId
  vars : List (String × Int)

def ScheduleItem.buffers (i : ScheduleItem) : List BufferId := i.output :: i.inputs

structure FusedKernel where
  item : ScheduleItem
  /-- The nodes of other kernels that it reads. -/
  deps : List Tensor
  /-- The buffers that it reads as they were before. -/
  reads : List BufferId
  /-- The buffer that was there before and is written. -/
  overwrites : Option BufferId
  storeShape : Shape

def FusedKernel.root (k : FusedKernel) : Tensor := k.item.root

inductive Stop where
  | realize (t : Tensor)
  /-- The kernel should be indexed in the shape of a reduction. -/
  | rescope (t : Tensor) (shape : Shape)
  | fail (e : TensorError)

/-- A node together with the layout from the coordinates of the kernel to its own. -/
structure Visit where
  node : Tensor
  layout : Layout
  inReduce : Bool
  deriving DecidableEq

structure Draft where
  inputs : List BufferId := []
  deps : List Tensor := []
  reads : List BufferId := []
  vars : List (String × Int) := []
  /-- The one reduction of the kernel. -/
  reduction : Option Tensor := none
  tree : Expr := {}
  /-- Where the visits so far are in the tree. -/
  visited : List (Visit × Nat) := []

abbrev FuseM := StateT Draft (Except Stop)

structure Fusion where
  session : Session
  root : Tensor
  realize : List Tensor
  storage : List (Tensor × BufferId)
  maxViews : Nat
  output : BufferId
  store : Layout
  rescoped : Bool

namespace Fusion

def failed {α : Type} (e : TensorError) : FuseM α := throw (.fail e)

def slotOf (f : Fusion) (id : BufferId) : FuseM Nat := do
  if id = f.output then return 0
  let inputs := (← get).inputs
  match inputs.idxOf? id with
  | some i => return i + 1
  | none =>
    modify fun d => { d with inputs := inputs ++ [id] }
    return inputs.length + 1

/-- Notes the value of a variable, which has to be the same wherever its name occurs. -/
def bindName (name : String) (value : Int) : FuseM Unit := do
  match (← get).vars.lookup name with
  | some first => unless first = value do failed (.conflictingBinding name first value)
  | none => modify fun d => { d with vars := insertKey compare name value d.vars }

def isScheduled (f : Fusion) (t : Tensor) : Bool :=
  t != f.root && f.realize.contains t && !f.session.isStored t

def isLoaded (f : Fusion) (t : Tensor) : Bool :=
  t != f.root && (f.session.isStored t || f.realize.contains t)

variable [Width]

/-- A layout without the values of its variables, which are noted. -/
def unbind (l : Layout) : FuseM Layout := do
  let (free, bindings) := l.unbind
  bindings.forM fun (v, x) => bindName v.name x
  return free

/-- Steps through a view to its base. -/
def visit (s : Session) (t : Tensor) (l : Layout) (inReduce : Bool) : Visit :=
  match s.op t with
  | .view base layout => ⟨base, layout.compose l, inReduce⟩
  | _ => ⟨t, l, inReduce⟩

def source (f : Fusion) (v : Visit) : Except TensorError (BufferId × Layout) :=
  let s := f.session
  match s.op v.node with
  | .assign target _ =>
    match s.storage (s.base target) with
    | some id => .ok (id, (s.layout target).compose v.layout)
    | none => .error .assignTarget
  | _ =>
    match s.storage v.node <|> f.storage.lookup v.node with
    | some id => .ok (id, v.layout)
    | none => .error (.invariant "load without storage")

def building (b : ExprM Nat) : FuseM Nat := do
  let d ← get
  match b.run d.tree with
  | .ok (i, tree) =>
    set { d with tree }
    return i
  | .error e => failed (.build e)

def load (f : Fusion) (v : Visit) : FuseM Nat := do
  match f.source v with
  | .error e => failed e
  | .ok (id, l) =>
    if f.isScheduled v.node then modify fun d => { d with deps := insertElem compare v.node d.deps }
    else modify fun d => { d with reads := insertElem compare id d.reads }
    if id = f.output ∧ l ≠ f.store then failed (.assignAliasing id)
    let slot ← f.slotOf id
    let free ← unbind l
    building (.load slot (f.session.dtype v.node) free)

/-- The visit of an operand. One that is computed here may be seen through few views only. -/
def operand (f : Fusion) (v : Visit) (a : Tensor) : FuseM Visit := do
  let w := visit f.session a v.layout v.inReduce
  let computed := !f.isLoaded w.node && !(f.session.op w.node).isConst
  if computed ∧ f.maxViews < w.layout.views.length then throw (.realize w.node)
  return w

def enterReduction (f : Fusion) (v : Visit) : FuseM Unit := do
  if v.inReduce then throw (.realize v.node)
  let shape := f.session.shape v.node
  unless v.layout.isContiguous ∧ v.layout.shape = shape do
    throw (if v.layout.isContiguous ∧ !f.rescoped then .rescope v.node shape else .realize v.node)
  match (← get).reduction with
  | some t => unless t = v.node do throw (.realize v.node)
  | none => modify fun d => { d with reduction := some v.node }

/-- Where a visit is in the tree, which is remembered from the first time on. -/
def remember (v : Visit) (act : FuseM Nat) : FuseM Nat := do
  match (← get).visited.lookup v with
  | some i => return i
  | none =>
    let i ← act
    modify fun d => { d with visited := (v, i) :: d.visited }
    return i

def fuse (f : Fusion) : (depth : Nat) → Visit → FuseM Nat
  | 0, _ => failed (.invariant "kernel root not lowered")
  | depth + 1, v => remember v do
    let n := f.session.node v.node
    match n.op with
    | .const value => building (.const value n.dtype (← unbind v.layout))
    | _ =>
      if f.isLoaded v.node then f.load v
      else
        match n.op with
        | .unary op a =>
          let a ← fuse f depth (← f.operand v a)
          building (.unary op a)
        | .cast a =>
          let a ← fuse f depth (← f.operand v a)
          building (.cast n.dtype a)
        | .binary op a b => do
          let a ← f.operand v a
          let b ← f.operand v b
          let x ← fuse f depth a
          let y ← fuse f depth b
          building (.binary op x y)
        | .ternary op a b c => do
          let a ← f.operand v a
          let b ← f.operand v b
          let c ← f.operand v c
          let x ← fuse f depth a
          let y ← fuse f depth b
          let z ← fuse f depth c
          building (.ternary op x y z)
        | .reduce op axes a => do
          f.enterReduction v
          let x ← fuse f depth (visit f.session a (.ofShape (f.session.shape a)) true)
          building (.reduce op axes x)
        | _ => failed (.invariant "unlowerable node inside a kernel")

def sink (f : Fusion) (value : Tensor) (shape : Shape) : FuseM Unit := do
  match (Layout.ofShape (f.session.shape value)).reshape shape with
  | .error e => failed (.build e)
  | .ok top =>
    let x ← f.fuse (f.session.nodes.size + 1) (visit f.session value top false)
    let store ← unbind f.store
    discard (building do ExprM.sink [← ExprM.store 0 store x])

end Fusion

structure StoreTask where
  value : Tensor
  layout : Layout
  overwrites : Option BufferId

variable [Width]

namespace Session

def storeTask (s : Session) (root : Tensor) (output : BufferId) : Except TensorError StoreTask :=
  match s.op root with
  | .assign target value =>
    if s.shape value ≠ s.shape target then
      .error (.storeShape output (s.shape target) (s.shape value))
    else if s.dtype value ≠ s.dtype target then
      .error (.storeType output (s.dtype target) (s.dtype value))
    else .ok ⟨value, s.layout target, some output⟩
  | .contiguous a => .ok ⟨a, .ofShape (s.shape root), none⟩
  | _ => .ok ⟨root, .ofShape (s.shape root), none⟩

structure Partition where
  realize : List Tensor
  storage : List (Tensor × BufferId) := []

def buildKernelIn (s : Session) (p : Partition) (maxViews : Nat) (root : Tensor) (output : BufferId)
    (task : StoreTask) (shape : Shape) (rescoped : Bool) : Except Stop FusedKernel :=
  match task.layout.reshape shape with
  | .error e => .error (.fail (.build e))
  | .ok store => do
    let f : Fusion :=
      { session := s, root, realize := p.realize, storage := p.storage, maxViews, output, store,
        rescoped }
    let (_, d) ← (f.sink task.value shape).run {}
    return {
      item := { root, tree := d.tree, output, inputs := d.inputs, vars := d.vars }
      deps := d.deps
      reads := d.reads
      overwrites := task.overwrites
      storeShape := task.layout.shape }

/-- The kernel of a node, indexed in its own shape or in that of a reduction. -/
def buildKernel (s : Session) (p : Partition) (maxViews : Nat) (root : Tensor) :
    Except Stop FusedKernel := do
  let some output := p.storage.lookup root | throw (.fail (.invariant "root without storage"))
  match s.storeTask root output with
  | .error e => throw (.fail e)
  | .ok task =>
    match s.buildKernelIn p maxViews root output task (s.shape root) false with
    | .error (.rescope t shape) =>
      match task.layout.reshape shape with
      | .ok _ => s.buildKernelIn p maxViews root output task shape true
      | .error _ => throw (.realize t)
    | result => result

end Session

end LazyTensor

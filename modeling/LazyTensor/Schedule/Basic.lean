import LazyTensor.Schedule.Order
import LazyTensor.Traversal

/-!
Schedules: the kernels that compute some tensors, in order.

A node gets a kernel of its own if it was asked for, if it is a copy or an assignment, if it is a
reduction that is read more than once, or if some kernel cannot fuse it.
-/

namespace LazyTensor

structure Schedule where
  items : List ScheduleItem
  /-- The buffers that outlive the schedule: what was asked for and what was assigned to. -/
  outputs : List BufferId

namespace Session

/-- The bases that a node reads; a stored one reads nothing. -/
def pendingReads (s : Session) (t : Tensor) : List Tensor :=
  if s.isStored t then [] else (s.op t).sources.map s.base

/-- The bases to compute for some tensors, each after what it reads. -/
def pending (s : Session) (ts : List Tensor) : List Tensor :=
  (postorderFrom s.pendingReads s.nodes.size (ts.map s.base)).filter fun t => !s.isStored t

def readCount (s : Session) (order : List Tensor) (t : Tensor) : Nat :=
  (order.flatMap s.pendingReads).count t

def standsAlone (s : Session) (ts order : List Tensor) (t : Tensor) : Bool :=
  (ts.map s.base).contains t ||
    match s.op t with
    | .contiguous _ | .assign .. => true
    | .reduce .. => 1 < s.readCount order t
    | _ => false

end Session

namespace Tensor

variable [Width]

/-- The buffer for the values of a node; an assignment has that of its target. -/
def outputBuffer (t : Tensor) : TensorM BufferId := do
  let s ← get
  match s.op t with
  | .assign target _ =>
    match s.storage (s.base target) with
    | some id => return id
    | none => throw .assignTarget
  | _ =>
    let n := s.node t
    let size := s.size t
    let count := (size.evalBound?.getD size.upper).toNat
    let (id, memory) := s.memory.insert { device := n.device, dtype := n.dtype, size := count }
    set { s with memory }
    return id

def provideStorage (roots : List Tensor) (storage : List (Tensor × BufferId)) :
    TensorM (List (Tensor × BufferId)) :=
  roots.foldlM (fun storage t => do
    if (storage.lookup t).isSome then return storage
    else return storage ++ [(t, ← t.outputBuffer)]) storage

/-- Builds all kernels, over and over until nothing more needs a kernel of its own. -/
def buildKernels (maxViews : Nat) (order : List Tensor) :
    (fuel : Nat) → Session.Partition → TensorM (List FusedKernel × Session.Partition)
  | 0, _ => throw (.invariant "scheduling did not settle")
  | fuel + 1, p => do
    let roots := order.filter p.realize.contains
    let p := { p with storage := ← provideStorage roots p.storage }
    match roots.mapM ((← get).buildKernel p maxViews) with
    | .ok kernels => return (kernels, p)
    | .error (.realize t) | .error (.rescope t _) =>
      buildKernels maxViews order fuel { p with realize := t :: p.realize }
    | .error (.fail e) => throw e

def schedule (ts : List Tensor) (config : ScheduleConfig) : TensorM Schedule := do
  let s ← get
  let order := s.pending ts
  let start := order.filter (s.standsAlone ts order)
  let (kernels, p) ← buildKernels config.maxViews order (order.length + 1) { realize := start }
  FusedKernel.checkAssigns kernels
  let ordered ← FusedKernel.order kernels
  let asked := ts.filterMap fun t => p.storage.lookup (s.base t)
  return {
    items := ordered.map (·.item)
    outputs := insertElems compare (asked ++ ordered.filterMap (·.overwrites)) [] }

end Tensor

end LazyTensor

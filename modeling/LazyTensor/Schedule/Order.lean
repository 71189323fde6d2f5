import LazyTensor.Schedule.Fuse

/-!
The order of kernels: a node is computed before it is read, old contents of a buffer are read before
they are overwritten, and assignments to one buffer keep the order in which they were written down.
-/

namespace LazyTensor

namespace FusedKernel

def producer? (kernels : List FusedKernel) (t : Tensor) : Option Nat :=
  kernels.findIdx? (·.root == t)

/-- The positions of the kernels that a kernel waits for; one may be named several times. -/
def waitsFor (kernels : List FusedKernel) (k : FusedKernel) : List Nat :=
  k.deps.filterMap (producer? kernels) ++
    k.overwrites.toList.flatMap fun target =>
      kernels.zipIdx.flatMap fun (p, j) =>
        (if p.reads.contains target then [j] else []) ++
          (if p.overwrites == some target && p.root < k.root then [j] else [])

def addEdge (target : Nat) (successors : List (List Nat)) (source : Nat) : List (List Nat) :=
  if source = target then successors else successors.modify source (insertElem compare target)

def successors (kernels : List FusedKernel) : List (List Nat) :=
  kernels.zipIdx.foldl (fun sets (k, i) => (waitsFor kernels k).foldl (addEdge i) sets)
    (kernels.map fun _ => [])

def waitCounts (successors : List (List Nat)) : List Nat :=
  successors.flatten.foldl (fun counts i => counts.modify i (· + 1)) (successors.map fun _ => 0)

def rootAt (kernels : List FusedKernel) (i : Nat) : Tensor := (kernels[i]?).elim 0 root

def compareAt (kernels : List FusedKernel) : Nat → Nat → Ordering :=
  compareLex (compareOn (rootAt kernels)) compare

/-- The kernels that can run, in order, and how many others each kernel still waits for. -/
structure Queue where
  ready : List Nat
  counts : List Nat

namespace Queue

/-- A kernel waits for one other less, and can run once it waits for none. -/
def release (kernels : List FusedKernel) (q : Queue) (i : Nat) : Queue :=
  let counts := q.counts.modify i (· - 1)
  { ready := if counts[i]? = some 0 then insertElem (compareAt kernels) i q.ready else q.ready
    counts }

def start (kernels : List FusedKernel) (successors : List (List Nat)) : Queue :=
  let counts := waitCounts successors
  { ready := insertElems (compareAt kernels)
      ((List.range kernels.length).filter fun i => counts[i]? == some 0) []
    counts }

/-- Runs the first kernel that can run and releases those that come after it, over and over. -/
def drain (kernels : List FusedKernel) (successors : List (List Nat)) : (count : Nat) → Queue → List Nat
  | 0, _ => []
  | count + 1, q =>
    match q.ready with
    | [] => []
    | i :: ready =>
      i :: drain kernels successors count
        ((successors.getD i []).foldl (release kernels) { q with ready })

end Queue

def collect (kernels : List FusedKernel) (count : Nat) (positions : List Nat) :
    Except TensorError (List FusedKernel) :=
  if positions.length = count then .ok (positions.filterMap (kernels[·]?))
  else .error (.cyclicSchedule (count - positions.length))

/-- The kernels in an order in which each can run; of those that can, the earliest node goes first. -/
def order (kernels : List FusedKernel) : Except TensorError (List FusedKernel) :=
  let sets := successors kernels
  collect kernels kernels.length (Queue.drain kernels sets kernels.length (.start kernels sets))

/-- Assignments to one buffer have to write one shape. -/
def checkAssign (kernels : List FusedKernel) (k : FusedKernel) : Except TensorError Unit :=
  match k.overwrites with
  | none => .ok ()
  | some target =>
    match kernels.find? fun p => p.overwrites == some target with
    | none => .ok ()
    | some first =>
      if first.storeShape = k.storeShape then .ok ()
      else .error (.storeShape target first.storeShape k.storeShape)

def checkAssigns (kernels : List FusedKernel) : Except TensorError Unit :=
  kernels.forM (checkAssign kernels)

end FusedKernel

end LazyTensor

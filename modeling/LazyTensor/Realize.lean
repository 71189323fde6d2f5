import LazyTensor.Kernel.Cache
import LazyTensor.Machine.Run
import LazyTensor.Schedule.MemoryPlan
import LazyTensor.Tensor.Reduce

/-!
Realizing tensors: their kernels are compiled, or taken from a cache, and run in order.
-/

namespace LazyTensor

structure Runner where
  compile : CompileConfig := {}
  schedule : ScheduleConfig := {}
  cache : KernelCache := {}
  hash : NodeHash := fun _ _ => 0

def Runner.ofEnvironment (env : Environment) : Runner where
  compile := .ofEnvironment env
  schedule := .ofEnvironment env

/-- An action with a runner; what was done before an error stays done. -/
abbrev RealizeM := ExceptT TensorError (StateT Runner (StateM Session))

namespace Runner

def liftTensor {α : Type} (act : TensorM α) : RealizeM α := do
  match ← (act.run : StateM Session _) with
  | .ok a => return a
  | .error e => throw e

def getSession : RealizeM Session := (get : StateM Session Session)

def setSession (s : Session) : RealizeM Unit := (set s : StateM Session PUnit)

variable [Width]

def compileTree (config : CompileConfig) (hash : NodeHash) (e : Expr) : Except TensorError Kernel := do
  let k ← (Kernel.compile e config hash).mapError .compile
  let _ ← (Program.ofInstrs k.instrs).mapError .machine
  return k

def kernelFor (i : ScheduleItem) : RealizeM Kernel := do
  let r ← (get : StateT Runner (StateM Session) Runner)
  let s ← getSession
  let device := ((s.memory.get? i.output).map (·.device.text)).getD ""
  let (result, cache) := r.cache.getOrCompile i.tree device (compileTree r.compile r.hash i.tree)
  (set { r with cache } : StateT Runner (StateM Session) PUnit)
  result

def runItem (i : ScheduleItem) : RealizeM Unit := do
  let k ← kernelFor i
  let s ← getSession
  let (result, state) := (k.run i.buffers i.vars).run { memory := s.memory }
  setSession { s with memory := state.memory }
  match result with
  | .ok () => return ()
  | .error e => throw (.machine e)

/-- Notes where the computed nodes are stored. Buffers that were planned may be shared, so then only
those that outlive the schedule count. -/
def commit (schedule : Schedule) (keepAll : Bool) (s : Session) : Session :=
  schedule.items.foldl (fun s i =>
    if keepAll || schedule.outputs.contains i.output then s.setStorage i.root i.output else s) s

def realize (ts : List Tensor) : RealizeM Unit := do
  let config := (← (get : StateT Runner (StateM Session) Runner)).schedule
  let schedule ← liftTensor (Tensor.schedule ts config)
  if schedule.items.isEmpty then return ()
  let memory := (← getSession).memory
  let planned :=
    if config.reuseBuffers then schedule.replaceBuffers (schedule.planMemory memory) else schedule
  planned.items.forM runItem
  setSession (commit planned (!config.reuseBuffers) (← getSession))

def withRunner {α : Type} (r : Runner) (act : RealizeM α) : TensorM α := do
  let (result, _) ← (act.run.run r : StateM Session _)
  match result with
  | .ok a => return a
  | .error e => throw e

end Runner

namespace Tensor

variable [Width]

/-- Whether a tensor is only part of what its buffer holds. -/
def isPartial (s : Session) (t : Tensor) : Bool :=
  match s.op t with
  | .assign target _ => s.isView target
  | op => op.isView

def toValues (env : Environment) (t : Tensor) (as : ScalarType) : TensorM (List Value) := do
  let whole ← if isPartial (← get) t then t.contiguous else pure t
  unless (← get).isStored whole do
    Runner.withRunner (.ofEnvironment env) (Runner.realize [whole])
  let s ← get
  match s.storage whole with
  | none => throw .notRealized
  | some id =>
    match (Memory.bytes id).run s.memory with
    | (.ok bytes, _) => return Value.decodeAll as bytes
    | (.error e, _) => throw (.device e)

end Tensor

end LazyTensor

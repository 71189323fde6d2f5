import LazyTensor.Machine.Program

/-!
Running kernels.

Every instruction has a register. A loop starts its counter, or is skipped if it is empty; its end
marker writes accumulators back and goes around again while the counter is below the bound. A branch
is skipped where its condition fails. Launch indices run over a grid, and the list runs once for
each point.
-/

namespace LazyTensor

namespace Machine

/-- What stays the same during a launch. -/
structure Launch where
  program : Program
  slots : List (Nat × BufferId) := []
  vars : List (String × Int) := []

structure State where
  registers : Array (Option Value) := #[]
  memory : Memory

/-- A run; what was written before an error stays written. -/
abbrev RunM := ExceptT MachineError (StateM State)

def malformed {α : Type} (position : Nat) (reason : String) : RunM α :=
  throw (.malformed position reason)

def liftMemory {α : Type} (act : MemoryM α) : RunM α := do
  let s ← get
  let (result, memory) := act.run s.memory
  set { s with memory }
  match result with
  | .ok a => return a
  | .error e => throw (.device e)

def valueOf (l : Launch) (name : String) : Except MachineError Int :=
  match l.vars.lookup name with
  | some x => .ok x
  | none => .error (.unboundVariable name)

def asInt (v : Value) (position : Nat) : Except MachineError Int :=
  match v.toInt? with
  | some x => .ok x
  | none => .error (.malformed position "expected an integer")

def register (position : Nat) (r : Ref) : RunM Value := do
  match (← get).registers.getD r none with
  | some v => return v
  | none => malformed position "operand has no value"

def intRegister (position : Nat) (r : Ref) : RunM Int := do asInt (← register position r) position

def setRegister (r : Ref) (v : Value) : RunM Unit :=
  modify fun s => { s with registers := s.registers.setIfInBounds r (some v) }

def defined (l : Launch) (position : Nat) (v : Option Value) : Except MachineError Value :=
  match v with
  | some v => .ok v
  | none => .error (.evaluation position (l.program.opAt position).details)

def bufferOf (l : Launch) (position : Nat) (r : Ref) : Except MachineError (Nat × BufferId) :=
  match l.program.opAt r with
  | .defineGlobal slot =>
    match l.slots.lookup slot with
    | some id => .ok (slot, id)
    | none => .error (.malformed position "unbound global slot")
  | _ => .error (.malformed position "memory access through a non-global")

def elementError (slot : Nat) (id : BufferId) (b : Buffer) (index : Int) :
    ElementError → MachineError
  | .outOfBounds => .outOfBounds slot index b.size
  | .noValue => .malformed 0 "buffer of a non-value dtype"
  | .notAllocated => .device (.notAllocated id)

def readElement (slot : Nat) (id : BufferId) (index : Int) : RunM Value := do
  let b ← liftMemory (Memory.fetch id)
  match b.readElement index with
  | .ok v => return v
  | .error e => throw (elementError slot id b index e)

def writeElement (slot : Nat) (id : BufferId) (index : Int) (v : Value) : RunM Unit := do
  let b ← liftMemory (Memory.fetch id)
  match b.encodeElement index v with
  | .ok (start, bytes) => modify fun s => { s with memory := s.memory.write id start bytes }
  | .error e => throw (elementError slot id b index e)

def endOf (l : Launch) (position : Nat) : Except MachineError Nat :=
  match l.program.ends.lookup position with
  | some e => .ok e
  | none => .error (.malformed position "scope is never closed")

def gateHolds (l : Launch) (position : Nat) : Option Ref → RunM Bool
  | none => return true
  | some gate =>
    match l.program.opAt gate with
    | .branch _ => return true
    | _ => return (← register position gate).truthy

def load (l : Launch) (position : Nat) (buffer index : Ref) : RunM Value := do
  let (slot, id) ← bufferOf l position buffer
  readElement slot id (← intRegister position index)

def store (l : Launch) (position : Nat) (buffer index value : Ref) : RunM Unit := do
  let (slot, id) ← bufferOf l position buffer
  let i ← intRegister position index
  writeElement slot id i (← register position value)

def gatedLoad (l : Launch) (position : Nat) (buffer index : Ref) :
    Option (Ref × Ref) → RunM Value
  | none => load l position buffer index
  | some (valid, alt) => do
    if (← register position valid).truthy then load l position buffer index
    else register position alt

/-- The value that an instruction leaves in its register, for those that only compute. -/
def compute (l : Launch) (point : List (Nat × Int)) (position : Nat) (i : Instr) :
    RunM (Option Value) := do
  match i.op with
  | .const v => return some v
  | .defineVar v => return some (.int (← valueOf l v.name))
  | .special .. => return (point.lookup position).map .int
  | .defineAcc _ init _ => return some init
  | .phi acc _ _ => some <$> register position acc
  | .load buffer index gate => some <$> gatedLoad l position buffer index gate
  | .cast a =>
    let v ← register position a
    return some (← defined l position (v.cast i.dtype))
  | .unary op a =>
    let v ← register position a
    return some (← defined l position (op.eval i.dtype v))
  | .binary op a b =>
    let x ← register position a
    let y ← register position b
    return some (← defined l position (op.eval i.dtype x y))
  | .ternary op a b c =>
    let x ← register position a
    let y ← register position b
    let z ← register position c
    return some (← defined l position (op.eval i.dtype x y z))
  | _ => return none

def writeBack (l : Launch) (range : Nat) : RunM Unit :=
  (l.program.writebacks.filter (·.range == range)).forM fun w => do
    match (← get).registers.getD w.value none with
    | some v => setRegister w.acc v
    | none => return ()

inductive Next where
  | goto (position : Nat)
  | again (range : Nat)
  deriving DecidableEq

/-- The end of an iteration: the counter goes up, and around again while it is below the bound. -/
def endIteration (l : Launch) (position range : Nat) : RunM Next := do
  writeBack l range
  match l.program.opAt range with
  | .loop _ stop _ =>
    let counter := (← intRegister position range) + 1
    if counter < (← intRegister position stop) then
      setRegister range (.int counter)
      return .again range
    else return .goto (position + 1)
  | _ => malformed position "loop end closes a non-loop"

def step (l : Launch) (point : List (Nat × Int)) (position : Nat) : RunM Next := do
  let i := l.program.instr position
  match i.op with
  | .loop start stop _ =>
    let first ← intRegister position start
    let past ← intRegister position stop
    let next ← if past ≤ first then (· + 1) <$> endOf l position else pure (position + 1)
    setRegister position (.int first)
    return .goto next
  | .endLoop range => endIteration l position range
  | .branch cond =>
    if (← register position cond).truthy then return .goto (position + 1)
    else return .goto ((← endOf l position) + 1)
  | .store buffer index value gate =>
    if ← gateHolds l position gate then store l position buffer index value
    return .goto (position + 1)
  | _ =>
    match ← compute l point position i with
    | some v => setRegister position v
    | none => pure ()
    return .goto (position + 1)

/-- Runs forward to the end of the list, or to where a loop goes around again. -/
def forward (l : Launch) (point : List (Nat × Int)) : (fuel : Nat) → Nat → RunM (Option Nat)
  | 0, _ => return none
  | fuel + 1, position => do
    if position < l.program.instrs.size then
      match ← step l point position with
      | .goto next => forward l point fuel next
      | .again range => return some range
    else return none

/-- Repeats the body of a loop while it asks to go around, at most `count` times. -/
def repeatBody (range : Nat) (body : RunM (Option Nat)) : (count : Nat) → RunM (Option Nat)
  | 0 => malformed range "loop never ends"
  | count + 1 => do
    match ← body with
    | some r => if r = range then repeatBody range body count else return some r
    | none => return none

/-- How often a loop that has just gone around can run its body at most. The counter goes up every
time and stays below a word, whatever becomes of the bound, which is read anew every time. -/
def roundsLeft (range : Nat) : RunM Nat := do
  return (Width.maxWord - (← intRegister range range)).toNat

/-- Runs from a position with the given loops, the outermost first; says which other loop goes
around again, if any. -/
def runLoops (l : Launch) (point : List (Nat × Int)) : List Nat → Nat → RunM (Option Nat)
  | [], position => forward l point (l.program.instrs.size + 1) position
  | range :: inner, position => do
    match ← runLoops l point inner position with
    | some r =>
      if r = range then
        repeatBody range (runLoops l point inner (range + 1)) (← roundsLeft range)
      else return some r
    | none => return none

def runPoint (l : Launch) (point : List (Nat × Int)) : RunM Unit := do
  modify fun s => { s with registers := Array.replicate l.program.instrs.size none }
  discard (runLoops l point l.program.loops 0)

/-- The value of an expression that does not depend on the state of the kernel. -/
def evalStatic (l : Launch) : (depth : Nat) → Ref → Except MachineError Value
  | 0, r => .error (.malformed r "grid size depends on kernel state")
  | depth + 1, r => do
    let i := l.program.instr r
    match i.op with
    | .const v => return v
    | .defineVar v => return .int (← valueOf l v.name)
    | .cast a => defined l r ((← evalStatic l depth a).cast i.dtype)
    | .unary op a => defined l r (op.eval i.dtype (← evalStatic l depth a))
    | .binary op a b => do
      let x ← evalStatic l depth a
      defined l r (op.eval i.dtype x (← evalStatic l depth b))
    | _ => throw (.malformed r "grid size depends on kernel state")

structure GridAxis where
  axis : Nat
  position : Nat
  size : Int

def GridAxis.le (a b : GridAxis) : Bool :=
  a.axis < b.axis || (a.axis == b.axis && a.position ≤ b.position)

def gridAxis? (l : Launch) (position : Nat) : Except MachineError (Option GridAxis) :=
  match l.program.opAt position with
  | .special axis size => do
    let v ← evalStatic l (l.program.instrs.size + 1) size
    return some ⟨axis, position, max 0 (← asInt v position)⟩
  | _ => .ok none

def grid (l : Launch) : Except MachineError (List GridAxis) := do
  let axes ← (List.range l.program.instrs.size).mapM (gridAxis? l)
  return sortBy GridAxis.le (axes.filterMap id)

/-- Binds one buffer to an argument and makes sure that it has storage. -/
def bindArg (arg : GlobalArg) (id : BufferId) : RunM (Nat × BufferId) := do
  let b ← liftMemory (Memory.fetch id)
  if b.dtype = arg.dtype then
    liftMemory (Memory.ensureAllocated id)
    return (arg.slot, id)
  else throw (.argumentType arg.slot arg.dtype b.dtype)

def run (k : Kernel) (p : Program) (buffers : List BufferId) (vars : List (String × Int)) :
    RunM Unit := do
  if buffers.length ≠ k.globals.length then
    throw (.argumentCount k.name k.globals.length buffers.length)
  let slots ← (k.globals.zip buffers).mapM fun (arg, id) => bindArg arg id
  let l : Launch := { program := p, slots := slots.reverse, vars }
  let axes ← grid l
  let sizes := axes.map (·.size)
  (List.range (product sizes).toNat).forM fun flat =>
    runPoint l ((axes.map (·.position)).zip (unravel sizes flat))

end Machine

def Kernel.run (k : Kernel) (buffers : List BufferId) (vars : List (String × Int)) :
    Machine.RunM Unit := do
  let p ← Program.ofInstrs k.instrs
  Machine.run k p buffers vars

end LazyTensor

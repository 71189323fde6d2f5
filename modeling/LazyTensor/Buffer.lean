import LazyTensor.Device
import LazyTensor.Value.Bytes

/-!
Buffers: typed storage on a device, allocated when it is first needed.
-/

namespace LazyTensor

structure Buffer where
  device : Device
  dtype : DType
  size : Nat
  data : Option (Array UInt8) := none
  deriving DecidableEq

abbrev BufferId := Nat

inductive BufferError where
  | sizeMismatch (expected actual : Nat)
  | invalidDevice (device : Device)
  | notAllocated (id : BufferId)
  | alreadyBorrowed (id : BufferId)
  deriving DecidableEq

def BufferError.message : BufferError → String
  | sizeMismatch e a => s!"size mismatch: expected {e} bytes, got {a}"
  | invalidDevice d => "invalid device: " ++ d.text
  | notAllocated id => s!"buffer {id} is not allocated"
  | alreadyBorrowed id => s!"buffer {id} is already borrowed"

def BufferError.code : BufferError → String
  | sizeMismatch .. => "SizeMismatch"
  | invalidDevice _ => "InvalidDevice"
  | notAllocated _ => "NotAllocated"
  | alreadyBorrowed _ => "AlreadyBorrowed"

/-- The name of the allocator that serves a device; only host memory is available. -/
def allocatorName : Device → Except BufferError String
  | .cpu => .ok "CPU"
  | d => .error (.invalidDevice d)

inductive ElementError where
  | outOfBounds
  | noValue
  | notAllocated
  deriving DecidableEq

namespace Buffer

def byteSize (b : Buffer) : Nat := b.size * b.dtype.bytes

def isAllocated (b : Buffer) : Bool := b.data.isSome

def text (b : Buffer) (id : BufferId) : String :=
  s!"<buf{id} " ++ b.device.text ++ s!" {b.size}x" ++ b.dtype.text ++ ">"

def allocate (b : Buffer) : Except BufferError Buffer :=
  if b.isAllocated then .ok b
  else (allocatorName b.device).map fun _ =>
    { b with data := some (Array.replicate b.byteSize 0) }

def ofValues (s : ScalarType) (vs : List Value) : Buffer where
  device := .cpu
  dtype := .scalar s
  size := vs.length
  data := some (Value.encodeAll s vs).toArray

/-- The bytes `bytes` written from position `start` on. -/
def splice (data : Array UInt8) (start : Nat) : List UInt8 → Array UInt8
  | [] => data
  | byte :: rest => splice (data.setIfInBounds start byte) (start + 1) rest

def inBounds (b : Buffer) (i : Int) : Bool := 0 ≤ i && i < b.size

def readElement (b : Buffer) (i : Int) : Except ElementError Value :=
  if b.inBounds i then
    match b.data, b.dtype.scalar? with
    | some data, some s =>
      let width := b.dtype.bytes
      let start := i.toNat * width
      match Value.decode s (data.extract start (start + width)).toList with
      | some v => .ok v
      | none => .error .noValue
    | none, _ => .error .notAllocated
    | _, none => .error .noValue
  else .error .outOfBounds

/-- Where an element lies, and the bytes of `v` brought to its type. -/
def encodeElement (b : Buffer) (i : Int) (v : Value) : Except ElementError (Nat × List UInt8) :=
  if b.inBounds i then
    match b.dtype.scalar?.bind fun s => (v.castTo s).bind (Value.encode s) with
    | some bytes => .ok (i.toNat * b.dtype.bytes, bytes)
    | none => .error .noValue
  else .error .outOfBounds

def write (b : Buffer) (start : Nat) (bytes : List UInt8) : Buffer :=
  { b with data := b.data.map fun data => splice data start bytes }

def writeElement (b : Buffer) (i : Int) (v : Value) : Except ElementError Buffer :=
  (b.encodeElement i v).map fun (start, bytes) => b.write start bytes

end Buffer

structure Memory where
  buffers : Array Buffer := #[]

/-- An action on memory; what was done before an error stays done. -/
abbrev MemoryM := ExceptT BufferError (StateM Memory)

inductive Access where
  | read
  | write
  deriving DecidableEq

namespace Memory

def get? (m : Memory) (id : BufferId) : Option Buffer := m.buffers[id]?

def set (m : Memory) (id : BufferId) (b : Buffer) : Memory := ⟨m.buffers.setIfInBounds id b⟩

def write (m : Memory) (id : BufferId) (start : Nat) (bytes : List UInt8) : Memory :=
  ⟨m.buffers.modify id (·.write start bytes)⟩

def insert (m : Memory) (b : Buffer) : BufferId × Memory := (m.buffers.size, ⟨m.buffers.push b⟩)

def fetch (id : BufferId) : MemoryM Buffer := do
  match (← get).get? id with
  | some b => return b
  | none => throw (.notAllocated id)

def ensureAllocated (id : BufferId) : MemoryM Unit := do
  let b ← (← fetch id).allocate
  modify fun m => m.set id b

def bytes (id : BufferId) : MemoryM (Array UInt8) := do
  match (← fetch id).data with
  | some data => return data
  | none => throw (.notAllocated id)

/-- Changes the bytes of a buffer, which is allocated if need be. -/
def updateBytes (id : BufferId) (f : Array UInt8 → Array UInt8) : MemoryM Unit := do
  ensureAllocated id
  let data ← bytes id
  let b ← fetch id
  modify fun m => m.set id { b with data := some (f data) }

def copyIn (id : BufferId) (source : Array UInt8) : MemoryM Unit := do
  ensureAllocated id
  let b ← fetch id
  if b.byteSize = source.size then updateBytes id fun _ => source
  else throw (.sizeMismatch b.byteSize source.size)

def copyOut (id : BufferId) (length : Nat) : MemoryM (Array UInt8) := do
  let b ← fetch id
  if b.byteSize = length then bytes id else throw (.sizeMismatch b.byteSize length)

/-- Begins an access, for which a write allocates and a read has to find storage. -/
def beginAccess (id : BufferId) : Access → MemoryM Unit
  | .read => discard (bytes id)
  | .write => ensureAllocated id

/-- The number of bytes seen by an access inside another; only reads can be nested. -/
def nestedAccess (id : BufferId) (outer inner : Access) : MemoryM Nat := do
  beginAccess id outer
  if outer = .read ∧ inner = .read then return (← bytes id).size
  else throw (.alreadyBorrowed id)

end Memory

end LazyTensor

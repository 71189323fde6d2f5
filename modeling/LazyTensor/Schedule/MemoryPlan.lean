import LazyTensor.Schedule.Basic

/-!
Reuse of storage between buffers of a schedule that are never needed at the same time.

The largest buffers are placed first, each on the first earlier one of its type that is large enough
and free while it is needed.
-/

namespace LazyTensor

structure Lifetime where
  buffer : BufferId
  first : Nat
  last : Nat
  deriving DecidableEq

namespace Lifetime

def overlaps (a b : Lifetime) : Bool := a.first ≤ b.last && b.first ≤ a.last

def extend (step : Nat) (id : BufferId) : List Lifetime → List Lifetime
  | [] => [⟨id, step, step⟩]
  | l :: rest => if l.buffer = id then { l with last := step } :: rest else l :: extend step id rest

end Lifetime

structure MemoryPlan where
  replacements : List (BufferId × BufferId) := []
  saved : Nat := 0
  reused : Nat := 0

structure Host where
  buffer : BufferId
  tenants : List Lifetime

namespace Memory

def byteSize (m : Memory) (id : BufferId) : Nat := ((m.get? id).map (·.byteSize)).getD 0

def isAllocated (m : Memory) (id : BufferId) : Bool := (m.get? id).any (·.isAllocated)

def fits (m : Memory) (host id : BufferId) : Bool :=
  match m.get? host, m.get? id with
  | some h, some b => h.device = b.device && h.dtype = b.dtype && b.size ≤ h.size
  | _, _ => false

end Memory

namespace Schedule

def isPlannable (s : Schedule) (m : Memory) (id : BufferId) : Bool :=
  !m.isAllocated id && !s.outputs.contains id

def lifetimes (s : Schedule) (m : Memory) : List Lifetime :=
  s.items.zipIdx.foldl (fun live (item, step) =>
    (item.buffers.filter (s.isPlannable m)).foldr (Lifetime.extend step) live) []

/-- Larger buffers come first, then those needed earlier. -/
def placedBefore (m : Memory) (a b : Lifetime) : Bool :=
  let x := m.byteSize a.buffer
  let y := m.byteSize b.buffer
  y < x || (x == y && (a.first < b.first || (a.first == b.first && a.buffer ≤ b.buffer)))

/-- The first host that has room for a buffer, with the buffer placed on it. -/
def settleOn (m : Memory) (l : Lifetime) : List Host → Option (BufferId × List Host)
  | [] => none
  | h :: rest =>
    if m.fits h.buffer l.buffer && h.tenants.all (fun t => !t.overlaps l) then
      some (h.buffer, { h with tenants := h.tenants ++ [l] } :: rest)
    else (settleOn m l rest).map fun (id, hosts) => (id, h :: hosts)

def place (m : Memory) (state : List Host × MemoryPlan) (l : Lifetime) : List Host × MemoryPlan :=
  let (hosts, plan) := state
  match settleOn m l hosts with
  | some (host, hosts) =>
    (hosts, { replacements := plan.replacements ++ [(l.buffer, host)]
              saved := plan.saved + m.byteSize l.buffer
              reused := plan.reused + 1 })
  | none => (hosts ++ [⟨l.buffer, [l]⟩], plan)

def planMemory (s : Schedule) (m : Memory) : MemoryPlan :=
  ((sortBy (placedBefore m) (s.lifetimes m)).foldl (place m) ([], {})).2

def replaceBuffers (s : Schedule) (plan : MemoryPlan) : Schedule :=
  let place := fun (id : BufferId) => (plan.replacements.lookup id).getD id
  { s with items := s.items.map fun i =>
    { i with output := place i.output, inputs := i.inputs.map place } }

end Schedule

end LazyTensor

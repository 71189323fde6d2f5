import LazyTensor.Graph.Basic

/-!
The arena behind an instruction graph.

A memo has the slot of each instruction in use. A slot whose new contents the memo already has
somewhere else forwards to that slot, which may itself be given up later.
-/

namespace LazyTensor

structure Arena where
  nodes : Array Instr := #[]
  forward : Array (Option Ref) := #[]
  memo : Instr → Option Ref := fun _ => none

namespace Arena

def size (a : Arena) : Nat := a.nodes.size

def follow (a : Arena) : (steps : Nat) → Ref → Ref
  | 0, r => r
  | steps + 1, r =>
    match a.forward.getD r none with
    | some next => a.follow steps next
    | none => r

/-- The end of the forwards from a slot: at most as many follow on each other as there are. -/
def resolve (a : Arena) (r : Ref) : Ref := a.follow (a.forward.countP (·.isSome)) r

def resolved (a : Arena) (n : Instr) : Instr := { n with op := n.op.mapSources a.resolve }

def get (a : Arena) (r : Ref) : Instr := a.nodes.getD (a.resolve r) Graph.noop

def note (memo : Instr → Option Ref) (n : Instr) (place : Option Ref) : Instr → Option Ref :=
  fun m => if m = n then place else memo m

def intern (a : Arena) (n : Instr) : Ref × Arena :=
  let n := a.resolved n
  match a.memo n with
  | some i => (i, a)
  | none =>
    (a.size, { nodes := a.nodes.push n
               forward := a.forward.push none
               memo := note a.memo n (some a.size) })

def replace (a : Arena) (r : Ref) (n : Instr) : Arena :=
  let i := a.resolve r
  let n := a.resolved n
  let old := a.nodes.getD i Graph.noop
  let memo := if a.memo old = some i then note a.memo old none else a.memo
  let nodes := a.nodes.setIfInBounds i n
  match (memo n).filter (· ≠ i) with
  | some j => { nodes, forward := a.forward.setIfInBounds i (some j), memo }
  | none => { nodes, forward := a.forward, memo := note memo n (some i) }

end Arena

end LazyTensor

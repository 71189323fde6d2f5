import LazyTensor.Kernel.Compile
import LazyTensor.Machine.Error

/-!
Programs: instruction lists with what a run needs to know of their scopes.
-/

namespace LazyTensor

/-- An update that a loop writes back into an accumulator after every iteration. -/
structure Writeback where
  range : Nat
  acc : Nat
  value : Nat
  deriving DecidableEq

structure Program where
  instrs : Array Instr
  ends : List (Nat × Nat) := []
  writebacks : List Writeback := []

namespace Program

def instr (p : Program) (position : Nat) : Instr := instrAt p.instrs position

def opAt (p : Program) (position : Nat) : Op := (p.instr position).op

def scan (p : Program) (i : Instr × Nat) : Except MachineError Program :=
  let position := i.2
  match i.1.op with
  | .endLoop scope | .endBranch scope =>
    if scope < position then .ok { p with ends := insertKey compare scope position p.ends }
    else .error (.malformed position "end marker before its scope")
  | .phi acc value loops =>
    match loops.max? with
    | some range => .ok { p with writebacks := p.writebacks ++ [⟨range, acc, value⟩] }
    | none => .error (.malformed position "phi without loops")
  | _ => .ok p

def ofInstrs (is : Array Instr) : Except MachineError Program :=
  is.toList.zipIdx.foldlM scan { instrs := is }

def loops (p : Program) : List Nat :=
  (List.range p.instrs.size).filter fun i => (p.opAt i).isLoop

end Program

end LazyTensor

import LazyTensor.Linear.Check
import LazyTensor.Traversal

/-!
A form of an instruction list that does not depend on the order inside a block.

Instructions are numbered depth first from the last one, and every block between scope boundaries is
given by the numbers it holds.
-/

namespace LazyTensor

/-- A run of instructions with no scope boundary inside. -/
structure Block where
  closes : Option Nat
  ids : List Nat
  opens : Option Nat
  deriving DecidableEq

namespace Canonical

def numbering (is : Array Instr) : List Nat :=
  if is.isEmpty then []
  else postorder (fun p => (instrAt is p).op.sources) is.size (is.size - 1)

def nodes (is : Array Instr) : List Instr :=
  let order := numbering is
  order.map fun p =>
    let i := instrAt is p
    { i with op := i.op.mapSources order.idxOf }

structure Walk where
  done : List Block := []
  closes : Option Nat := none
  ids : List Nat := []

def Walk.flush (w : Walk) (opens : Option Nat) : Walk :=
  if w.closes.isNone && opens.isNone && w.ids.isEmpty then {done := w.done}
  else { done := w.done ++ [⟨w.closes, sortBy (· ≤ ·) w.ids, opens⟩] }

def Walk.visit (number : Nat → Option Nat) (w : Walk) (i : Instr × Nat) : Walk :=
  match i.1.op with
  | .loop .. | .branch _ => w.flush (number i.2)
  | .endLoop scope | .endBranch scope => { w.flush none with closes := number scope }
  | _ => { w with ids := w.ids ++ (number i.2).toList }

def blocks (is : Array Instr) : List Block :=
  let order := numbering is
  ((is.toList.zipIdx.foldl (Walk.visit order.idxOf?) {}).flush none).done

def className : Op → String
  | .defineGlobal _ => "global"
  | .defineVar _ => "var"
  | .defineLocal .. => "local"
  | .defineAcc .. => "acc"
  | .const _ => "const"
  | .special .. => "special"
  | .load .. => "load"
  | .store .. => "store"
  | .branch _ => "if"
  | .loop .. => "loop"
  | .endLoop _ | .endBranch _ => "end"
  | .sink _ => "sink"
  | _ => "other"

/-- The order of a list reduced to the classes of its instructions. -/
def classes (is : Array Instr) : String :=
  String.intercalate " " (is.toList.map fun i => className i.op)

end Canonical

end LazyTensor

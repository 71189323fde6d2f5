import LazyTensor.Linear.Check

/-!
The cost of one launch: operations and bytes moved, weighted by the trip counts of loops.
-/

namespace LazyTensor

structure Cost where
  ops : Nat := 0
  mem : Nat := 0
  deriving DecidableEq, Repr

namespace Cost

def maxCount : Nat := 18446744073709551615

def times (a b : Nat) : Nat := min (a * b) maxCount

section

variable (is : Array Instr)

def constAt? (p : Ref) : Option Int := (instrAt is p).const?.bind Value.toInt?

/-- How often a loop runs; a bound that is not constant counts as one iteration. -/
def trips (start stop : Ref) : Nat :=
  match constAt? is start, constAt? is stop with
  | some s, some e => (min (e - s) Width.maxWord).toNat
  | _, _ => 1

def launchSize? (i : Instr) : Option Nat :=
  match i.op with
  | .special _ size => some ((constAt? is size).elim 1 Int.toNat)
  | _ => none

def grid : Nat := (is.toList.filterMap (launchSize? is)).foldl (· * ·) 1

structure Tally where
  cost : Cost := {}
  scale : List Nat

def Tally.visit (t : Tally) (i : Instr) : Tally :=
  let current := t.scale.headD 1
  match i.op with
  | .loop start stop _ => { t with scale := times current (trips is start stop) :: t.scale }
  | .branch _ => { t with scale := current :: t.scale }
  | .endLoop _ | .endBranch _ => { t with scale := t.scale.tail }
  | .unary .. | .binary .. | .ternary .. => { t with cost.ops := t.cost.ops + current }
  | .load .. => { t with cost.mem := t.cost.mem + times current i.dtype.bytes }
  | .store _ _ value _ =>
    { t with cost.mem := t.cost.mem + times current (instrAt is value).dtype.bytes }
  | _ => t

end

end Cost

def estimate (is : Array Instr) : Cost :=
  (is.toList.foldl (Cost.Tally.visit is) { scale := [Cost.grid is] }).cost

end LazyTensor

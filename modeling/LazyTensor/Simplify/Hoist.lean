import LazyTensor.Simplify.Range
import LazyTensor.Simplify.Rule

/-!
Moving the constant part of an index into the bounds of its loop.

If a loop counter is read only as `counter + x`, where `x` has a known range and depends on no loop,
the loop runs from `start + x` to `stop + x` instead and the addition disappears.
-/

namespace LazyTensor

def Op.isLoop : Op → Bool
  | .loop .. => true
  | _ => false

namespace Rule

/-- Whether a reader of a loop only needs its scope. -/
def isStructural (g : Graph) (reader range : Ref) : Bool :=
  match g.op reader with
  | .endLoop _ => true
  | .defineAcc _ _ loops => loops.contains range
  | .phi _ _ loops => loops.contains range
  | _ => false

/-- A sum with a loop counter, as the counter and the other operand. -/
def counterSum? (g : Graph) (r : Ref) : Option (Ref × Ref) :=
  match g.op r with
  | .binary .add a b =>
    if (g.op a).isLoop then some (a, b) else if (g.op b).isLoop then some (b, a) else none
  | _ => none

def hoistOffset (readers : Readers) (r : Ref) : Attempt Ref := do
  let g ← get
  let (range, offset) ← Attempt.ofOption (counterSum? g r)
  match g.op range with
  | .loop start stop axis =>
    if (g.range offset).isNone ∨ (g.order offset).any fun n => (g.op n).isLoop then failure
    let direct := ((readers.lookup range).getD []).filter fun n => !isStructural g n range
    if direct ≠ [r] then failure
    let start ← Build.toAttempt (Build.add start offset)
    let stop ← Build.toAttempt (Build.add stop offset)
    modify fun g => g.replace range ⟨.loop start stop axis, .index⟩
    return range
  | _ => failure

end Rule

end LazyTensor

import LazyTensor.View.Basic

/-!
Broadcasting of shapes: aligned at the right, a missing dimension counts as 1, and a dimension of
size 1 stretches.
-/

namespace LazyTensor

/-- A shape filled up with ones at the left to the given rank. -/
def alignShape (rank : Nat) (shape : Shape) : Shape :=
  List.replicate (rank - shape.length) 1 ++ shape

def broadcastDim? (l r : SymInt) : Option SymInt :=
  if l = r ∨ r = 1 then some l else if l = 1 then some r else none

def broadcastShape? (l r : Shape) : Option Shape :=
  let rank := max l.length r.length
  ((alignShape rank l).zip (alignShape rank r)).mapM fun (a, b) => broadcastDim? a b

end LazyTensor

import LazyTensor.Broadcast
import LazyTensor.Tensor.Node

/-!
Changes of the shape of a tensor. An axis may be counted from the end, as a negative number.
-/

namespace LazyTensor

namespace Tensor

/-- The position of an axis, which may be counted from the end. -/
def resolveAxis (rank : Nat) (axis : Int) : Except TensorError Nat :=
  let position := if axis < 0 then axis + rank else axis
  if 0 ≤ position ∧ position < rank then .ok position.toNat else .error (.axisRange axis rank)

def resolveEach (rank : Nat) (axes : List Int) : Except TensorError (List Nat) :=
  axes.mapM (resolveAxis rank)

def resolvePermutation (rank : Nat) (axes : List Int) : Except TensorError (List Nat) := do
  unless axes.length = rank do throw (.permutation axes)
  let positions ← resolveEach rank axes
  unless positions.Nodup do throw (.permutation axes)
  return positions

/-- Checks the sizes asked for from left to right: at most one may be left open, as `-1`. -/
def checkDims : (found : Bool) → List Int → Except TensorError Bool
  | found, [] => .ok found
  | found, d :: rest =>
    if d = -1 then if found then .error .manyInferred else checkDims true rest
    else if d < 0 then .error (.negativeDimension d)
    else checkDims found rest

/-- The size of an expanded dimension, where `-1` keeps the old one. -/
def expandDim (d : Int) (old : SymInt) : Except TensorError SymInt :=
  if d = -1 then .ok old else if d < 0 then .error (.negativeDimension d) else .ok d

def expandDims (dims : List Int) (old : Shape) : Except TensorError Shape :=
  if dims.length = old.length then (dims.zip old).mapM fun (d, s) => expandDim d s
  else .error (.broadcast old (dims.map fun d => .const (max d 0)))

def swapped (rank i j : Nat) : List Nat :=
  (List.range rank).map fun k => if k = i then j else if k = j then i else k

variable [Width]

/-- The shape asked for, with an open size inferred from the number of elements. -/
def inferDims (dims : List Int) (size : SymInt) : Except TensorError Shape := do
  if ← checkDims false dims then
    match size.asConst? with
    | none => throw (.symbolicShape "reshape with -1")
    | some count =>
      let known := product (dims.filter (· ≠ -1))
      unless 0 < known ∧ count.tmod known = 0 do
        throw (.inferDimension dims (wrapUnsigned 64 count))
      return dims.map fun d => .const (if d = -1 then count.tdiv known else d)
  else return dims.map .const

def reshapeTo (t : Tensor) (shape : Shape) : TensorM Tensor := do
  if shape = (← t.shape) then return t else t.move (.reshape shape)

def reshape (t : Tensor) (dims : List Int) : TensorM Tensor := do
  t.reshapeTo (← inferDims dims ((← get).size t))

def permute (t : Tensor) (axes : List Int) : TensorM Tensor := do
  let rank ← t.rank
  let positions ← resolvePermutation rank axes
  if positions = List.range rank then return t else t.move (.permute positions)

def transpose (t : Tensor) (axis₀ axis₁ : Int) : TensorM Tensor := do
  let rank ← t.rank
  let i ← resolveAxis rank axis₀
  let j ← resolveAxis rank axis₁
  t.permute ((swapped rank i j).map Int.ofNat)

def expandTo (t : Tensor) (shape : Shape) : TensorM Tensor := do
  if shape = (← t.shape) then return t else t.move (.expand shape)

def expand (t : Tensor) (dims : List Int) : TensorM Tensor := do
  t.expandTo (← expandDims dims (← t.shape))

def flip (t : Tensor) (axes : List Int) : TensorM Tensor := do
  let rank ← t.rank
  let positions ← resolveEach rank axes
  t.move (.flip ((List.range rank).map positions.contains))

/-- Drops an axis if it has size 1; without an axis, all axes of size 1. -/
def squeeze (t : Tensor) (axis : Option Int) : TensorM Tensor := do
  let shape ← t.shape
  match axis with
  | none => t.reshapeTo (shape.filter (· ≠ 1))
  | some axis =>
    let i ← resolveAxis shape.length axis
    if shape.getD i 0 = 1 then t.reshapeTo (shape.eraseIdx i) else return t

def unsqueeze (t : Tensor) (axis : Int) : TensorM Tensor := do
  let shape ← t.shape
  let i ← resolveAxis (shape.length + 1) axis
  t.reshapeTo (shape.insertIdx i 1)

def flatten (t : Tensor) : TensorM Tensor := do t.reshapeTo [(← get).size t]

/-- Stretches a tensor to a shape that its own broadcasts to. -/
def broadcastTo (t : Tensor) (target : Shape) : TensorM Tensor := do
  let shape ← t.shape
  if shape = target then return t
  let aligned := alignShape target.length shape
  unless shape.length ≤ target.length ∧ (aligned.zip target).all (fun (d, e) => d = e ∨ d = 1) do
    throw (.broadcast shape target)
  let padded ← t.reshapeTo aligned
  padded.expandTo target

def broadcastPair (a b : Tensor) : TensorM (Tensor × Tensor) := do
  let l ← a.shape
  let r ← b.shape
  if l = r then return (a, b)
  match broadcastShape? l r with
  | none => throw (.broadcast l r)
  | some target =>
    let a ← a.broadcastTo target
    let b ← b.broadcastTo target
    return (a, b)

def shapeNamed? : String → List Int → Option (Tensor → TensorM Tensor)
  | "reshape", dims => some (·.reshape dims)
  | "expand", dims => some (·.expand dims)
  | "permute", axes => some (·.permute axes)
  | "flip", axes => some (·.flip axes)
  | "transpose", [axis₀, axis₁] => some (·.transpose axis₀ axis₁)
  | "squeeze", axes => some (·.squeeze axes.head?)
  | "unsqueeze", [axis] => some (·.unsqueeze axis)
  | "flatten", [] => some flatten
  | "contiguous", [] => some contiguous
  | _, _ => none

end Tensor

end LazyTensor

import LazyTensor.Expr.Build
import LazyTensor.Tensor.Elementwise

/-!
Reductions of tensors along axes, and products of matrices.
-/

namespace LazyTensor

namespace Tensor

/-- The axes to reduce, each once and in order; none stands for all of them. -/
def resolveAxes (rank : Nat) : Option (List Int) → Except TensorError (List Nat)
  | none => .ok (List.range rank)
  | some axes => Expr.sortedAxes <$> resolveEach rank axes

/-- The type in which a reduction is carried out: truth values are counted. -/
def accumulatorType : ReduceOp → DType → DType
  | .sum, t => if t.isBool then .int32 else t
  | .max, t => t

def dropAxes (shape : Shape) (axes : List Nat) : Shape :=
  (shape.zipIdx.filter fun (_, i) => !axes.contains i).map (·.1)

variable [Width]

def reduce (t : Tensor) (op : ReduceOp) (axes : Option (List Int)) (keep : Bool)
    (dtype : Option DType) : TensorM Tensor := do
  let axes ← resolveAxes (← t.rank) axes
  let working ← t.cast (dtype.getD (accumulatorType op (← t.dtype)))
  if axes.isEmpty then return working
  let n := (← get).node working
  let reduced ← insert { op := .reduce op axes working, dtype := n.dtype, device := n.device,
                         shape := Expr.reducedShape n.shape axes }
  if keep then return reduced else reduced.reshapeTo (dropAxes (← reduced.shape) axes)

def sum (t : Tensor) (axes : Option (List Int)) (keep : Bool)
    (dtype : Option DType) : TensorM Tensor :=
  t.reduce .sum axes keep dtype

def max (t : Tensor) (axes : Option (List Int)) (keep : Bool) : TensorM Tensor :=
  t.reduce .max axes keep none

def min (t : Tensor) (axes : Option (List Int)) (keep : Bool) : TensorM Tensor := do
  t.require (fun d => d.isFloat || d.isSigned) "min"
  (← (← t.neg).max axes keep).neg

def mean (t : Tensor) (axes : Option (List Int)) (keep : Bool) : TensorM Tensor := do
  let shape ← t.shape
  let reduced ← resolveAxes shape.length axes
  let some count := (SymInt.prod (reduced.map fun i => shape.getD i 1)).asConst?
    | throw (.symbolicShape "mean")
  let own ← t.dtype
  let total ← t.sum axes keep (some (if own.isFloat then own else .float32))
  total.div (← total.constLike (.float (.ofInt 53 count)))

/-- The product of two matrices; a vector counts as a row on the left and a column on the right. -/
def dot (a b : Tensor) (dtype : Option DType) : TensorM Tensor := do
  let l ← a.shape
  let r ← b.shape
  let isFactor := fun (s : Shape) => s.length = 1 ∨ s.length = 2
  unless isFactor l ∧ isFactor r ∧ l.getLast? = r[r.length - 2]? do throw (.dotShapes l r)
  let rows ← if l.length = 1 then a.unsqueeze 0 else pure a
  let columns ← if r.length = 1 then b.unsqueeze 1 else pure b
  let rows ← rows.unsqueeze 1
  let columns ← (← columns.transpose 0 1).unsqueeze 0
  let product ← (← rows.mul columns).sum (some [-1]) false dtype
  let product ← if l.length = 1 then product.squeeze (some 0) else pure product
  if r.length = 1 then product.squeeze (some (-1)) else return product

def reduceNamed? : String →
    Option (Tensor → Option (List Int) → Bool → Option DType → TensorM Tensor)
  | "sum" => some sum
  | "max" => some fun t axes keep _ => t.max axes keep
  | "min" => some fun t axes keep _ => t.min axes keep
  | "mean" => some fun t axes keep _ => t.mean axes keep
  | _ => none

end Tensor

end LazyTensor

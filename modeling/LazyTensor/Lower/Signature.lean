import LazyTensor.Expr.Build
import LazyTensor.Kernel.Error

/-!
What a kernel needs to know of its tree before it is built: the stores, the arguments, and the shape
and axes of its reductions.
-/

namespace LazyTensor

structure GlobalArg where
  slot : Nat
  dtype : DType
  written : Bool
  deriving DecidableEq

namespace Lower

/-- The stores of a kernel, of which there has to be one, all with the same shape. -/
def checkedStores (e : Expr) : Except CompileError (List Nat × Shape) := do
  match e.stores with
  | [] => throw (.invalidRoot e.text)
  | first :: rest =>
    let shape := (e.node first).shape
    match rest.find? fun s => (e.node s).shape ≠ shape with
    | some s => throw (.outputShape shape (e.node s).shape)
    | none => return (first :: rest, shape)

def joinReduce (e : Expr) (output : Shape) (found : Option (Shape × List Nat)) (n : ExprNode) :
    Except CompileError (Option (Shape × List Nat)) :=
  match n.op with
  | .reduce _ axes a =>
    let reduced := (e.node a).shape
    match found with
    | none =>
      if n.shape = output then .ok (some (reduced, axes)) else .error (.outputShape output n.shape)
    | some (shape, expected) =>
      if shape = reduced ∧ expected = axes then .ok found
      else .error (.reduceMismatch axes reduced expected)
  | _ => .ok found

/-- The shape that is reduced and the reduced axes, on which all reductions have to agree. -/
def reduceSignature (e : Expr) (output : Shape) : Except CompileError (Shape × List Nat) := do
  return ((← e.nodes.toList.foldlM (joinReduce e output) none).getD (output, []))

def useArg (slot : Nat) (t : DType) (written : Bool) (args : List GlobalArg) : List GlobalArg :=
  match args with
  | [] => [⟨slot, t, written⟩]
  | a :: rest =>
    if slot < a.slot then ⟨slot, t, written⟩ :: a :: rest
    else if slot = a.slot then { a with written := a.written || written } :: rest
    else a :: useArg slot t written rest

def collectArg (args : List GlobalArg) (n : ExprNode) : List GlobalArg :=
  match n.op with
  | .load slot _ => useArg slot n.dtype false args
  | .store slot _ _ => useArg slot n.dtype true args
  | _ => args

/-- The arguments of a kernel by slot; the first use of a slot gives its type. -/
def collectArgs (e : Expr) : List GlobalArg := e.nodes.toList.foldl collectArg []

end Lower

end LazyTensor

import LazyTensor.Movement
import LazyTensor.Tensor.Error

/-!
Tensors as nodes of a graph that is computed when its values are asked for.

A movement computes nothing: a view pairs a base with a layout, and a movement of a view is another
view of the same base. Every other node is a base, and a base that has been computed has a buffer.
-/

namespace LazyTensor

/-- A tensor is named by the number of its node. -/
abbrev Tensor := Nat

inductive TensorOp where
  | buffer
  | const (value : Value)
  | view (base : Tensor) (layout : Layout)
  | unary (op : UnaryOp) (a : Tensor)
  | binary (op : BinaryOp) (a b : Tensor)
  | ternary (op : TernaryOp) (a b c : Tensor)
  | cast (a : Tensor)
  /-- Keeps the reduced axes with size 1. -/
  | reduce (op : ReduceOp) (axes : List Nat) (a : Tensor)
  | contiguous (a : Tensor)
  /-- Writes a value into the buffer behind the target. -/
  | assign (target value : Tensor)
  deriving DecidableEq

namespace TensorOp

def sources : TensorOp → List Tensor
  | buffer | const _ => []
  | view a _ | unary _ a | cast a | reduce _ _ a | contiguous a => [a]
  | binary _ a b => [a, b]
  | ternary _ a b c => [a, b, c]
  | assign target value => [target, value]

def isView : TensorOp → Bool
  | view .. => true
  | _ => false

def isConst : TensorOp → Bool
  | const _ => true
  | _ => false

def isReduce : TensorOp → Bool
  | reduce .. => true
  | _ => false

def label : TensorOp → String
  | buffer => "BUFFER"
  | const v => "CONST " ++ v.text
  | view .. => "VIEW"
  | unary op _ => op.name
  | binary op _ _ => op.name
  | ternary op _ _ _ => op.name
  | cast _ => "CAST"
  | reduce op axes _ => "REDUCE " ++ op.name ++ " " ++ listText (axes.map toString)
  | contiguous _ => "CONTIGUOUS"
  | assign .. => "ASSIGN"

def suffix : TensorOp → String
  | view _ layout => " " ++ layout.text
  | _ => ""

end TensorOp

structure TensorNode where
  op : TensorOp
  dtype : DType
  device : Device
  shape : Shape
  storage : Option BufferId := none
  deriving DecidableEq

instance : Inhabited TensorNode := ⟨⟨.buffer, .void, .cpu, [], none⟩⟩

structure Session where
  nodes : Array TensorNode := #[]
  memory : Memory := {}

/-- An action on tensors; nodes and buffers made before an error stay. -/
abbrev TensorM := ExceptT TensorError (StateM Session)

namespace Session

def node (s : Session) (t : Tensor) : TensorNode := s.nodes.getD t default

def op (s : Session) (t : Tensor) : TensorOp := (s.node t).op

def shape (s : Session) (t : Tensor) : Shape := (s.node t).shape

def dtype (s : Session) (t : Tensor) : DType := (s.node t).dtype

def storage (s : Session) (t : Tensor) : Option BufferId := (s.node t).storage

def isStored (s : Session) (t : Tensor) : Bool := (s.storage t).isSome

/-- The node that a view looks at; any other node itself. -/
def base (s : Session) (t : Tensor) : Tensor :=
  match s.op t with
  | .view base _ => base
  | _ => t

def isView (s : Session) (t : Tensor) : Bool := (s.op t).isView

/-- Whether the values are in a buffer, in order and without gaps. -/
def isRealized (s : Session) (t : Tensor) : Bool := !s.isView t && s.isStored t

def setStorage (s : Session) (t : Tensor) (id : BufferId) : Session :=
  { s with nodes := s.nodes.modify t fun n => { n with storage := some id } }

def describe (s : Session) (t : Tensor) (number : Tensor → Nat) (bufferNumber : BufferId → Nat) :
    String :=
  let n := s.node t
  let ref := fun (a : Tensor) => s!"%{number a}"
  let stored := match n.storage with
    | some id =>
      match s.memory.get? id with
      | some b => " @ " ++ b.text (bufferNumber id)
      | none => ""
    | none => ""
  "Tensor \x7b lazy: " ++ ref t ++ " = "
    ++ String.intercalate " " (n.op.label :: n.op.sources.map ref) ++ n.op.suffix
    ++ " : " ++ n.dtype.text ++ " " ++ shapeText n.shape ++ stored ++ " \x7d"

def layout [Width] (s : Session) (t : Tensor) : Layout :=
  match s.op t with
  | .view _ layout => layout
  | _ => .ofShape (s.shape t)

def size [Width] (s : Session) (t : Tensor) : SymInt := SymInt.prod (s.shape t)

end Session

namespace Tensor

def shape (t : Tensor) : TensorM Shape := return (← get).shape t

def dtype (t : Tensor) : TensorM DType := return (← get).dtype t

def rank (t : Tensor) : TensorM Nat := return (← t.shape).length

def insert (n : TensorNode) : TensorM Tensor :=
  modifyGet fun s => (s.nodes.size, { s with nodes := s.nodes.push n })

def ofValues (t : ScalarType) (vs : List Value) : TensorM Tensor := do
  let b := Buffer.ofValues t vs
  let id ← modifyGet fun s =>
    let (id, memory) := s.memory.insert b
    (id, { s with memory })
  insert ⟨.buffer, b.dtype, b.device, [.const vs.length], some id⟩

def full (shape : Shape) (v : Value) (t : DType) : TensorM Tensor :=
  insert { op := .const (v.normalize t), dtype := t, device := .cpu, shape }

def zeros (shape : Shape) (t : DType) : TensorM Tensor := full shape (.zero t.base) t

def ones (shape : Shape) (t : DType) : TensorM Tensor := full shape (.one t.base) t

def constLike (t : Tensor) (v : Value) : TensorM Tensor := do full (← t.shape) v (← t.dtype)

def like (t : Tensor) (op : TensorOp) (dtype : DType) : TensorM Tensor := do
  let n := (← get).node t
  insert { op, dtype, device := n.device, shape := n.shape }

def contiguous (t : Tensor) : TensorM Tensor := do t.like (.contiguous t) (← t.dtype)

/-- Writes `value` where `t` is stored, when the result is asked for. -/
def assign (t value : Tensor) : TensorM Tensor := do
  let s ← get
  if s.isStored (s.base t) then t.like (.assign t value) (← t.dtype) else throw .assignTarget

def cast (t : Tensor) (dtype : DType) : TensorM Tensor := do
  if (← t.dtype) = dtype then return t else t.like (.cast t) dtype

/-- The sizes, which have to be numbers; as sizes, words have no sign. -/
def dims (t : Tensor) : TensorM (List Nat) := do
  match concreteShape? (← t.shape) with
  | some dims => return dims.map (wrapUnsigned 64)
  | none => throw (.symbolicShape "dims")

/-- A movement. What moves back to the whole base is the base. -/
def move [Width] (t : Tensor) (m : Movement) : TensorM Tensor := do
  let s ← get
  match (s.layout t).apply m with
  | .error e => throw (.build e)
  | .ok layout =>
    let base := s.base t
    let n := s.node base
    if layout.isContiguous ∧ layout.shape = n.shape then return base
    else insert { op := .view base layout, dtype := n.dtype, device := n.device,
                  shape := layout.shape }

end Tensor

end LazyTensor

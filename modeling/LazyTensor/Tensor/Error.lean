import LazyTensor.Kernel.Error
import LazyTensor.Machine.Error

/-!
What can go wrong with tensors: in building their graph, in scheduling it and in running it.
-/

namespace LazyTensor

inductive TensorError where
  | build (e : BuildError)
  | compile (e : CompileError)
  | machine (e : MachineError)
  | device (e : BufferError)
  | axisRange (axis : Int) (rank : Nat)
  | permutation (axes : List Int)
  | manyInferred
  | negativeDimension (dim : Int)
  | inferDimension (shape : List Int) (count : Nat)
  | symbolicShape (operation : String)
  | broadcast (lhs rhs : List SymInt)
  | unsupportedType (operation : String) (dtype : DType)
  | dotShapes (lhs rhs : List SymInt)
  | assignTarget
  | notRealized
  | storeShape (buffer : BufferId) (expected actual : List SymInt)
  | storeType (buffer : BufferId) (expected actual : DType)
  /-- An assignment reads what it overwrites from other places. -/
  | assignAliasing (buffer : BufferId)
  | conflictingBinding (name : String) (first second : Int)
  | cyclicSchedule (remaining : Nat)
  | invariant (reason : String)
  deriving DecidableEq

namespace TensorError

def dimsText (dims : List Int) : String := listText (dims.map toString)

def message (bufferName : BufferId → String) : TensorError → String
  | build e => "IR operation error: " ++ e.message
  | compile e => "kernel compilation failed: " ++ e.message
  | machine e => "kernel execution failed: " ++ e.message
  | device e => "device error: " ++ e.message
  | axisRange axis rank => s!"axis {axis} is out of range for tensor with {rank} dimensions"
  | permutation axes =>
    "invalid permutation: axes " ++ dimsText axes ++ " is not a valid permutation"
  | manyInferred => "multiple -1 dimensions in reshape are not allowed"
  | negativeDimension dim =>
    s!"negative dimension {dim} is not allowed (except -1 for inference)"
  | inferDimension shape count =>
    "cannot infer a dimension of " ++ dimsText shape ++ s!" from {count} elements"
  | symbolicShape operation => "operation '" ++ operation ++ "' does not support symbolic shapes"
  | broadcast l r =>
    "shapes " ++ shapeText l ++ " and " ++ shapeText r ++ " cannot be broadcast together"
  | unsupportedType operation t => operation ++ " is not defined for " ++ t.text
  | dotShapes l r =>
    "matmul shape mismatch: cannot multiply " ++ shapeText l ++ " and " ++ shapeText r
  | assignTarget => "assign target must be a realized buffer or a view of one"
  | notRealized => "tensor has no realized buffer"
  | storeShape b expected actual =>
    "store into buffer " ++ bufferName b ++ " has shape " ++ shapeText actual ++ ", expected "
      ++ shapeText expected
  | storeType b expected actual =>
    "store into buffer " ++ bufferName b ++ " has dtype " ++ actual.text ++ ", expected "
      ++ expected.text
  | assignAliasing b =>
    "assign into buffer " ++ bufferName b ++ " reads the target through a non-identity view"
  | conflictingBinding name first second =>
    s!"variable {name} is bound to both {first} and {second}"
  | cyclicSchedule remaining => s!"schedule has a dependency cycle through {remaining} kernels"
  | invariant reason => "scheduler invariant violated: " ++ reason

def code : TensorError → String
  | build e => "Ir/" ++ e.code
  | compile e => "Compile/" ++ e.code
  | machine e => "Runtime/" ++ e.code
  | device e => "Device/" ++ e.code
  | axisRange .. => "AxisOutOfRange"
  | permutation _ => "InvalidPermutation"
  | manyInferred => "MultipleInferDimensions"
  | negativeDimension _ => "NegativeDimension"
  | inferDimension .. => "InferDimension"
  | symbolicShape _ => "SymbolicShapeUnsupported"
  | broadcast .. => "BroadcastMismatch"
  | unsupportedType .. => "UnsupportedDType"
  | dotShapes .. => "DotShapeMismatch"
  | assignTarget => "AssignTarget"
  | notRealized => "NotRealized"
  | storeShape .. => "StoreShapeMismatch"
  | storeType .. => "StoreDTypeMismatch"
  | assignAliasing _ => "AssignAliasing"
  | conflictingBinding .. => "ConflictingBinding"
  | cyclicSchedule _ => "CyclicSchedule"
  | invariant _ => "Invariant"

def namesPosition : TensorError → Bool
  | machine e => e.namesPosition
  | _ => false

end TensorError

end LazyTensor

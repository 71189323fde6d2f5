import LazyTensor.Config
import LazyTensor.Lower.Address
import LazyTensor.Lower.Signature

/-!
The loops, coordinates and arguments of a kernel.
-/

namespace LazyTensor

namespace Lower

structure Frame where
  /-- Coordinates inside a reduction, where reduced axes have loops. -/
  full : List Ref
  /-- Coordinates of the output, where reduced axes are at zero. -/
  output : List Ref
  reduceLoops : List Ref
  buffers : List (Nat × Ref)

namespace Frame

def coords (f : Frame) (reducing : Bool) : List Ref := if reducing then f.full else f.output

def buffer (f : Frame) (slot : Nat) : Ref := (f.buffers.lookup slot).getD 0

end Frame

def outputCoord (dims : GlobalDims) (origin : Ref) (axis : Nat) (dim : SymInt) : Build Ref := do
  if dim = 1 then return origin
  else
    let size ← Address.symInt dim
    match dims with
    | .loops => Build.loop origin size ⟨.global, axis⟩
    | .launch => Build.special axis size

def outputCoords (dims : GlobalDims) (origin : Ref) (shape : Shape) : Build (List Ref) :=
  shape.zipIdx.mapM fun (dim, axis) => outputCoord dims origin axis dim

/-- Gives a reduced axis a loop, unless it has one element. -/
def addReduceLoop (origin : Ref) (full : Shape) (f : Frame) (axis : Nat) : Build Frame := do
  let dim := full.getD axis 1
  if dim = 1 then return f
  else
    let range ← Build.loop origin (← Address.symInt dim) ⟨.reduce, axis⟩
    return { f with full := f.full.set axis range, reduceLoops := f.reduceLoops ++ [range] }

def frame (dims : GlobalDims) (args : List GlobalArg) (output full : Shape) (axes : List Nat) :
    Build Frame := do
  let buffers ← args.mapM fun a => do
    return (a.slot, ← (Build.global a.slot a.dtype : GraphM Ref))
  let origin ← Address.index 0
  let coords ← outputCoords dims origin output
  axes.foldlM (addReduceLoop origin full) ⟨coords, coords, [], buffers⟩

/-- The loops' accumulator in a slot, updated by the value and read at the end. -/
def accumulate (f : Frame) (slot : Nat) (op : ReduceOp) (t : DType) (value : Ref) : Build Ref := do
  let acc ← (Build.accumulator slot (op.identity t.base) t f.reduceLoops : GraphM Ref)
  Build.phi acc (← Build.binary op.combine acc value) f.reduceLoops

end Lower

end LazyTensor

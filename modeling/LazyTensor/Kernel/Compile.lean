import LazyTensor.Kernel.Cost
import LazyTensor.Linear.Emit
import LazyTensor.Lower.Kernel
import LazyTensor.Simplify.Table

/-!
Kernels: an operation tree lowered, simplified and put into a list.
-/

namespace LazyTensor

structure Kernel where
  name : String
  instrs : Array Instr
  globals : List GlobalArg
  vars : List SymVar
  key : List Instr
  cost : Cost

namespace Kernel

def nameOf (initial : String) (shape : Shape) : String :=
  initial ++ String.join (shape.map fun d => "_" ++ d.text)

def var? (i : Instr) : Option SymVar :=
  match i.op with
  | .defineVar v => some v
  | _ => none

def varsOf (is : Array Instr) : List SymVar := insertElems SymVar.cmp (is.toList.filterMap var?) []

def simplified (k : LoweredKernel) (config : CompileConfig) : Except CompileError (Graph × Ref) :=
  match (normalize (.kernel config.hoisting) config.maxPasses k.sink).run k.graph with
  | (.ok sink, g) => .ok (g, sink)
  | (.error e, _) => .error (.build e)

def compile [Width] (e : Expr) (config : CompileConfig) (hash : NodeHash := fun _ _ => 0) :
    Except CompileError Kernel := do
  let lowered ← lower e config
  let (g, sink) ← simplified lowered config
  let instrs ← linearize g sink hash
  if config.verify then verifyTypes instrs
  return {
    name := if lowered.reduceAxes.isEmpty then nameOf "E" lowered.outputShape
      else nameOf "r" lowered.fullShape
    instrs
    globals := lowered.globals
    vars := varsOf instrs
    key := g.numbered sink
    cost := estimate instrs }

end Kernel

end LazyTensor

import LazyTensor.Error
import LazyTensor.Text.Quoted

/-!
What can go wrong while an operation tree becomes a kernel.
-/

namespace LazyTensor

inductive CompileError where
  | build (e : BuildError)
  | invalidRoot (found : String)
  | reduceMismatch (axes : List Nat) (shape : List SymInt) (expected : List Nat)
  | outputShape (expected actual : List SymInt)
  | unsupported (what : String)
  | missingSink
  | unclosedScope (scope : Nat)
  | misnestedScope (position scope : Nat)
  | accumulatorAfterLoop (acc range : Nat)
  | sourceNotEmitted (position operand : Nat)
  | scopeConflict (node : Nat)
  | stalled (remaining : Nat)
  | typeCheck (position : Nat) (reason : String)
  deriving DecidableEq

namespace CompileError

def quotedShape (shape : List SymInt) : String :=
  listText (shape.map fun d => Text.quoted d.text)

def axesText (axes : List Nat) : String := listText (axes.map toString)

def message : CompileError → String
  | build e => "IR error: " ++ e.message
  | invalidRoot found => "kernel root must be a sink of stores, found " ++ found
  | reduceMismatch axes shape expected =>
    "reduce over " ++ axesText axes ++ " of " ++ quotedShape shape
      ++ " conflicts with kernel reduce over " ++ axesText expected
  | outputShape expected actual =>
    "store of shape " ++ quotedShape actual ++ " does not match kernel output shape "
      ++ quotedShape expected
  | unsupported what => what ++ " is not supported by the linearizer"
  | missingSink => "instruction list does not end on the sink"
  | unclosedScope scope => s!"scope opened at {scope} is never closed"
  | misnestedScope position scope =>
    s!"end marker at {position} closes {scope}, which is not the innermost open scope"
  | accumulatorAfterLoop acc range =>
    s!"accumulator at {acc} is emitted after its loop at {range}"
  | sourceNotEmitted position operand =>
    s!"instruction {position} reads {operand}, which is not emitted before it"
  | scopeConflict node => s!"node {node} sits in scopes that do not nest"
  | stalled remaining => s!"linearization stalled with {remaining} nodes left"
  | typeCheck position reason => s!"type error at instruction {position}: {reason}"

def code : CompileError → String
  | build e => "Ir/" ++ e.code
  | invalidRoot _ => "InvalidKernelRoot"
  | reduceMismatch .. => "ReduceMismatch"
  | outputShape .. => "OutputShapeMismatch"
  | unsupported _ => "Unsupported"
  | missingSink => "MissingSink"
  | unclosedScope _ => "UnclosedScope"
  | misnestedScope .. => "MisnestedScope"
  | accumulatorAfterLoop .. => "AccumulatorAfterLoop"
  | sourceNotEmitted .. => "SourceNotEmitted"
  | scopeConflict _ => "ScopeConflict"
  | stalled _ => "Stalled"
  | typeCheck .. => "TypeCheck"

end CompileError

end LazyTensor

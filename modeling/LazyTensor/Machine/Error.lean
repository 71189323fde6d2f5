import LazyTensor.Buffer

/-!
What can go wrong when a kernel runs.
-/

namespace LazyTensor

inductive MachineError where
  | device (e : BufferError)
  | argumentCount (kernel : String) (expected actual : Nat)
  | argumentType (slot : Nat) (expected actual : DType)
  | unboundVariable (name : String)
  | outOfBounds (slot : Nat) (index : Int) (size : Nat)
  /-- An operation without a result, such as division by zero. -/
  | evaluation (position : Nat) (op : String)
  | malformed (position : Nat) (reason : String)
  deriving DecidableEq

def MachineError.message : MachineError → String
  | device e => "device error: " ++ e.message
  | argumentCount kernel expected actual =>
    "kernel " ++ kernel ++ s!" takes {expected} buffers, got {actual}"
  | argumentType slot expected actual =>
    s!"buffer for slot {slot} holds " ++ actual.text ++ ", kernel expects " ++ expected.text
  | unboundVariable name => "variable '" ++ name ++ "' is not bound"
  | outOfBounds slot index size =>
    s!"index {index} out of bounds for slot {slot} with {size} elements"
  | evaluation position op => s!"instruction {position} (" ++ op ++ ") has no defined result"
  | malformed position reason => s!"malformed kernel at instruction {position}: " ++ reason

def MachineError.code : MachineError → String
  | device e => "Device/" ++ e.code
  | argumentCount .. => "ArgumentCount"
  | argumentType .. => "ArgumentDType"
  | unboundVariable _ => "UnboundVariable"
  | outOfBounds .. => "OutOfBounds"
  | evaluation .. => "Evaluation"
  | malformed .. => "Malformed"

def MachineError.namesPosition : MachineError → Bool
  | evaluation .. | malformed .. => true
  | _ => false

end LazyTensor

import LazyTensor.Number.Numeral

/-!
Devices and their names.
-/

namespace LazyTensor

inductive Device where
  | cpu
  | cuda (id : Nat)
  | metal (id : Nat)
  deriving DecidableEq, Repr

namespace Device

def text : Device → String
  | cpu => "CPU"
  | cuda id => "CUDA:" ++ toString id
  | metal id => "METAL:" ++ toString id

def details : Device → String
  | cpu => "Cpu"
  | cuda id => "Cuda \x7b device_id: " ++ toString id ++ " \x7d"
  | metal id => "Metal \x7b device_id: " ++ toString id ++ " \x7d"

inductive NameError where
  | unknown (name : String)
  | badNumber (name : String) (reason : NumeralError)
  deriving DecidableEq, Repr

def NameError.message : NameError → String
  | unknown name => "unknown device: " ++ name
  | badNumber name reason => name ++ ": " ++ reason.message

/-- Reads a device name, in any case, with an optional number after the first colon. -/
def parse (s : String) : Except NameError Device :=
  let upper := s.toList.map Char.toUpper
  let name := String.ofList (upper.takeWhile (· != ':'))
  let number : Except NameError Nat :=
    match upper.dropWhile (· != ':') with
    | [] => .ok 0
    | _ :: rest =>
      match readNumeral (String.ofList rest) with
      | .ok n => .ok n
      | .error reason => .error (.badNumber s reason)
  match number with
  | .error e => .error e
  | .ok id =>
    if name == "CPU" || name == "CLANG" then .ok .cpu
    else if name == "CUDA" || name == "GPU" then .ok (.cuda id)
    else if name == "METAL" then .ok (.metal id)
    else .error (.unknown s)

end Device

end LazyTensor

import LazyTensor.DType
import LazyTensor.Number.Shortest
import LazyTensor.Number.Wrap
import LazyTensor.Operation

/-!
Constants of the element types, and their conversion between types.

Integers are stored at 64 bits. Conversion to a narrower integer type keeps the residue; a float
goes to the nearest representable integer toward zero, an unsigned target being reached through the
signed 64-bit range.
-/

namespace LazyTensor

inductive Value where
  | int (v : Int)
  | uint (v : Nat)
  | float (v : Binary64)
  | bool (v : Bool)
  deriving DecidableEq, Inhabited

namespace Value

def zero : ScalarType → Value
  | .bool => bool false
  | .uint8 | .uint16 | .uint32 | .uint64 => uint 0
  | .float32 | .float64 => float .zero
  | .int8 | .int16 | .int32 | .int64 | .index | .void => int 0

def one : ScalarType → Value
  | .bool => bool true
  | .uint8 | .uint16 | .uint32 | .uint64 => uint 1
  | .float32 | .float64 => float .one
  | .int8 | .int16 | .int32 | .int64 | .index | .void => int 1

/-- The least value of a type, negative infinity for floats. -/
def least : ScalarType → Value
  | .bool => bool false
  | .uint8 | .uint16 | .uint32 | .uint64 => uint 0
  | .float32 | .float64 => float .negInfinity
  | .int8 => int (-128)
  | .int16 => int (-32768)
  | .int32 => int (-2147483648)
  | .int64 | .index | .void => int (-9223372036854775808)

def isZero : Value → Bool
  | int v => v == 0
  | uint v => v == 0
  | float v => v.numEq .zero
  | bool v => !v

def isOne : Value → Bool
  | int v => v == 1
  | uint v => v == 1
  | float v => v.numEq .one
  | bool v => v

def truthy (v : Value) : Bool := !v.isZero

def toInt? : Value → Option Int
  | int v => some v
  | uint v => if v < 9223372036854775808 then some (v : Int) else none
  | bool v => some (if v then 1 else 0)
  | float _ => none

/-- The number as a float, an integer being rounded once to `precision` bits. -/
def toBinary64 (precision : Nat) : Value → Binary64
  | int v => .ofInt precision v
  | uint v => .ofInt precision v
  | float v => v
  | bool v => if v then .one else .zero

def toSigned (bits : Nat) : Value → Int
  | int v => wrapSigned bits v
  | uint v => wrapSigned bits v
  | float v => v.truncate (-(Nat.pow 2 (bits - 1) : Int)) ((Nat.pow 2 (bits - 1) : Int) - 1)
  | bool v => if v then 1 else 0

def toUnsigned (bits : Nat) : Value → Nat
  | int v => wrapUnsigned bits v
  | uint v => wrapUnsigned bits v
  | float v => wrapUnsigned bits (v.truncate (-9223372036854775808) 9223372036854775807)
  | bool v => if v then 1 else 0

def castTo (v : Value) : ScalarType → Option Value
  | .void => none
  | .bool => some (bool v.truthy)
  | .int8 => some (int (v.toSigned 8))
  | .int16 => some (int (v.toSigned 16))
  | .int32 => some (int (v.toSigned 32))
  | .int64 | .index => some (int (v.toSigned 64))
  | .uint8 => some (uint (v.toUnsigned 8))
  | .uint16 => some (uint (v.toUnsigned 16))
  | .uint32 => some (uint (v.toUnsigned 32))
  | .uint64 => some (uint (v.toUnsigned 64))
  | .float32 => some (float (v.toBinary64 24).toSingle)
  | .float64 => some (float (v.toBinary64 53))

def cast (v : Value) (t : DType) : Option Value := t.scalar?.bind v.castTo

/-- The value as a constant of type `t`; unchanged where `t` has no values. -/
def normalize (v : Value) (t : DType) : Value := (v.cast t).getD v

/-- Equality of the numbers: floats compare by value, and kinds are kept apart. -/
def numEq : Value → Value → Bool
  | int a, int b => a == b
  | uint a, uint b => a == b
  | float a, float b => a.numEq b
  | bool a, bool b => a == b
  | _, _ => false

def text : Value → String
  | int v => toString v
  | uint v => toString v ++ "u"
  | float v => v.text
  | bool v => if v then "true" else "false"

end Value

def ReduceOp.identity : ReduceOp → ScalarType → Value
  | .sum => Value.zero
  | .max => Value.least

end LazyTensor

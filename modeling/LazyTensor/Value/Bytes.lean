import LazyTensor.Value.Basic

/-!
Elements in memory, little-endian.
-/

namespace LazyTensor

/-- The low `width` bytes of `n`, least significant first. -/
def bytesOfNat : (width : Nat) → Nat → List UInt8
  | 0, _ => []
  | width + 1, n => (n % 256).toUInt8 :: bytesOfNat width (n / 256)

def natOfBytes : List UInt8 → Nat
  | [] => 0
  | b :: rest => b.toNat + 256 * natOfBytes rest

namespace Value

def encode (t : ScalarType) (v : Value) : Option (List UInt8) :=
  match t, v with
  | .bool, bool b => some [if b then 1 else 0]
  | .int8, int x | .int16, int x | .int32, int x | .int64, int x | .index, int x =>
    some (bytesOfNat t.bytes (wrapUnsigned t.bits x))
  | .uint8, uint x | .uint16, uint x | .uint32, uint x | .uint64, uint x =>
    some (bytesOfNat t.bytes x)
  | .float32, float x => some (bytesOfNat 4 x.singleBits)
  | .float64, float x => some (bytesOfNat 8 x.bits.toNat)
  | _, _ => none

def decode (t : ScalarType) (bytes : List UInt8) : Option Value :=
  match t with
  | .void => none
  | .bool => some (bool (bytes.headD 0 != 0))
  | .int8 | .int16 | .int32 | .int64 | .index => some (int (wrapSigned t.bits (natOfBytes bytes)))
  | .uint8 | .uint16 | .uint32 | .uint64 => some (uint (natOfBytes bytes))
  | .float32 => some (float (.ofSingleBits (natOfBytes bytes)))
  | .float64 => some (float ⟨(natOfBytes bytes).toUInt64⟩)

/-- Values of type `t` one after the other; a value of another kind is left out. -/
def encodeAll (t : ScalarType) (vs : List Value) : List UInt8 :=
  vs.flatMap fun v => ((v.castTo t).bind (encode t)).getD []

/-- As many values of type `t` as fill the bytes; what is left over at the end is dropped. -/
def decodeAll (t : ScalarType) (bytes : Array UInt8) : List Value :=
  (List.range (bytes.size / t.bytes)).filterMap fun i =>
    decode t (bytes.extract (i * t.bytes) ((i + 1) * t.bytes)).toList

end Value

end LazyTensor

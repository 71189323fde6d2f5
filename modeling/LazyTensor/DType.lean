/-!
Element types and pointers to elements.
-/

namespace LazyTensor

inductive ScalarType where
  | bool
  | int8
  | uint8
  | int16
  | uint16
  | int32
  | uint32
  | int64
  | uint64
  | float32
  | float64
  /-- The type of an instruction that produces no value. -/
  | void
  | index
  deriving DecidableEq, Repr

namespace ScalarType

def all : List ScalarType :=
  [bool, int8, uint8, int16, uint16, int32, uint32, int64, uint64, float32, float64, void, index]

def ofCode? (n : Nat) : Option ScalarType := all[n]?

def bytes : ScalarType → Nat
  | bool | int8 | uint8 => 1
  | int16 | uint16 => 2
  | int32 | uint32 | float32 => 4
  | int64 | uint64 | float64 | index => 8
  | void => 0

def bits (s : ScalarType) : Nat := 8 * s.bytes

def isBool : ScalarType → Bool
  | bool => true
  | _ => false

def isSigned : ScalarType → Bool
  | int8 | int16 | int32 | int64 => true
  | _ => false

def isUnsigned : ScalarType → Bool
  | uint8 | uint16 | uint32 | uint64 => true
  | _ => false

def isInt : ScalarType → Bool
  | index => true
  | s => s.isSigned || s.isUnsigned

def isFloat : ScalarType → Bool
  | float32 | float64 => true
  | _ => false

def name : ScalarType → String
  | bool => "bool"
  | int8 => "i8"
  | uint8 => "u8"
  | int16 => "i16"
  | uint16 => "u16"
  | int32 => "i32"
  | uint32 => "u32"
  | int64 => "i64"
  | uint64 => "u64"
  | float32 => "f32"
  | float64 => "f64"
  | void => "void"
  | index => "idx"

def ofName? (s : String) : Option ScalarType := all.find? fun t => t.name == s

def longName : ScalarType → String
  | bool => "Bool"
  | int8 => "Int8"
  | uint8 => "UInt8"
  | int16 => "Int16"
  | uint16 => "UInt16"
  | int32 => "Int32"
  | uint32 => "UInt32"
  | int64 => "Int64"
  | uint64 => "UInt64"
  | float32 => "Float32"
  | float64 => "Float64"
  | void => "Void"
  | index => "Index"

def cName : ScalarType → String
  | bool => "bool"
  | int8 => "signed char"
  | uint8 => "unsigned char"
  | int16 => "short"
  | uint16 => "unsigned short"
  | int32 => "int"
  | uint32 => "unsigned int"
  | int64 => "long"
  | uint64 => "unsigned long"
  | float32 => "float"
  | float64 => "double"
  | void => "void"
  | index => "long"

end ScalarType

inductive AddressSpace where
  | global
  | shared
  | register
  deriving DecidableEq, Repr

namespace AddressSpace

def name : AddressSpace → String
  | global => "Global"
  | shared => "Local"
  | register => "Reg"

def cName : AddressSpace → String
  | global => "__global"
  | shared => "__local"
  | register => "__register"

end AddressSpace

inductive DType where
  | scalar (s : ScalarType)
  | pointer (base : ScalarType) (space : AddressSpace) (size : Option Nat)
  deriving DecidableEq, Repr

namespace DType

abbrev bool : DType := .scalar .bool
abbrev int32 : DType := .scalar .int32
abbrev float32 : DType := .scalar .float32
abbrev void : DType := .scalar .void
abbrev index : DType := .scalar .index

def base : DType → ScalarType
  | scalar s => s
  | pointer b _ _ => b

/-- A pointer to a pointer points at the elements of the latter. -/
def toPointer (t : DType) (size : Option Nat) (space : AddressSpace) : DType :=
  .pointer t.base space size

def scalar? : DType → Option ScalarType
  | scalar s => some s
  | pointer .. => none

def pointee? : DType → Option DType
  | scalar _ => none
  | pointer b _ _ => some (.scalar b)

def isPointer : DType → Bool
  | scalar _ => false
  | pointer .. => true

def bytes : DType → Nat
  | scalar s => s.bytes
  | pointer .. => 8

def holds (p : ScalarType → Bool) : DType → Bool
  | scalar s => p s
  | pointer .. => false

def isBool : DType → Bool := holds ScalarType.isBool
def isSigned : DType → Bool := holds ScalarType.isSigned
def isUnsigned : DType → Bool := holds ScalarType.isUnsigned
def isInt : DType → Bool := holds ScalarType.isInt
def isFloat : DType → Bool := holds ScalarType.isFloat

def text : DType → String
  | scalar s => s.name
  | pointer b .global _ => b.name ++ "*"
  | pointer b space _ => b.name ++ "*" ++ space.name

def cName : DType → String
  | scalar s => s.cName
  | pointer b space _ => space.cName ++ " " ++ b.cName ++ "*"

/-- The form in which an error lists the types of its operands. -/
def details : DType → String
  | scalar s => "Scalar(" ++ s.longName ++ ")"
  | pointer b space size =>
    let extent := match size with
      | some n => "Some(" ++ toString n ++ ")"
      | none => "None"
    "Ptr \x7b base: Scalar(" ++ b.longName ++ "), addrspace: " ++ space.name ++ ", size: " ++ extent
      ++ " \x7d"

/-- Floats outrank integers, integers outrank the rest, and within a family width decides. -/
def rank (t : DType) : Nat × Nat × Nat := (t.isFloat.toNat, t.isInt.toNat, t.bytes)

def outranks (a b : DType) : Bool :=
  let (af, ai, ab) := a.rank
  let (bf, bi, bb) := b.rank
  bf < af || (bf == af && (bi < ai || (bi == ai && bb < ab)))

/-- The type two operands are brought to; the left one is kept on a tie. -/
def promote (l r : DType) : DType := if r.outranks l then r else l

end DType

end LazyTensor

/-!
The arithmetic vocabulary shared by operation trees and instructions.
-/

namespace LazyTensor

inductive UnaryOp where
  | neg
  | sqrt
  | exp2
  | log2
  | sin
  | reciprocal
  deriving DecidableEq, Repr

namespace UnaryOp

def all : List UnaryOp := [neg, sqrt, exp2, log2, sin, reciprocal]

def name : UnaryOp → String
  | neg => "Neg"
  | sqrt => "Sqrt"
  | exp2 => "Exp2"
  | log2 => "Log2"
  | sin => "Sin"
  | reciprocal => "Reciprocal"

def ofName? (s : String) : Option UnaryOp := all.find? fun op => op.name == s

def preservesZero : UnaryOp → Bool
  | neg | sqrt | sin => true
  | _ => false

end UnaryOp

inductive BinaryOp where
  | add
  | mul
  | sub
  /-- Remainder with the sign of the dividend. -/
  | mod
  | max
  /-- Integer division truncated toward zero. -/
  | idiv
  | fdiv
  | lt
  | eq
  | ne
  | and
  | or
  | xor
  deriving DecidableEq, Repr

namespace BinaryOp

def all : List BinaryOp := [add, mul, sub, mod, max, idiv, fdiv, lt, eq, ne, and, or, xor]

def name : BinaryOp → String
  | add => "Add"
  | mul => "Mul"
  | sub => "Sub"
  | mod => "Mod"
  | max => "Max"
  | idiv => "Idiv"
  | fdiv => "Fdiv"
  | lt => "Lt"
  | eq => "Eq"
  | ne => "Ne"
  | and => "And"
  | or => "Or"
  | xor => "Xor"

def ofName? (s : String) : Option BinaryOp := all.find? fun op => op.name == s

def isComparison : BinaryOp → Bool
  | lt | eq | ne => true
  | _ => false

def isCommutative : BinaryOp → Bool
  | add | mul | eq | ne | and | or | xor | max => true
  | _ => false

def preservesZero : BinaryOp → Bool
  | add | mul | sub | max | and | or | xor => true
  | _ => false

end BinaryOp

inductive TernaryOp where
  | select
  | mulAcc
  deriving DecidableEq, Repr

namespace TernaryOp

def all : List TernaryOp := [select, mulAcc]

def name : TernaryOp → String
  | select => "Where"
  | mulAcc => "MulAcc"

def ofName? (s : String) : Option TernaryOp := all.find? fun op => op.name == s

end TernaryOp

inductive ReduceOp where
  | sum
  | max
  deriving DecidableEq, Repr

namespace ReduceOp

def all : List ReduceOp := [sum, max]

def name : ReduceOp → String
  | sum => "Sum"
  | max => "Max"

def ofName? (s : String) : Option ReduceOp := all.find? fun op => op.name == s

def combine : ReduceOp → BinaryOp
  | sum => .add
  | max => .max

end ReduceOp

end LazyTensor

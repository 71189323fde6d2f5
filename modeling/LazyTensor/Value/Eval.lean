import LazyTensor.Value.Basic

/-!
Arithmetic on constants.

Operands are combined at 64 bits and the result is brought to the requested type, so every width
wraps. An operation that is not defined on its operands has no result; comparisons give a truth
value whatever type is requested.
-/

namespace LazyTensor

namespace Value

def neg : Value → Value
  | int x => int (wrapSigned 64 (-x))
  | uint x => uint (wrapUnsigned 64 (-x))
  | float x => float x.negate
  | bool x => bool !x

def floatUnary (f : Binary64 → Binary64) : Value → Option Value
  | float x => some (float (f x))
  | _ => none

def rawUnary : UnaryOp → Value → Option Value
  | .neg, v => some v.neg
  | .sqrt, v => v.floatUnary .sqrt
  | .exp2, v => v.floatUnary .exp2
  | .log2, v => v.floatUnary .log2
  | .sin, v => v.floatUnary .sin
  | .reciprocal, v => v.floatUnary .reciprocal

def add : Value → Value → Option Value
  | int x, int y => some (int (wrapSigned 64 (x + y)))
  | uint x, uint y => some (uint (wrapUnsigned 64 (x + y)))
  | float x, float y => some (float (x.add y))
  | bool x, bool y => some (bool (x || y))
  | _, _ => none

def mul : Value → Value → Option Value
  | int x, int y => some (int (wrapSigned 64 (x * y)))
  | uint x, uint y => some (uint (wrapUnsigned 64 (x * y)))
  | float x, float y => some (float (x.mul y))
  | bool x, bool y => some (bool (x && y))
  | _, _ => none

def sub : Value → Value → Option Value
  | int x, int y => some (int (wrapSigned 64 (x - y)))
  | uint x, uint y => some (uint (wrapUnsigned 64 (x - y)))
  | float x, float y => some (float (x.sub y))
  | _, _ => none

def mod : Value → Value → Option Value
  | int x, int y => if y = 0 then none else some (int (wrapSigned 64 (x.tmod y)))
  | uint x, uint y => if y = 0 then none else some (uint (x % y))
  | _, _ => none

def idiv : Value → Value → Option Value
  | int x, int y => if y = 0 then none else some (int (wrapSigned 64 (x.tdiv y)))
  | uint x, uint y => if y = 0 then none else some (uint (x / y))
  | _, _ => none

def fdiv : Value → Value → Option Value
  | float x, float y => some (float (x.div y))
  | _, _ => none

def max : Value → Value → Option Value
  | int x, int y => some (int (Max.max x y))
  | uint x, uint y => some (uint (Max.max x y))
  | float x, float y => some (float (x.max y))
  | bool x, bool y => some (bool (x || y))
  | _, _ => none

def lt : Value → Value → Option Value
  | int x, int y => some (bool (x < y))
  | uint x, uint y => some (bool (x < y))
  | float x, float y => some (bool (x.numLt y))
  | bool x, bool y => some (bool (!x && y))
  | _, _ => none

def sameKind : Value → Value → Bool
  | int _, int _ | uint _, uint _ | float _, float _ | bool _, bool _ => true
  | _, _ => false

def eq (a b : Value) : Option Value := if a.sameKind b then some (bool (a.numEq b)) else none

def ne (a b : Value) : Option Value := if a.sameKind b then some (bool !(a.numEq b)) else none

/-- A bitwise operation on the 64-bit patterns of the operands. -/
def bitwise (f : Nat → Nat → Nat) (g : Bool → Bool → Bool) : Value → Value → Option Value
  | int x, int y => some (int (wrapSigned 64 (f (wrapUnsigned 64 x) (wrapUnsigned 64 y))))
  | uint x, uint y => some (uint (f x y))
  | bool x, bool y => some (bool (g x y))
  | _, _ => none

def rawBinary : BinaryOp → Value → Value → Option Value
  | .add => add
  | .mul => mul
  | .sub => sub
  | .mod => mod
  | .max => max
  | .idiv => idiv
  | .fdiv => fdiv
  | .lt => lt
  | .eq => eq
  | .ne => ne
  | .and => bitwise Nat.land and
  | .or => bitwise Nat.lor or
  | .xor => bitwise Nat.xor xor

def rawTernary : TernaryOp → Value → Value → Value → Option Value
  | .select, a, b, c => some (if a.truthy then b else c)
  | .mulAcc, a, b, c => (a.mul b).bind fun p => p.add c

end Value

open Value

def UnaryOp.eval (op : UnaryOp) (t : DType) (v : Value) : Option Value :=
  (rawUnary op v).bind (·.cast t)

def BinaryOp.eval (op : BinaryOp) (t : DType) (a b : Value) : Option Value :=
  if op.isComparison then rawBinary op a b else (rawBinary op a b).bind (·.cast t)

def TernaryOp.eval (op : TernaryOp) (t : DType) (a b c : Value) : Option Value :=
  (rawTernary op a b c).bind (·.cast t)

/-- An operation by name; the inner result is empty where the operation has no value. -/
def evalNamed? (name : String) (t : DType) : List Value → Option (Option Value)
  | [a] => (UnaryOp.ofName? name).map (·.eval t a)
  | [a, b] => (BinaryOp.ofName? name).map (·.eval t a b)
  | [a, b, c] => (TernaryOp.ofName? name).map (·.eval t a b c)
  | _ => none

end LazyTensor

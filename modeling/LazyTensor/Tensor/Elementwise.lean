import LazyTensor.Tensor.Shape

/-!
Operations on tensors element by element. Operands are brought to one type and one shape first.
-/

namespace LazyTensor

def BinaryOp.supports : BinaryOp → DType → Bool
  | fdiv, t => t.isFloat
  | idiv, t | mod, t => t.isInt
  | and, t | or, t | xor, t => t.isInt || t.isBool
  | _, _ => true

namespace Tensor

/-- The base 2 logarithm of e. -/
def log2E : Value := .float ⟨0x3ff71547652b82fe⟩

/-- The natural logarithm of 2. -/
def ln2 : Value := .float ⟨0x3fe62e42fefa39ef⟩

def halfPi : Value := .float ⟨0x3ff921fb54442d18⟩

def unary (t : Tensor) (op : UnaryOp) : TensorM Tensor := do t.like (.unary op t) (← t.dtype)

def require (t : Tensor) (p : DType → Bool) (operation : String) : TensorM Unit := do
  let dtype ← t.dtype
  unless p dtype do throw (.unsupportedType operation dtype)

def floatUnary (op : UnaryOp) (operation : String) (t : Tensor) : TensorM Tensor := do
  t.require DType.isFloat operation
  t.unary op

def neg (t : Tensor) : TensorM Tensor := do
  t.require (fun d => d.isFloat || d.isInt) "neg"
  t.unary .neg

def sqrt : Tensor → TensorM Tensor := floatUnary .sqrt "sqrt"

def exp2 : Tensor → TensorM Tensor := floatUnary .exp2 "exp2"

def log2 : Tensor → TensorM Tensor := floatUnary .log2 "log2"

def sin : Tensor → TensorM Tensor := floatUnary .sin "sin"

def reciprocal : Tensor → TensorM Tensor := floatUnary .reciprocal "reciprocal"

variable [Width]

def binary (op : BinaryOp) (operation : String) (a b : Tensor) : TensorM Tensor := do
  let dtype := (← a.dtype).promote (← b.dtype)
  unless op.supports dtype do throw (.unsupportedType operation dtype)
  let a ← a.cast dtype
  let b ← b.cast dtype
  let (l, r) ← a.broadcastPair b
  l.like (.binary op l r) (if op.isComparison then .bool else dtype)

def add : Tensor → Tensor → TensorM Tensor := binary .add "try_add"

def sub : Tensor → Tensor → TensorM Tensor := binary .sub "try_sub"

def mul : Tensor → Tensor → TensorM Tensor := binary .mul "try_mul"

def mod : Tensor → Tensor → TensorM Tensor := binary .mod "try_mod"

def lt : Tensor → Tensor → TensorM Tensor := binary .lt "try_lt"

def eq : Tensor → Tensor → TensorM Tensor := binary .eq "try_eq"

def ne : Tensor → Tensor → TensorM Tensor := binary .ne "try_ne"

def and : Tensor → Tensor → TensorM Tensor := binary .and "bitwise_and"

def or : Tensor → Tensor → TensorM Tensor := binary .or "bitwise_or"

def xor : Tensor → Tensor → TensorM Tensor := binary .xor "bitwise_xor"

def maximum : Tensor → Tensor → TensorM Tensor := binary .max "maximum"

/-- The quotient; of integers it is rounded toward zero. -/
def div (a b : Tensor) : TensorM Tensor := do
  let dtype := (← a.dtype).promote (← b.dtype)
  binary (if dtype.isFloat then .fdiv else .idiv) "try_div" a b

/-- Whether an element is zero. -/
def not (t : Tensor) : TensorM Tensor := do
  let b ← t.cast .bool
  b.ne (← b.constLike (.bool true))

def gt (a b : Tensor) : TensorM Tensor := b.lt a

def ge (a b : Tensor) : TensorM Tensor := do (← a.lt b).not

def le (a b : Tensor) : TensorM Tensor := do (← b.lt a).not

def select (t condition other : Tensor) : TensorM Tensor := do
  let l ← t.shape
  let r ← other.shape
  let c ← condition.shape
  let some joint := broadcastShape? l r | throw (.broadcast l r)
  let some shape := broadcastShape? joint c | throw (.broadcast joint c)
  let dtype := (← t.dtype).promote (← other.dtype)
  let condition ← (← condition.cast .bool).broadcastTo shape
  let yes ← (← t.cast dtype).broadcastTo shape
  let no ← (← other.cast dtype).broadcastTo shape
  yes.like (.ternary .select condition yes no) dtype

def minimum (a b : Tensor) : TensorM Tensor := do a.select (← a.lt b) b

/-- Raises what is below `low`, then lowers what is above `high`. -/
def clamp (t : Tensor) (low high : Option Tensor) : TensorM Tensor := do
  let raised ← match low with
    | some b => t.maximum b
    | none => pure t
  match high with
  | some b => raised.minimum b
  | none => return raised

def exp (t : Tensor) : TensorM Tensor := do
  t.require DType.isFloat "exp"
  (← t.mul (← t.constLike log2E)).exp2

def log (t : Tensor) : TensorM Tensor := do
  let l ← t.log2
  l.mul (← t.constLike ln2)

def cos (t : Tensor) : TensorM Tensor := do
  t.require DType.isFloat "cos"
  (← (← t.constLike halfPi).sub t).sin

def square (t : Tensor) : TensorM Tensor := t.mul t

def abs (t : Tensor) : TensorM Tensor := do
  if (← t.dtype).isUnsigned then return t else t.maximum (← t.neg)

def relu (t : Tensor) : TensorM Tensor := do t.maximum (← t.constLike (.zero (← t.dtype).base))

/-- A number as an operand beside `t`: in the type of `t` where that can hold it. -/
def scalarBeside (t : Tensor) (v : Value) : TensorM Tensor := do
  let own ← t.dtype
  let dtype := match v with
    | .float _ => if own.isFloat then own else .float32
    | .int _ => if own.isBool then .int32 else own
    | _ => own
  full [] v dtype

def unaryNamed? : String → Option (Tensor → TensorM Tensor)
  | "neg" => some neg
  | "not" => some not
  | "sqrt" => some sqrt
  | "exp2" => some exp2
  | "log2" => some log2
  | "sin" => some sin
  | "reciprocal" => some reciprocal
  | "exp" => some exp
  | "log" => some log
  | "cos" => some cos
  | "square" => some square
  | "abs" => some abs
  | "relu" => some relu
  | _ => none

def binaryNamed? : String → Option (Tensor → Tensor → TensorM Tensor)
  | "add" => some add
  | "sub" => some sub
  | "mul" => some mul
  | "div" => some div
  | "mod" => some mod
  | "lt" => some lt
  | "gt" => some gt
  | "le" => some le
  | "ge" => some ge
  | "eq" => some eq
  | "ne" => some ne
  | "and" => some and
  | "or" => some or
  | "xor" => some xor
  | "maximum" => some maximum
  | "minimum" => some minimum
  | _ => none

/-- The operators on two tensors, each with the name under which it fails. -/
def operatorNamed? : String → Option (String × (Tensor → Tensor → TensorM Tensor))
  | "add" => some ("add", add)
  | "sub" => some ("sub", sub)
  | "mul" => some ("mul", mul)
  | "div" => some ("div", div)
  | "rem" => some ("rem", mod)
  | "and" => some ("bitand", and)
  | "or" => some ("bitor", or)
  | "xor" => some ("bitxor", xor)
  | _ => none

end Tensor

end LazyTensor

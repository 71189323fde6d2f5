/-!
Double-precision numbers, kept by their bit patterns.

Equality of `Binary64` is equality of bits: the two zeros differ, and a not-a-number equals itself.
The comparison of the numbers themselves is `numEq`. A not-a-number operand is passed on quietened,
the left one first, and an invalid operation gives the not-a-number with its sign set.
-/

namespace LazyTensor

structure Binary64 where
  bits : UInt64
  deriving DecidableEq, Inhabited

namespace Binary64

def zero : Binary64 := ⟨0⟩

def one : Binary64 := ⟨0x3ff0000000000000⟩

def infinity : Binary64 := ⟨0x7ff0000000000000⟩

def negInfinity : Binary64 := ⟨0xfff0000000000000⟩

def notANumber : Binary64 := ⟨0x7ff8000000000000⟩

def invalid : Binary64 := ⟨0xfff8000000000000⟩

def isNegative (x : Binary64) : Bool := x.bits.toNat / Nat.pow 2 63 == 1

def exponentField (x : Binary64) : Nat := x.bits.toNat / Nat.pow 2 52 % Nat.pow 2 11

def fractionField (x : Binary64) : Nat := x.bits.toNat % Nat.pow 2 52

def isNaN (x : Binary64) : Bool := x.exponentField == 2047 && x.fractionField != 0

def isInfinite (x : Binary64) : Bool := x.exponentField == 2047 && x.fractionField == 0

/-- The not-a-number that arithmetic makes of `x`: sign and payload stay, the quiet bit is set. -/
def quiet (x : Binary64) : Binary64 := ⟨x.bits ||| 0x0008000000000000⟩

/-- The magnitude of a finite number as `m * 2 ^ (e - 1074)`. -/
def mantissa (x : Binary64) : Nat :=
  if x.exponentField = 0 then x.fractionField else x.fractionField + Nat.pow 2 52

def exponent (x : Binary64) : Nat := x.exponentField - 1

/-- The integer part, between `lo` and `hi`; a not-a-number counts as zero. -/
def truncate (lo hi : Int) (x : Binary64) : Int :=
  if x.isNaN then 0
  else if x.isInfinite then (if x.isNegative then lo else hi)
  else
    let whole : Nat := x.mantissa * Nat.pow 2 x.exponent / Nat.pow 2 1074
    let v : Int := if x.isNegative then -(whole : Int) else whole
    max lo (min hi v)

/-- Rounds to `precision` significant bits, a half going to the even neighbour. -/
def roundSignificant (precision n : Nat) : Nat :=
  let excess := Nat.log2 n + 1 - precision
  let unit := Nat.pow 2 excess
  let below := n / unit
  let rest := n % unit
  if 2 * rest < unit then below * unit
  else if unit < 2 * rest then (below + 1) * unit
  else if excess = 0 then n
  else if below % 2 = 0 then below * unit
  else (below + 1) * unit

/-- A natural number of at most 53 significant bits. -/
def ofExactNat (n : Nat) : Binary64 :=
  if n = 0 then zero
  else
    let e := Nat.log2 n
    let m := if e ≤ 52 then n * Nat.pow 2 (52 - e) else n / Nat.pow 2 (e - 52)
    ⟨((e + 1023) * Nat.pow 2 52 + (m - Nat.pow 2 52)).toUInt64⟩

def negate (x : Binary64) : Binary64 := ⟨x.bits ^^^ 0x8000000000000000⟩

def ofInt (precision : Nat) (v : Int) : Binary64 :=
  let x := ofExactNat (roundSignificant precision v.natAbs)
  if v < 0 then x.negate else x

def toFloat (x : Binary64) : Float := Float.ofBits x.bits

def ofFloat (x : Float) : Binary64 := if x.isNaN then invalid else ⟨x.toBits⟩

def lift (f : Float → Float) (x : Binary64) : Binary64 :=
  if x.isNaN then x.quiet else ofFloat (f x.toFloat)

def lift₂ (f : Float → Float → Float) (x y : Binary64) : Binary64 :=
  if x.isNaN then x.quiet
  else if y.isNaN then y.quiet
  else ofFloat (f x.toFloat y.toFloat)

def add : Binary64 → Binary64 → Binary64 := lift₂ (· + ·)

def sub : Binary64 → Binary64 → Binary64 := lift₂ (· - ·)

def mul : Binary64 → Binary64 → Binary64 := lift₂ (· * ·)

def div : Binary64 → Binary64 → Binary64 := lift₂ (· / ·)

def sqrt : Binary64 → Binary64 := lift Float.sqrt

def exp2 : Binary64 → Binary64 := lift Float.exp2

def log2 : Binary64 → Binary64 := lift Float.log2

def sin : Binary64 → Binary64 := lift Float.sin

def reciprocal (x : Binary64) : Binary64 := div one x

def numLt (x y : Binary64) : Bool := x.toFloat < y.toFloat

def numEq (x y : Binary64) : Bool := x.toFloat == y.toFloat

/-- A not-a-number gives way to the other operand, and of two equal numbers the right is kept. -/
def max (x y : Binary64) : Binary64 :=
  if y.isNaN then x else if numLt y x then x else y

/-- The bit pattern of the nearest single-precision number. A not-a-number is quietened and keeps
its sign and the upper bits of its payload. -/
def singleBits (x : Binary64) : Nat :=
  if x.isNaN then
    (if x.isNegative then 0x80000000 else 0) + 0x7f800000 + x.quiet.fractionField / Nat.pow 2 29
  else x.toFloat.toFloat32.toBits.toNat

/-- The number with a given bit pattern in single precision; a not-a-number is quietened. -/
def ofSingleBits (n : Nat) : Binary64 :=
  let fraction := n % Nat.pow 2 23
  if n / Nat.pow 2 23 % Nat.pow 2 8 = 255 ∧ fraction ≠ 0 then
    let sign := if n / Nat.pow 2 31 = 1 then 0x8000000000000000 else 0
    quiet ⟨(sign + 0x7ff0000000000000 + fraction * Nat.pow 2 29).toUInt64⟩
  else ⟨(Float32.ofBits n.toUInt32).toFloat.toBits⟩

/-- Zero, or a normal number of single precision. -/
def isSingle (x : Binary64) : Bool :=
  x.fractionField % Nat.pow 2 29 == 0 &&
    (x.fractionField == 0 && x.exponentField == 0 || 897 ≤ x.exponentField && x.exponentField ≤ 1150)

def toSingle (x : Binary64) : Binary64 := if x.isSingle then x else ofSingleBits x.singleBits

end Binary64

end LazyTensor

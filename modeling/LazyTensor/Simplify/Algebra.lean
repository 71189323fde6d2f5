import LazyTensor.Simplify.Split
import LazyTensor.Value.Eval

/-!
Rules on arithmetic: folding of constants, identities, regrouping, and what ranges decide.
-/

namespace LazyTensor

namespace Rule

open Attempt (ofOption)

def folded (v : Option Value) (t : DType) : Attempt Ref := do
  (Build.const (← ofOption v) t : GraphM Ref)

def foldUnary (r : Ref) : Attempt Ref := do
  let g ← get
  match g.op r with
  | .unary op a => folded ((g.const? a).bind (op.eval (g.dtype r))) (g.dtype r)
  | _ => failure

def foldBinary (r : Ref) : Attempt Ref := do
  let g ← get
  match g.op r with
  | .binary op a b =>
    folded (do op.eval (g.dtype r) (← g.const? a) (← g.const? b)) (g.dtype r)
  | _ => failure

def foldTernary (r : Ref) : Attempt Ref := do
  let g ← get
  match g.op r with
  | .ternary op a b c =>
    folded (do op.eval (g.dtype r) (← g.const? a) (← g.const? b) (← g.const? c)) (g.dtype r)
  | _ => failure

def foldCast (r : Ref) : Attempt Ref := do
  let g ← get
  match g.op r with
  | .cast a => folded ((g.const? a).bind (·.cast (g.dtype r))) (g.dtype r)
  | _ => failure

/-- `c op x` becomes `x op c` where the order does not matter. -/
def constToRight (r : Ref) : Attempt Ref := do
  let g ← get
  match g.op r with
  | .binary op a b =>
    if op.isCommutative ∧ (g.const? a).isSome ∧ (g.const? b).isNone then
      Build.toAttempt (Build.binary op b a)
    else failure
  | _ => failure

/-- `x - c` becomes `x + (-c)` on integers. -/
def subtractConst (r : Ref) : Attempt Ref := do
  let g ← get
  match g.op r with
  | .binary .sub a b =>
    match g.const? b with
    | some (.int c) =>
      if (g.dtype r).isInt ∧ (g.const? a).isNone then
        let negated ← Attempt.const (wrapSigned 64 (-c)) (g.dtype r)
        Build.toAttempt (Build.add a negated)
      else failure
    | _ => failure
  | _ => failure

def isRightIdentity (op : BinaryOp) (c : Value) : Bool :=
  match op with
  | .add | .sub | .or | .xor => c.isZero
  | .mul | .idiv | .fdiv => c.isOne
  | _ => false

/-- Whether `x op c` is zero; on floats this holds of finite numbers only. -/
def annihilates (op : BinaryOp) (c : Value) : Bool :=
  match op with
  | .mul | .and => c.isZero
  | .mod => c.isOne
  | _ => false

def cancelsItself : BinaryOp → Bool
  | .sub | .mod | .xor => true
  | _ => false

def identity (r : Ref) : Attempt Ref := do
  let g ← get
  match g.op r with
  | .binary op a b =>
    if isRightIdentity op (← ofOption (g.const? b)) then return a else failure
  | _ => failure

def annihilator (r : Ref) : Attempt Ref := do
  let g ← get
  match g.op r with
  | .binary op _ b =>
    if annihilates op (← ofOption (g.const? b)) then Attempt.const 0 (g.dtype r) else failure
  | _ => failure

def selfCancel (r : Ref) : Attempt Ref := do
  let g ← get
  match g.op r with
  | .binary op a b =>
    if a = b ∧ cancelsItself op then Attempt.const 0 (g.dtype r) else failure
  | _ => failure

def foldSelect (r : Ref) : Attempt Ref := do
  let g ← get
  match g.op r with
  | .ternary .select cond yes no =>
    if yes = no then return yes
    else return if (← ofOption (g.const? cond)).truthy then yes else no
  | _ => failure

/-- `(x op c₁) op c₂` becomes `x op (c₁ op c₂)` for sums and products of integers. -/
def combineConsts (r : Ref) : Attempt Ref := do
  let g ← get
  match g.op r with
  | .binary op a b =>
    match g.op a with
    | .binary inner x c =>
      if (op = .add ∨ op = .mul) ∧ inner = op ∧ (g.dtype r).isInt then
        let both ← folded (do op.eval (g.dtype r) (← g.const? c) (← g.const? b)) (g.dtype r)
        Build.toAttempt (Build.binary op x both)
      else failure
    | _ => failure
  | _ => failure

/-- A factor that two products share, and the other two factors. -/
def commonFactor? (a b c d : Ref) : Option (Ref × Ref × Ref) :=
  if a = c then some (a, b, d)
  else if a = d then some (a, b, c)
  else if b = c then some (b, a, d)
  else if b = d then some (b, a, c)
  else none

/-- `x * y + x * z` becomes `x * (y + z)`. -/
def factorCommon (r : Ref) : Attempt Ref := do
  let g ← get
  match g.op r with
  | .binary .add left right =>
    match g.op left, g.op right with
    | .binary .mul a b, .binary .mul c d =>
      let (shared, x, y) ← ofOption (commonFactor? a b c d)
      let sum ← Build.toAttempt (Build.add x y)
      Build.toAttempt (Build.mul shared sum)
    | _, _ => failure
  | _ => failure

def decideLess (a b : Int × Int) : Option Bool :=
  if a.2 < b.1 then some true else if b.2 ≤ a.1 then some false else none

def divisor? (g : Graph) (r : Ref) : Option Int := (g.const? r).bind Value.toInt?

/-- Comparisons, quotients and remainders that ranges decide. -/
def foldByRange (r : Ref) : Attempt Ref := do
  let g ← get
  match g.op r with
  | .binary .lt a b =>
    let less ← ofOption (do decideLess (← g.range a) (← g.range b))
    (Build.const (.bool less) .bool : GraphM Ref)
  | .binary op a b =>
    if op = .mod ∨ op = .idiv then
      let n ← ofOption (divisor? g b)
      let (lo, hi) ← ofOption (g.range a)
      if n ≤ 0 ∨ lo < 0 ∨ n ≤ hi then failure
      if op = .mod then return a else Attempt.const 0 (g.dtype r)
    else failure
  | _ => failure

/-- `(x * n + y) / n` becomes `x`, and `(x * n + y) % n` becomes `y`, where `0 ≤ y < n`. -/
def splitDivision (r : Ref) : Attempt Ref := do
  let g ← get
  match g.op r with
  | .binary op a b =>
    if op = .mod ∨ op = .idiv then
      let n ← ofOption (divisor? g b)
      if n ≤ 0 ∨ g.dtype r ≠ .index then failure
      let (quotient, remainder) ← Attempt.split a n
      return if op = .idiv then quotient else remainder
    else failure
  | _ => failure

end Rule

end LazyTensor

import LazyTensor.Simplify.Range
import LazyTensor.Simplify.Rule

/-!
Splitting a sum by a divisor: the addends that are multiples of it make the quotient, and the rest
is the remainder if its range shows that it is one.
-/

namespace LazyTensor

structure Addends where
  multiples : List (Ref × Int) := []
  others : List Ref := []
  constant : Int := 0

namespace Addends

def product? (g : Graph) (r : Ref) : Option (Ref × Int) :=
  match g.op r with
  | .binary .mul x c => ((g.const? c).bind Value.toInt?).map fun k => (x, k)
  | _ => none

/-- A factor that the divisor leaves whole, with what is left of its coefficient. -/
def multiple? (g : Graph) (n : Int) (r : Ref) : Option (Ref × Int) :=
  (product? g r).bind fun (x, k) => if k.tmod n = 0 then some (x, k.tdiv n) else none

def isOther (g : Graph) (n : Int) (r : Ref) : Bool :=
  (g.const? r).isNone && (multiple? g n r).isNone

/-- The sum of constants, unless one is no integer or the sum no longer fits a word. -/
def sumConsts : (sum : Int) → List Value → Option Int
  | sum, [] => some sum
  | sum, v :: rest => do
    let sum := sum + (← v.toInt?)
    if Width.FitsWord sum then sumConsts sum rest else none

def ofNode (g : Graph) (n : Int) (r : Ref) : Option Addends := do
  let terms := g.addends r
  let constant ← sumConsts 0 (terms.filterMap g.const?)
  return {
    multiples := terms.filterMap (multiple? g n)
    others := terms.filter (isOther g n)
    constant }

end Addends

namespace Attempt

def addTo (sum : Option Ref) (r : Ref) : Attempt (Option Ref) :=
  match sum with
  | none => return some r
  | some s => some <$> Build.toAttempt (Build.add s r)

def const (x : Int) (t : DType) : Attempt Ref := (Build.const (.int x) t : GraphM Ref)

def scaled (t : DType) (x : Ref) (k : Int) : Attempt Ref := do
  if k = 1 then return x else Build.toAttempt (Build.mul x (← const k t))

def remainder (t : DType) (n : Int) (s : Addends) : Attempt Ref := do
  let sum ← s.others.foldlM addTo none
  let rest := s.constant % n
  let sum ← if rest ≠ 0 then addTo sum (← const rest t) else pure sum
  match sum with
  | some r => return r
  | none => const 0 t

def quotient (t : DType) (n : Int) (s : Addends) : Attempt Ref := do
  let sum ← s.multiples.foldlM (fun sum (x, k) => do addTo sum (← scaled t x k)) none
  let whole := s.constant / n
  let c ← const whole t
  match sum with
  | none => return c
  | some r => if whole = 0 then return r else Build.toAttempt (Build.add r c)

/-- Nodes `q` and `r` with `a = q * n + r` and `0 ≤ r < n`, for an `a` that is not negative. -/
def split (a : Ref) (n : Int) : Attempt (Ref × Ref) := do
  let g ← get
  let (lo, _) ← ofOption (g.range a)
  if lo < 0 then failure
  let s ← ofOption (Addends.ofNode g n a)
  if s.multiples.isEmpty ∧ s.constant.natAbs < n then failure
  let t := g.dtype a
  let r ← remainder t n s
  let (lo, hi) ← ofOption ((← get).range r)
  if lo < 0 ∨ n ≤ hi then failure
  return (← quotient t n s, r)

end Attempt

end LazyTensor

import LazyTensor.Graph.Basic

/-!
Ranges of the values of index arithmetic, from the bounds of loops, launches and variables.
-/

namespace LazyTensor

def maxRangeDepth : Nat := 33

/-- Both ends of a range, as long as they fit a word. -/
def checkedRange (lo hi : Int) : Option (Int × Int) :=
  if Width.FitsWord lo ∧ Width.FitsWord hi then some (lo, hi) else none

def mulCorners (a b : Int × Int) : List Int := [a.1 * b.1, a.1 * b.2, a.2 * b.1, a.2 * b.2]

/-- The range of products, when none of the corners overflows. -/
def mulRangeOf (a b : Int × Int) : Option (Int × Int) :=
  let corners := mulCorners a b
  if corners.all fun c => decide (Width.FitsWord c) then
    some (corners.foldl min (a.1 * b.1), corners.foldl max (a.1 * b.1))
  else none

/-- The range of remainders, which take the sign of what is divided by `n`. -/
def modRange (a : Int × Int) (n : Int) : Int × Int :=
  if 0 ≤ a.1 then (0, min a.2 (n - 1)) else (max a.1 (1 - n), max 0 (min a.2 (n - 1)))

def binaryRange (op : BinaryOp) (a b : Int × Int) : Option (Int × Int) :=
  match op with
  | .add => checkedRange (a.1 + b.1) (a.2 + b.2)
  | .sub => checkedRange (a.1 - b.2) (a.2 - b.1)
  | .mul => mulRangeOf a b
  | .max => some (max a.1 b.1, max a.2 b.2)
  | .idiv => if b.1 = b.2 ∧ 0 < b.1 then some (a.1.tdiv b.1, a.2.tdiv b.1) else none
  | .mod => if b.1 = b.2 ∧ 0 < b.1 then some (modRange a b.1) else none
  | _ => none

namespace Graph

def rangeAt (g : Graph) : (depth : Nat) → Ref → Option (Int × Int)
  | 0, _ => none
  | depth + 1, r =>
    if (g.dtype r).isInt then
      match g.op r with
      | .const v => v.toInt?.map fun x => (x, x)
      | .defineVar v => some (v.min, v.max)
      | .loop start stop _ => do
        let first ← g.rangeAt depth start
        let past ← g.rangeAt depth stop
        if Width.FitsWord (past.2 - 1) then some (first.1, past.2 - 1) else none
      | .special _ size => do
        let past ← g.rangeAt depth size
        if Width.FitsWord (past.2 - 1) then some (0, past.2 - 1) else none
      | .binary op a b => do
        let x ← g.rangeAt depth a
        -- An operand that occurs on both sides is looked into once.
        let y ← if a = b then some x else g.rangeAt depth b
        binaryRange op x y
      | _ => none
    else none

def range (g : Graph) (r : Ref) : Option (Int × Int) := g.rangeAt maxRangeDepth r

def addendsAt (g : Graph) : (depth : Nat) → Ref → List Ref
  | 0, r => [r]
  | depth + 1, r =>
    match g.op r with
    | .binary .add a b => g.addendsAt depth a ++ g.addendsAt depth b
    | _ => [r]

def addends (g : Graph) (r : Ref) : List Ref := g.addendsAt g.size r

end Graph

end LazyTensor

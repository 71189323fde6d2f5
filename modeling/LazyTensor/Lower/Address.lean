import LazyTensor.Graph.Build
import LazyTensor.Layout

/-!
Address arithmetic: symbolic integers, views and layouts as instructions.

A layout is written from the top. Its top view turns coordinates into a position, which is
unravelled into coordinates of the view below, and so on. Every mask adds a condition under which
the element exists.
-/

namespace LazyTensor

namespace Address

def addTo (sum : Option Ref) (r : Ref) : Build (Option Ref) :=
  match sum with
  | none => return some r
  | some s => some <$> Build.add s r

def mulTo (product : Option Ref) (r : Ref) : Build (Option Ref) :=
  match product with
  | none => return some r
  | some p => some <$> Build.mul p r

def index (n : Int) : Build Ref := (Build.index n : GraphM Ref)

def term (t : Term) : Build Ref := do
  let product ← t.1.foldlM (fun p v => do mulTo p (← (Build.symbol v : GraphM Ref))) none
  match product with
  | none => index t.2
  | some p => if t.2 = 1 then return p else Build.mul p (← index t.2)

def symInt (x : SymInt) : Build Ref := do
  match x.asConst? with
  | some c => index c
  | none =>
    match ← x.terms.foldlM (fun sum t => do addTo sum (← term t)) none with
    | some s => return s
    | none => index 0

def both : Option Ref → Option Ref → Build (Option Ref)
  | some a, some b => some <$> Build.and a b
  | some a, none => return some a
  | none, b => return b

def scaled (coord : Ref) (stride : SymInt) : Build Ref := do
  if stride = 1 then return coord else Build.mul coord (← symInt stride)

/-- The sum of the coordinates times their strides, without those that contribute nothing. -/
def offsets : List (SymInt × SymInt × Ref) → Option Ref → Build (Option Ref)
  | [], sum => return sum
  | (dim, stride, coord) :: rest, sum => do
    if dim = 1 ∨ stride = 0 then offsets rest sum
    else offsets rest (← addTo sum (← scaled coord stride))

section

variable [Width]

/-- The condition that coordinates lie inside a mask; bounds that the shape gives are left out. -/
def inside : List ((SymInt × SymInt) × SymInt × Ref) → Option Ref → Build (Option Ref)
  | [], valid => return valid
  | ((start, stop), dim, coord) :: rest, valid => do
    let valid ← if start = 0 then pure valid
      else both valid (some (← Build.lt (← symInt (start - 1)) coord))
    let valid ← if stop = dim then pure valid
      else both valid (some (← Build.lt coord (← symInt stop)))
    inside rest valid

/-- The position of an element in a view, and the condition under which it exists. -/
def view (v : View) (coords : List Ref) : Build (Ref × Option Ref) := do
  if v.isInvalid then
    let never ← (Build.const (.bool false) .bool : GraphM Ref)
    return (← index 0, some never)
  else
    let sum ← offsets (v.shape.zip (v.strides.zip coords)) none
    let position ← match sum with
      | none => symInt v.offset
      | some s => if v.offset = 0 then pure s else do Build.add s (← symInt v.offset)
    let valid ← match v.mask with
      | none => pure none
      | some mask => inside (mask.zip (v.shape.zip coords)) none
    return (position, valid)

/-- The coordinates of a position; `outer` says whether a dimension above may exceed 1. -/
def coordinates (flat : Ref) : List (SymInt × SymInt) → (outer : Bool) → Build (List Ref)
  | [], _ => return []
  | (dim, stride) :: rest, outer => do
    if dim = 1 then
      let c ← index 0
      return c :: (← coordinates flat rest outer)
    else
      let c ← if stride = 1 then pure flat else do Build.idiv flat (← symInt stride)
      let c ← if outer then do Build.mod c (← symInt dim) else pure c
      return c :: (← coordinates flat rest true)

def unravel (shape : Shape) (flat : Ref) : Build (List Ref) :=
  coordinates flat (shape.zip (rowMajor shape)) false

def through : List View → Ref × Option Ref → Build (Ref × Option Ref)
  | [], place => return place
  | v :: rest, (position, valid) => do
    let (next, nextValid) ← view v (← unravel v.shape position)
    through rest (next, ← both valid nextValid)

def layout (l : Layout) (coords : List Ref) : Build (Ref × Option Ref) := do
  through l.below (← view l.top coords)

end

end Address

end LazyTensor

import LazyTensor.View.Basic

/-!
Merging of two stacked views into one.

The outer view gives positions in the inner view's shape. Dimensions of the inner view that behave
as one are coalesced into groups, every varying outer axis is assigned to one group, and the merge
succeeds when no axis can carry from its group into a neighbour and the inner mask can be carried
over to the outer axes.
-/

namespace LazyTensor

namespace Merge

structure Affine where
  shape : List Int
  strides : List Int
  offset : Int
  mask : Option (List (Int × Int))

def Affine.ranges (a : Affine) : List (Int × Int) := a.mask.getD (a.shape.map fun d => (0, d))

def concreteMask? (m : Mask) : Option (List (Int × Int)) :=
  m.mapM fun r => do return (← r.1.asConst?, ← r.2.asConst?)

def Affine.ofView? (v : View) : Option Affine := do
  let shape ← concreteShape? v.shape
  let strides ← concreteShape? v.strides
  let offset ← v.offset.asConst?
  let mask ← match v.mask with
    | none => some none
    | some m => (concreteMask? m).map some
  return { shape, strides, offset, mask }

def isEmptyRange (r : Int × Int) : Bool := r.2 ≤ r.1

/-- A run of inner dimensions that behaves as one. -/
structure Group where
  size : Int
  stride : Int
  /-- The row-major stride of the group within the inner shape. -/
  logical : Int
  mask : Option (Int × Int)

def addDimension (groups : List Group) (dim : Int × Int × (Int × Int)) : List Group :=
  let (size, stride, range) := dim
  if size = 1 then groups
  else
    let mask := if range = (0, size) then none else some range
    match groups with
    | g :: rest =>
      if g.mask.isNone ∧ mask.isNone ∧ g.stride = size * stride then
        { g with size := g.size * size, stride } :: rest
      else { size, stride, logical := 0, mask } :: g :: rest
    | [] => [{ size, stride, logical := 0, mask }]

/-- Fills in the logical strides of groups listed from the last to the first. -/
def withLogical : (inside : Int) → List Group → List Group
  | _, [] => []
  | inside, g :: rest => { g with logical := inside } :: withLogical (inside * g.size) rest

def coalesce (a : Affine) : List Group :=
  (withLogical 1 ((a.shape.zip (a.strides.zip a.ranges)).foldl addDimension [])).reverse

/-- An outer axis: its valid range, its stride, and the group it moves in with its step there. -/
structure Axis where
  start : Int
  stop : Int
  stride : Int
  target : Option (Nat × Int)

def Axis.count (a : Axis) : Int := a.stop - a.start

def groupOf? (groups : List Group) (stride : Int) : Option (Nat × Int) := do
  let g ← groups.findIdx? fun g => stride.tmod g.logical == 0
  let group ← groups[g]?
  return (g, stride.tdiv group.logical)

/-- Assigns an axis to the first group whose logical stride divides the axis stride. -/
def assign? (groups : List Group) (range : Int × Int) (stride : Int) : Option Axis :=
  if range.2 - range.1 ≤ 1 ∨ stride = 0 then
    some { start := range.1, stop := range.2, stride, target := none }
  else
    (groupOf? groups stride).map fun t =>
      { start := range.1, stop := range.2, stride, target := some t }

def movers (axes : List Axis) (g : Nat) : List (Nat × Axis × Int) :=
  axes.zipIdx.filterMap fun (a, i) =>
    match a.target with
    | some (g', m) => if g' = g then some (i, a, m) else none
    | none => none

def reach (mover : Nat × Axis × Int) : Int := (mover.2.1.count - 1) * mover.2.2

def staysInside (group : Group) (coord : Int) (ms : List (Nat × Axis × Int)) : Bool :=
  let lo := ms.foldl (fun acc m => acc + min (reach m) 0) coord
  let hi := ms.foldl (fun acc m => acc + max (reach m) 0) coord
  0 ≤ lo && hi < group.size

def ceilDiv (a b : Int) : Int := -((-a) / b)

/-- The integers `t`, from the first result up to but excluding the second, for which
`lo ≤ c + t * m < hi`. -/
def solveWindow (c m lo hi : Int) : Int × Int :=
  if 0 < m then (ceilDiv (lo - c) m, ceilDiv (hi - c) m)
  else ((c - hi) / (-m) + 1, (c - lo) / (-m) + 1)

/-- What carrying a group's mask over to the outer axes leaves of the outer mask. -/
inductive Cut where
  | stuck
  | empty
  | keep (mask : List (Int × Int))

def cutAxis (c lo hi : Int) (mover : Nat × Axis × Int) (mask : List (Int × Int)) : Cut :=
  let (i, axis, m) := mover
  let (first, last) := solveWindow c m lo hi
  let first := max first 0
  let last := min last axis.count
  if last ≤ first then .empty
  else .keep (mask.set i (axis.start + first, axis.start + last))

/-- Several axes in one masked group: the mask has to cut along the coarsest of them. -/
def cutCoarsest (c lo hi : Int) (ms : List (Nat × Axis × Int)) (mask : List (Int × Int)) : Cut :=
  if ms.any fun m => m.2.2 ≤ 0 then .stuck
  else
    match sortBy (fun a b => b.2.2 ≤ a.2.2) ms with
    | [] => .keep mask
    | coarse :: finer =>
      let step := coarse.2.2
      let rest := finer.foldl (fun acc m => acc + reach m) 0
      let span := reach coarse + rest
      if lo ≤ c ∧ c + span < hi then .keep mask
      else if c + span < lo ∨ hi ≤ c then .empty
      else if step ≤ rest ∨ (lo - c) % step ≠ 0 ∨ (hi - c) % step ≠ 0 then .stuck
      else cutAxis c lo hi coarse mask

def cutGroup (group : Group) (c : Int) (ms : List (Nat × Axis × Int)) (mask : List (Int × Int)) :
    Cut :=
  match group.mask with
  | none => .keep mask
  | some (lo, hi) =>
    match ms with
    | [] => if c < lo ∨ hi ≤ c then .empty else .keep mask
    | [m] => cutAxis c lo hi m mask
    | _ => cutCoarsest c lo hi ms mask

def cutGroups (axes : List Axis) : (g : Nat) → List (Group × Int) → List (Int × Int) → Cut
  | _, [], mask => .keep mask
  | g, (group, c) :: rest, mask =>
    match cutGroup group c (movers axes g) mask with
    | .stuck => .stuck
    | .empty => .empty
    | .keep mask => cutGroups axes (g + 1) rest mask

def newStride (groups : List Group) (a : Axis) : Int :=
  match a.target with
  | none => 0
  | some (g, m) =>
    match groups[g]? with
    | some group => m * group.stride
    | none => 0

def dot (xs ys : List Int) : Int := (xs.zipWith (· * ·) ys).foldl (· + ·) 0

variable [Width]

def affine? (inner outer : Affine) (shape : Shape) : Option View :=
  let ranges := outer.ranges
  if ranges.any isEmptyRange then some (.invalid shape)
  else if product inner.shape = 0 ∨ (inner.mask.getD []).any isEmptyRange then
    some (.invalid shape)
  else
    let groups := coalesce inner
    let base := outer.offset + dot (ranges.map (·.1)) outer.strides
    if base < 0 ∨ product inner.shape ≤ base then none
    else do
      let coords := groups.map fun g => (base.tdiv g.logical).tmod g.size
      let axes ← (ranges.zip outer.strides).mapM fun (r, s) => assign? groups r s
      let placed := groups.zip coords
      if placed.zipIdx.all fun ((group, c), g) => staysInside group c (movers axes g) then
        match cutGroups axes 0 placed ranges with
        | .stuck => none
        | .empty => some (.invalid shape)
        | .keep mask =>
          let strides := axes.map (newStride groups)
          let inside := dot (groups.map (·.stride)) coords
          let offset := inner.offset + inside - dot (ranges.map (·.1)) strides
          some (.create shape (some (strides.map .const)) (.const offset)
            (some (mask.map fun r => (.const r.1, .const r.2))))
      else none

end Merge

/-- One view that does what `outer` followed by `inner` does, if there is one. -/
def View.merge? [Width] (inner outer : View) : Option View :=
  if inner.contiguous then some outer
  else if outer.contiguous ∧ outer.shape = inner.shape then some inner
  else do
    let i ← Merge.Affine.ofView? inner
    let o ← Merge.Affine.ofView? outer
    Merge.affine? i o outer.shape

end LazyTensor

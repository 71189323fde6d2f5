import LazyTensor.View.Merge

/-!
Movements of views: reordering, broadcasting, padding, windows, steps and reshapes.
-/

namespace LazyTensor

variable [Width]

namespace View

def isPermutation (axes : List Nat) (rank : Nat) : Bool :=
  axes.length == rank && axes.all (· < rank) && decide axes.Nodup

def permute (v : View) (axes : List Nat) : Except BuildError View :=
  if isPermutation axes v.rank then
    .ok (create (axes.map fun a => v.shape.getD a 0) (some (axes.map fun a => v.strides.getD a 0))
      v.offset (v.mask.map fun m => axes.map fun a => m.getD a (0, 0)))
  else .error (.permutation axes v.rank)

def checkExpand : (dim : Nat) → (old new : Shape) → Except BuildError Unit
  | dim, o :: old, n :: new =>
    if o = n ∨ o = 1 then checkExpand (dim + 1) old new else .error (.expandDimension dim o n)
  | _, _, _ => .ok ()

def expandRange (r : SymInt × SymInt) (old new : SymInt) : SymInt × SymInt :=
  if old = new then r else if r = (0, 1) then (0, new) else (0, 0)

def expand (v : View) (new : Shape) : Except BuildError View :=
  if new.length ≠ v.rank then .error (.expandRank v.rank new.length)
  else if v.shape.any (· == 0) then .ok (ofShape new)
  else do
    checkExpand 0 v.shape new
    let dims := v.shape.zip new
    let strides := v.strides.zipWith (fun s d => if d.1 = d.2 then s else 0) dims
    let mask := v.mask.map fun m => m.zipWith (fun r d => expandRange r d.1 d.2) dims
    return create new (some strides) v.offset mask

def decided (bound : SymInt) : Option SymInt → Except BuildError SymInt
  | some x => .ok x
  | none => .error (.undecidedMask bound)

def clampTo (x top : SymInt) : Except BuildError SymInt := do
  let y ← decided x (x.min? top)
  decided y (y.max? 0)

/-- The part of a mask range that is left in the window `w`, counted from the window's start. -/
def windowRange (r w : SymInt × SymInt) : Except BuildError (SymInt × SymInt) := do
  let span := w.2 - w.1
  let b ← clampTo (r.1 - w.1) span
  let e ← clampTo (r.2 - w.1) span
  return (b, e)

def intersectRange (r s : SymInt × SymInt) : Except BuildError (SymInt × SymInt) := do
  let b ← decided (r.1 - s.1) (r.1.max? s.1)
  let e ← decided (r.2 - s.2) (r.2.min? s.2)
  return (b, e)

def windowMask (window : List (SymInt × SymInt)) : Option Mask → Except BuildError (Option Mask)
  | none => .ok none
  | some m => some <$> (m.zip window).mapM fun (r, w) => windowRange r w

def intersectMasks : Option Mask → Option Mask → Except BuildError (Option Mask)
  | kept, none => .ok kept
  | none, some m => .ok (some m)
  | some k, some m => some <$> (k.zip m).mapM fun (r, s) => intersectRange r s

/-- Moves the window of every dimension to the given range, which may reach outside the shape, and
keeps only what lies in `extra`. -/
def resize (v : View) (window : List (SymInt × SymInt)) (extra : Option Mask) :
    Except BuildError View := do
  let shift := (window.zip v.strides).foldl (fun acc (w, s) => acc + s * w.1) 0
  let kept ← windowMask window v.mask
  let mask ← intersectMasks kept extra
  return create (window.map fun w => w.2 - w.1) (some v.strides) (v.offset + shift) mask

def pad (v : View) (padding : List (Nat × Nat)) : Except BuildError View :=
  if padding.length ≠ v.rank then .error (.padRank padding.length v.rank)
  else if padding.all fun p => p.1 == 0 && p.2 == 0 then .ok v
  else
    let dims := padding.zip v.shape
    v.resize (dims.map fun (p, s) => (.const (-Width.wrap p.1), s + .ofInt p.2))
      (some (dims.map fun (p, s) => (.ofInt p.1, s + .ofInt p.1)))

def checkShrink : (dim : Nat) → List (SymInt × SymInt) → Shape → Except BuildError Unit
  | dim, (b, e) :: ranges, s :: shape =>
    if 0 ≤ b.lower ∧ b.lt? (e + 1) = some true ∧ e.lt? (s + 1) = some true then
      checkShrink (dim + 1) ranges shape
    else .error (.shrinkBounds dim b e s)
  | _, _, _ => .ok ()

def shrink (v : View) (ranges : List (SymInt × SymInt)) : Except BuildError View :=
  if ranges.length ≠ v.rank then .error (.shrinkRank ranges.length v.rank)
  else do
    checkShrink 0 ranges v.shape
    if coversShape ranges v.shape then return v
    v.resize ranges none

def ceilDiv (x : SymInt) (d : Int) : Except BuildError SymInt :=
  if d = 1 then .ok x
  else
    match x with
    | .const c => .ok (.const ((c + d - 1) / d))
    | .poly _ => .error (.undecidedMask x)

def strideRange (r : SymInt × SymInt) (size : SymInt) (step : Int) :
    Except BuildError (SymInt × SymInt) := do
  let (b, e) := if 0 < step then r else (size - r.2, size - r.1)
  return (← ceilDiv b step.natAbs, ← ceilDiv e step.natAbs)

def strideMask (shape : Shape) (steps : List Int) : Option Mask → Except BuildError (Option Mask)
  | none => .ok none
  | some m => some <$> ((m.zip shape).zip steps).mapM fun ((r, s), step) => strideRange r s step

/-- Takes every element at a multiple of the step; a negative step walks backwards. -/
def stride (v : View) (steps : List Int) : Except BuildError View :=
  if steps.length ≠ v.rank then .error (.strideRank steps.length v.rank)
  else
    match steps.findIdx? (· == 0) with
    | some dim => .error (.strideZero dim)
    | none => do
      let shape ← (v.shape.zip steps).mapM fun (s, m) => ceilDiv s m.natAbs
      let strides := v.strides.zipWith (fun s m => s * .const m) steps
      let offset := ((v.shape.zip v.strides).zip steps).foldl
        (fun acc ((s, st), m) => if m < 0 then acc + (s - 1) * st else acc) v.offset
      let mask ← strideMask v.shape steps v.mask
      return create shape (some strides) offset mask

def flip (v : View) (axes : List Bool) : Except BuildError View :=
  v.stride (axes.map fun f => if f then -1 else 1)

/-- The same elements in another shape; no view if that needs more than one. -/
def reshape (v : View) (new : Shape) : Except BuildError (Option View) :=
  if v.shape = new then .ok (some v)
  else if new.any fun d => d.lower < 0 then .error (.reshapeNegative new)
  else
    let oldSize := v.size
    let newSize := SymInt.prod new
    let agree : Bool := oldSize == newSize ||
      (match oldSize.evalBound?, newSize.evalBound? with
        | some a, some b => a == b
        | _, _ => false)
    if !agree then
      if oldSize.isConst && newSize.isConst then .error (.reshapeSize oldSize newSize)
      else .error (.reshapeSymbolic v.shape new)
    else if v.shape.any (· == 0) || v.contiguous then .ok (some (ofShape new))
    else .ok (v.merge? (ofShape new))

end View

end LazyTensor

import LazyTensor.Error
import LazyTensor.SymInt.Bounds
import LazyTensor.SymInt.Subst

/-!
Views: affine maps from coordinates to buffer offsets, defined inside a mask.

The element at coordinates `c` of a view lies at `offset + Σ cᵢ * stridesᵢ` where every `cᵢ` is in
its range of the mask, and is masked out elsewhere.
-/

namespace LazyTensor

abbrev Shape := List SymInt

abbrev Mask := List (SymInt × SymInt)

structure View where
  shape : Shape
  strides : List SymInt
  offset : SymInt
  mask : Option Mask
  /-- No offset, no mask, and the row-major strides of the shape. -/
  contiguous : Bool
  deriving DecidableEq, Repr

/-- Row-major coordinates of a position, with the part of it that exceeds the shape. -/
def unravelRest : List Int → Int → List Int × Int
  | [], flat => ([], flat)
  | d :: rest, flat =>
    let (cs, above) := unravelRest rest flat
    if 0 < d then (above % d :: cs, above / d) else (0 :: cs, above)

def unravel (shape : List Int) (flat : Int) : List Int := (unravelRest shape flat).1

def product (xs : List Int) : Int := xs.foldr (· * ·) 1

def concreteShape? (shape : Shape) : Option (List Int) := shape.mapM SymInt.asConst?

section

variable [Width]

/-- Row-major strides, zero along dimensions of size one, with the number of elements. -/
def rowMajorSize : Shape → List SymInt × SymInt
  | [] => ([], 1)
  | d :: rest =>
    let (strides, size) := rowMajorSize rest
    ((if d = 1 then 0 else size) :: strides, size * d)

def rowMajor (shape : Shape) : List SymInt := (rowMajorSize shape).1

def boundShape? (shape : Shape) : Option (List Int) := shape.mapM SymInt.evalBound?

def Mask.isEmpty (m : Mask) : Bool := m.any fun r => r.1.lt? r.2 == some false

namespace View

def invalid (shape : Shape) : View where
  shape := shape
  strides := shape.map fun _ => 0
  offset := 0
  mask := some (shape.map fun _ => (0, 0))
  contiguous := false

/-- Moves the only valid index of a dimension from its stride into the offset. -/
def foldSingles : Mask → List SymInt → SymInt → List SymInt × SymInt
  | (b, e) :: mask, s :: strides, offset =>
    if e - b = 1 ∧ s ≠ 0 then
      let (strides, offset) := foldSingles mask strides (offset + b * s)
      (0 :: strides, offset)
    else
      let (strides, offset) := foldSingles mask strides offset
      (s :: strides, offset)
  | _, strides, offset => (strides, offset)

def coversShape (mask : Mask) (shape : Shape) : Bool :=
  (mask.zip shape).all fun (r, d) => r.1 == 0 && r.2 == d

def create (shape : Shape) (strides : Option (List SymInt)) (offset : SymInt)
    (mask : Option Mask) : View :=
  let strides := match strides with
    | some ss => ss.zipWith (fun s d => if d = 1 then 0 else s) shape
    | none => rowMajor shape
  match mask with
  | none =>
    { shape, strides, offset, mask := none
      contiguous := offset == 0 && strides == rowMajor shape }
  | some m =>
    if m.isEmpty then invalid shape
    else if coversShape m shape then
      { shape, strides, offset, mask := none
        contiguous := offset == 0 && strides == rowMajor shape }
    else
      let (strides, offset) := foldSingles m strides offset
      { shape, strides, offset, mask := some m, contiguous := false }

def ofShape (shape : Shape) : View := create shape none 0 none

def rank (v : View) : Nat := v.shape.length

def size (v : View) : SymInt := SymInt.prod v.shape

def isInvalid (v : View) : Bool := v.mask.any Mask.isEmpty

def inRange? (r : SymInt × SymInt) (c : Int) : Bool :=
  match r.1.evalBound?, r.2.evalBound? with
  | some lo, some hi => lo ≤ c && c < hi
  | _, _ => false

def dot? : List SymInt → List Int → Option Int
  | s :: strides, c :: coords => do return (← s.evalBound?) * c + (← dot? strides coords)
  | _, _ => some 0

/-- The offset of the element at `coords`, unless it is masked out. One wrap of the sum is what a wrap
after every step comes to. -/
def index (v : View) (coords : List Int) : Option Int :=
  if ((v.mask.getD []).zip coords).all fun (r, c) => inRange? r c then do
    return Width.wrap ((← v.offset.evalBound?) + (← dot? v.strides coords))
  else none

def unbindAll (xs : List SymInt) : List SymInt × Bindings :=
  (xs.map fun x => x.unbind.1,
    xs.foldl (fun acc x => insertKeys SymVar.cmp x.unbind.2 acc) [])

def unbind (v : View) : View × Bindings :=
  let (shape, b₁) := unbindAll v.shape
  let (strides, b₂) := unbindAll v.strides
  let (offset, b₃) := v.offset.unbind
  let ends := (v.mask.getD []).flatMap fun r => [r.1, r.2]
  let (_, b₄) := unbindAll ends
  let mask := v.mask.map fun m => m.map fun r => (r.1.unbind.1, r.2.unbind.1)
  ({ v with shape, strides, offset, mask },
    insertKeys SymVar.cmp b₄ (insertKeys SymVar.cmp b₃ (insertKeys SymVar.cmp b₂ b₁)))

end View

end

namespace View

def vars (v : View) : List SymVar :=
  let ends := (v.mask.getD []).flatMap fun r => [r.1, r.2]
  (v.shape ++ v.strides ++ [v.offset] ++ ends).foldl
    (fun acc x => insertElems SymVar.cmp x.vars acc) []

def maskText (m : Mask) : String :=
  listText (m.map fun r => "(" ++ r.1.text ++ ", " ++ r.2.text ++ ")")

def text (v : View) : String :=
  let mask := match v.mask with
    | some m => ", mask=" ++ maskText m
    | none => ""
  "View(shape=" ++ shapeText v.shape ++ ", strides=" ++ shapeText v.strides ++ ", offset="
    ++ v.offset.text ++ mask ++ ")"

end View

end LazyTensor

import LazyTensor.View.Moves

/-!
Layouts: stacks of views from the coordinates of a tensor down to its buffer.

The top view takes logical coordinates. The position it gives is unravelled in the shape of the view
below it, and so on; the last view addresses the buffer.
-/

namespace LazyTensor

structure Layout where
  top : View
  /-- The views under the top one, the one that addresses the buffer last. -/
  below : List View
  deriving DecidableEq, Repr

namespace Layout

def ofViews? (views : List View) : Option Layout :=
  match views.reverse with
  | [] => none
  | top :: below => some ⟨top, below⟩

def views (l : Layout) : List View := (l.top :: l.below).reverse

def shape (l : Layout) : Shape := l.top.shape

def rank (l : Layout) : Nat := l.top.rank

def isContiguous (l : Layout) : Bool := l.below.isEmpty && l.top.contiguous

def hasMask (l : Layout) : Bool := (l.top :: l.below).any (·.mask.isSome)

def bottom (l : Layout) : View := l.below.getLast?.getD l.top

def vars (l : Layout) : List SymVar :=
  l.views.foldl (fun acc v => insertElems SymVar.cmp v.vars acc) []

def text (l : Layout) : String :=
  "ShapeTracker[" ++ String.intercalate ", " (l.views.map View.text) ++ "]"

variable [Width]

def ofShape (shape : Shape) : Layout := ⟨.ofShape shape, []⟩

def size (l : Layout) : SymInt := l.top.size

/-- Merges views from the top for as long as two make one. -/
def settle (top : View) : List View → Layout
  | [] => ⟨top, []⟩
  | v :: rest =>
    match v.merge? top with
    | some merged => settle merged rest
    | none => ⟨top, v :: rest⟩

def simplify (l : Layout) : Layout := settle l.top l.below

def push (l : Layout) (v : View) : Layout := settle v (l.top :: l.below)

def compose (l m : Layout) : Layout := m.views.foldl push l

def move (l : Layout) (f : View → Except BuildError View) : Except BuildError Layout :=
  (f l.top).map fun v => { l with top := v }

def reshape (l : Layout) (new : Shape) : Except BuildError Layout := do
  match ← l.top.reshape new with
  | some v => return settle v l.below
  | none => return l.push (.ofShape new)

def permute (l : Layout) (axes : List Nat) : Except BuildError Layout := l.move (·.permute axes)

def expand (l : Layout) (new : Shape) : Except BuildError Layout := l.move (·.expand new)

def pad (l : Layout) (padding : List (Nat × Nat)) : Except BuildError Layout :=
  l.move (·.pad padding)

def shrink (l : Layout) (ranges : List (SymInt × SymInt)) : Except BuildError Layout :=
  l.move (·.shrink ranges)

def stride (l : Layout) (steps : List Int) : Except BuildError Layout := l.move (·.stride steps)

def flip (l : Layout) (axes : List Bool) : Except BuildError Layout := l.move (·.flip axes)

/-- Follows a position through the views below. -/
def indexBelow : List View → Int → Option Int
  | [], i => some i
  | v :: rest, i => do
    let shape ← boundShape? v.shape
    if i < 0 ∨ Width.wrap (product shape) ≤ i then none
    else indexBelow rest (← v.index (unravel shape i))

def index (l : Layout) (coords : List Int) : Option Int :=
  (l.top.index coords).bind (indexBelow l.below)

def indexFlat (l : Layout) (flat : Int) : Option Int := do
  let shape ← boundShape? l.shape
  l.index (unravel shape flat)

/-- One past the largest offset that the view next to the buffer can give. -/
def realSize? (l : Layout) : Option Int :=
  let v := l.bottom
  if v.isInvalid then some 0
  else do
    let shape ← boundShape? v.shape
    let strides ← boundShape? v.strides
    let ranges ← match v.mask with
      | some m => m.mapM fun r => do return (← r.1.evalBound?, ← r.2.evalBound?)
      | none => some (shape.map fun d => (0, d))
    let offset ← v.offset.evalBound?
    let last := (ranges.zip strides).foldl
      (fun acc (r, s) => acc + if 0 < s then (r.2 - 1) * s else r.1 * s) offset
    return Width.wrap (last + 1)

def unbind (l : Layout) : Layout × Bindings :=
  (⟨l.top.unbind.1, l.below.map fun v => v.unbind.1⟩,
    l.views.foldl (fun acc v => insertKeys SymVar.cmp v.unbind.2 acc) [])

end Layout

end LazyTensor

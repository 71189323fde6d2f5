import LazyTensor.Movement
import LazyTensor.Proofs.View.RowMajor

/-!
# Movements of a dense array

An array with all its entries written out, in row-major order, and what each movement does to it.
The entries of an array stand for the elements of a buffer, and nothing stands in padding.
-/

namespace LazyTensor

inductive Move where
  | reshape (shape : List Int)
  | permute (axes : List Nat)
  | expand (shape : List Int)
  /-- How many elements are added before and after each dimension. -/
  | pad (padding : List (Nat × Nat))
  | shrink (ranges : List (Int × Int))
  /-- A negative step also reverses the dimension. -/
  | stride (steps : List Int)
  | flip (axes : List Bool)
  deriving DecidableEq

/-- What a movement does along one dimension. -/
inductive AxisMove where
  | expand (size : Int)
  | pad (before after : Nat)
  | shrink (start stop : Int)
  | stride (step : Int)

namespace AxisMove

/-- Only a dimension of size one can change its size by repetition, a window lies inside the
dimension, and a step leads somewhere. -/
def Legal : AxisMove → (dim : Int) → Prop
  | .expand size, dim => 0 ≤ size ∧ (dim = size ∨ dim = 1)
  | .pad _ _, _ => True
  | .shrink start stop, dim => 0 ≤ start ∧ start ≤ stop ∧ stop ≤ dim
  | .stride step, _ => step ≠ 0

instance : (move : AxisMove) → (dim : Int) → Decidable (move.Legal dim)
  | .expand size, dim => inferInstanceAs (Decidable (0 ≤ size ∧ (dim = size ∨ dim = 1)))
  | .pad _ _, _ => inferInstanceAs (Decidable True)
  | .shrink start stop, dim => inferInstanceAs (Decidable (0 ≤ start ∧ start ≤ stop ∧ stop ≤ dim))
  | .stride step, _ => inferInstanceAs (Decidable (step ≠ 0))

def size : AxisMove → (dim : Int) → Int
  | .expand size, _ => size
  | .pad before after, dim => before + dim + after
  | .shrink start stop, _ => stop - start
  | .stride step, dim => (dim + step.natAbs - 1) / step.natAbs

/-- Where the element at `c` was before the movement. -/
def source : AxisMove → (dim c : Int) → Option Int
  | .expand _, dim, c => some (if dim = 1 then 0 else c)
  | .pad before _, dim, c => if before ≤ c ∧ c < before + dim then some (c - before) else none
  | .shrink start _, _, c => some (c + start)
  | .stride step, dim, c => some (if step < 0 then dim - 1 + step * c else step * c)

end AxisMove

namespace Move

def toMovement : Move → Movement
  | .reshape shape => .reshape (shape.map .const)
  | .permute axes => .permute axes
  | .expand shape => .expand (shape.map .const)
  | .pad padding => .pad padding
  | .shrink ranges => .shrink (ranges.map fun r => (.const r.1, .const r.2))
  | .stride steps => .stride steps
  | .flip axes => .flip axes

/-- The movement along each dimension, for those that treat the dimensions one by one. -/
def alongAxes : Move → List AxisMove
  | .reshape _ => []
  | .permute _ => []
  | .expand shape => shape.map .expand
  | .pad padding => padding.map fun p => .pad p.1 p.2
  | .shrink ranges => ranges.map fun r => .shrink r.1 r.2
  | .stride steps => steps.map .stride
  | .flip axes => axes.map fun f => .stride (if f then -1 else 1)

def LegalAlong : List AxisMove → List Int → Prop
  | [], [] => True
  | move :: moves, d :: shape => move.Legal d ∧ LegalAlong moves shape
  | _, _ => False

instance decidableLegalAlong : (moves : List AxisMove) → (shape : List Int) →
    Decidable (LegalAlong moves shape)
  | [], [] => .isTrue trivial
  | move :: moves, d :: shape =>
    have := decidableLegalAlong moves shape
    inferInstanceAs (Decidable (move.Legal d ∧ LegalAlong moves shape))
  | [], _ :: _ => .isFalse id
  | _ :: _, [] => .isFalse id

def Legal (move : Move) (shape : List Int) : Prop :=
  match move with
  | .reshape new => 1 ≤ new.length ∧ (∀ d ∈ new, 0 ≤ d) ∧ product new = product shape
  | .permute axes => axes.length = shape.length ∧ (∀ a ∈ axes, a < shape.length) ∧ axes.Nodup
  | move => LegalAlong move.alongAxes shape

instance (move : Move) (shape : List Int) : Decidable (move.Legal shape) := by
  cases move <;> (unfold Legal; infer_instance)

/-- The coordinates before movements along the axes, unless they lie in padding. -/
def sourceAlong : List AxisMove → (shape coords : List Int) → Option (List Int)
  | move :: moves, d :: shape, c :: coords => do
    return (← move.source d c) :: (← sourceAlong moves shape coords)
  | _, _, _ => some []

/-- Axis `i` of the coordinates is axis `axes[i]` of the result. -/
def sourceOfPermute (axes : List Nat) (coords : List Int) : List Int :=
  (List.range axes.length).map fun a => coords.getD (axes.idxOf a) 0

def target (shape : List Int) : Move → List Int
  | .reshape new => new
  | .permute axes => axes.map fun a => shape.getD a 0
  | move => move.alongAxes.zipWith AxisMove.size shape

def source (shape coords : List Int) : Move → Option (List Int)
  | .reshape new => some (unravel shape (ravel new coords))
  | .permute axes => some (sourceOfPermute axes coords)
  | move => sourceAlong move.alongAxes shape coords

/-- Every movement can be applied to the shape that the ones before it lead to. -/
def LegalRun : (shape : List Int) → List Move → Prop
  | _, [] => True
  | shape, move :: moves => move.Legal shape ∧ LegalRun (move.target shape) moves

instance decidableLegalRun : (shape : List Int) → (moves : List Move) →
    Decidable (LegalRun shape moves)
  | _, [] => .isTrue trivial
  | shape, move :: moves =>
    have := decidableLegalRun (move.target shape) moves
    inferInstanceAs (Decidable (move.Legal shape ∧ LegalRun (move.target shape) moves))

/-- The shapes before, between and after the movements. -/
def shapesAlong : (shape : List Int) → List Move → List (List Int)
  | shape, [] => [shape]
  | shape, move :: moves => shape :: shapesAlong (move.target shape) moves

theorem head_mem_shapesAlong (shape : List Int) (moves : List Move) :
    shape ∈ shapesAlong shape moves := by
  cases moves <;> exact List.mem_cons_self

end Move

/-- An array with its entries in row-major order. -/
structure Reference where
  shape : List Int
  data : List (Option Int)

namespace Reference

/-- The array whose entries are the offsets into a buffer of its shape. -/
def ofShape (shape : List Int) : Reference :=
  ⟨shape, (List.range (product shape).toNat).map fun i : Nat => some (i : Int)⟩

def entry (r : Reference) (coords : List Int) : Option Int :=
  (r.data[(ravel r.shape coords).toNat]?).join

/-- The array of the given shape with entry `f coords` at `coords`. -/
def build (shape : List Int) (f : List Int → Option Int) : Reference :=
  ⟨shape, (List.range (product shape).toNat).map fun i : Nat => f (unravel shape i)⟩

/-- A reshape keeps the entries; the other movements rearrange them. -/
def apply (r : Reference) : Move → Reference
  | .reshape shape => { r with shape }
  | move => build (move.target r.shape) fun coords => (move.source r.shape coords).bind r.entry

theorem shape_apply (r : Reference) (move : Move) : (r.apply move).shape = move.target r.shape := by
  cases move <;> rfl

variable {shape coords : List Int}

theorem entry_build (hin : InShape shape coords) (f : List Int → Option Int) :
    (build shape f).entry coords = f coords := by
  obtain ⟨hlow, hhigh⟩ := ravel_nonneg_and_lt hin
  have hlt : (ravel shape coords).toNat < (product shape).toNat := by omega
  simp only [entry, build, List.getElem?_map, List.getElem?_range hlt, Option.map_some,
    Option.join_some, Int.toNat_of_nonneg hlow, unravel_ravel hin]

theorem entry_apply (r : Reference) (hdims : ∀ d ∈ r.shape, 0 ≤ d) {move : Move}
    (hlegal : move.Legal r.shape) (hin : InShape (move.target r.shape) coords) :
    (r.apply move).entry coords = (move.source r.shape coords).bind r.entry := by
  cases move with
  | reshape shape =>
    have hin : InShape shape coords := hin
    obtain ⟨hlow, hhigh⟩ := ravel_nonneg_and_lt hin
    have hsize : product shape = product r.shape := hlegal.2.2
    simp only [entry, apply, Move.source, Option.bind_some,
      ravel_unravel hdims hlow (hsize ▸ hhigh)]
  | permute axes | expand shape | pad padding | shrink ranges | stride steps | flip axes =>
    exact entry_build hin _

end Reference

end LazyTensor

import LazyTensor.Layout

/-!
Movements: changes of shape that move no data.
-/

namespace LazyTensor

inductive Movement where
  | reshape (shape : Shape)
  | expand (shape : Shape)
  | permute (axes : List Nat)
  /-- How many elements are added before and after each dimension. -/
  | pad (padding : List (Nat × Nat))
  | shrink (ranges : List (SymInt × SymInt))
  | stride (steps : List Int)
  | flip (axes : List Bool)
  deriving DecidableEq

variable [Width]

/-- The view after a movement; a reshape may need a second view and then gives none. -/
def View.apply (v : View) : Movement → Except BuildError (Option View)
  | .reshape shape => v.reshape shape
  | .expand shape => some <$> v.expand shape
  | .permute axes => some <$> v.permute axes
  | .pad padding => some <$> v.pad padding
  | .shrink ranges => some <$> v.shrink ranges
  | .stride steps => some <$> v.stride steps
  | .flip axes => some <$> v.flip axes

def Layout.apply (l : Layout) : Movement → Except BuildError Layout
  | .reshape shape => l.reshape shape
  | .expand shape => l.expand shape
  | .permute axes => l.permute axes
  | .pad padding => l.pad padding
  | .shrink ranges => l.shrink ranges
  | .stride steps => l.stride steps
  | .flip axes => l.flip axes

end LazyTensor

import LazyTensor.Order

/-!
Named integers of a known range, which may be bound to a value for one run.
-/

namespace LazyTensor

structure SymVar where
  name : String
  min : Int
  max : Int
  value : Option Int := none
  deriving DecidableEq, Repr

namespace SymVar

def compareValue : Option Int → Option Int → Ordering
  | none, none => .eq
  | none, some _ => .lt
  | some _, none => .gt
  | some a, some b => compare a b

def cmp (a b : SymVar) : Ordering :=
  (compare a.name b.name).then <| (compare a.min b.min).then <|
    (compare a.max b.max).then (compareValue a.value b.value)

def unbound (v : SymVar) : SymVar := { v with value := none }

def text (v : SymVar) : String :=
  match v.value with
  | some x => v.name ++ "=" ++ toString x
  | none => v.name

end SymVar

end LazyTensor

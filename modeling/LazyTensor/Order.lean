/-!
Sorted lists: stable insertion sort, and finite maps and sets kept as strictly increasing lists.
-/

namespace LazyTensor

universe u v

variable {α : Type u} {κ : Type u} {β : Type v}

def insertSorted (le : α → α → Bool) (a : α) : List α → List α
  | [] => [a]
  | b :: rest => if le a b then a :: b :: rest else b :: insertSorted le a rest

/-- Stable: elements that compare as equal keep their relative order. -/
def sortBy (le : α → α → Bool) : List α → List α
  | [] => []
  | a :: rest => insertSorted le a (sortBy le rest)

def firstMin? (key : α → Nat) : List α → Option α
  | [] => none
  | a :: rest => some (rest.foldl (fun best b => if key b < key best then b else best) a)

def lastMax? (key : α → Nat) : List α → Option α
  | [] => none
  | a :: rest => some (rest.foldl (fun best b => if key best ≤ key b then b else best) a)

/-- Lexicographic order of lists, a proper initial part coming first. -/
def compareLists (cmp : α → α → Ordering) : List α → List α → Ordering
  | [], [] => .eq
  | [], _ :: _ => .lt
  | _ :: _, [] => .gt
  | a :: as, b :: bs => (cmp a b).then (compareLists cmp as bs)

/-- Binds `k` in a map kept in increasing key order, replacing an earlier binding. -/
def insertKey (cmp : κ → κ → Ordering) (k : κ) (b : β) : List (κ × β) → List (κ × β)
  | [] => [(k, b)]
  | (k', b') :: rest =>
    match cmp k k' with
    | .lt => (k, b) :: (k', b') :: rest
    | .eq => (k, b) :: rest
    | .gt => (k', b') :: insertKey cmp k b rest

def insertKeys (cmp : κ → κ → Ordering) (new : List (κ × β)) (old : List (κ × β)) :
    List (κ × β) :=
  new.foldl (fun acc entry => insertKey cmp entry.1 entry.2 acc) old

def insertElem (cmp : α → α → Ordering) (a : α) : List α → List α
  | [] => [a]
  | b :: rest =>
    match cmp a b with
    | .lt => a :: b :: rest
    | .eq => b :: rest
    | .gt => b :: insertElem cmp a rest

def insertElems (cmp : α → α → Ordering) (new : List α) (old : List α) : List α :=
  new.foldl (fun acc a => insertElem cmp a acc) old

end LazyTensor

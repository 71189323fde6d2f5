import LazyTensor.Proofs.View.RowMajor
import LazyTensor.Realize
import Mathlib.Data.List.GetD
import Mathlib.Data.List.Induction

/-!
# What arrays hold

The meaning of operation trees and of tensors, as arrays of elements that may lack a value. Both are
tables whose entries refer to earlier entries, and both get their meaning one entry after the other:
a tree from what its slots hold, a session from what its memory holds.
-/

namespace LazyTensor

/-- An array by its elements, some of which may have no value. -/
structure Elements where
  dims : List Int
  get : List Int → Option Value

instance : Inhabited Elements := ⟨⟨[], fun _ => none⟩⟩

def coordinates (dims : List Int) : List (List Int) :=
  (List.range (product dims).toNat).map fun i : Nat => unravel dims i

namespace Elements

def flat (a : Elements) (position : Int) : Option Value := a.get (unravel a.dims position)

/-- All elements in row-major order, if every one has a value. -/
def values (a : Elements) : Option (List Value) := (coordinates a.dims).mapM a.get

end Elements

/-- The coordinates that a reduction of some axes takes into `coords`, in row-major order. -/
def fiber (axes : List Nat) : (axis : Nat) → (dims coords : List Int) → List (List Int)
  | axis, d :: dims, c :: coords =>
    let heads := if axes.contains axis then (List.range d.toNat).map Int.ofNat else [c]
    heads.flatMap fun x => (fiber axes (axis + 1) dims coords).map (x :: ·)
  | _, _, _ => [[]]

/-- Takes elements into an accumulator one after the other, starting from the identity. -/
def ReduceOp.fold (op : ReduceOp) (t : DType) (get : List Int → Option Value)
    (cs : List (List Int)) : Option Value :=
  cs.foldlM (fun acc c => (get c).bind (op.combine.eval t acc)) (op.identity t.base)

def Memory.element (m : Memory) (id : BufferId) (position : Int) : Option Value :=
  (m.get? id).bind fun b => (b.readElement position).toOption

/-- The meanings of entries that refer to earlier ones by their place. -/
def tabulate {ν : Type} (meaning : (Nat → Elements) → ν → Elements) (nodes : List ν) :
    List Elements :=
  nodes.foldl (fun table n => table ++ [meaning (table.getD · default) n]) []

section Meaning

variable [Width]

def dimsOf (shape : Shape) : List Int := (boundShape? shape).getD []

/-- What a layout shows of an array at `coords`: zero where it masks the element out. -/
def Layout.read (l : Layout) (t : DType) (get : Int → Option Value) (coords : List Int) :
    Option Value :=
  match l.index coords with
  | some position => get position
  | none => some (.zero t.base)

def ExprNode.elements (args : Nat → Int → Option Value) (table : Nat → Elements) (n : ExprNode) :
    Elements where
  dims := dimsOf n.shape
  get c :=
    match n.op with
    | .load slot l => l.read n.dtype (args slot) c
    | .const v l => l.read n.dtype (fun _ => some v) c
    | .unary op a => do op.eval n.dtype (← (table a).get c)
    | .binary op a b => do op.eval n.dtype (← (table a).get c) (← (table b).get c)
    | .ternary op x y z => do
      op.eval n.dtype (← (table x).get c) (← (table y).get c) (← (table z).get c)
    | .cast a => do (← (table a).get c).cast n.dtype
    | .reduce op axes a => op.fold n.dtype (table a).get (fiber axes 0 (table a).dims c)
    | .store _ _ a => (table a).get c
    | .sink _ => none

/-- The array at each place of a tree whose slots hold `args`. -/
def Expr.elements (e : Expr) (args : Nat → Int → Option Value) (i : Nat) : Elements :=
  (tabulate (ExprNode.elements args) e.nodes.toList).getD i default

def TensorNode.elements (m : Memory) (table : Nat → Elements) (n : TensorNode) : Elements where
  dims := dimsOf n.shape
  get c :=
    match n.op with
    | .buffer => n.storage.bind fun id => m.element id (ravel (dimsOf n.shape) c)
    | .const v => some v
    | .view base l => l.read n.dtype (table base).flat c
    | .unary op a => do op.eval n.dtype (← (table a).get c)
    | .binary op a b => do op.eval n.dtype (← (table a).get c) (← (table b).get c)
    | .ternary op x y z => do
      op.eval n.dtype (← (table x).get c) (← (table y).get c) (← (table z).get c)
    | .cast a => do (← (table a).get c).cast n.dtype
    | .reduce op axes a => op.fold n.dtype (table a).get (fiber axes 0 (table a).dims c)
    | .contiguous a => (table a).get c
    | .assign _ value => (table value).get c

/-- The array that a tensor stands for, computed node by node without any kernels. -/
def Session.elements (s : Session) (t : Tensor) : Elements :=
  (tabulate (TensorNode.elements s.memory) s.nodes.toList).getD t default

end Meaning

/-! ### Entry by entry -/

section Tabulate

variable {ν : Type} {meaning : (Nat → Elements) → ν → Elements} {nodes more : List ν} {i : Nat}

theorem tabulate_concat (nodes : List ν) (n : ν) :
    tabulate meaning (nodes ++ [n])
      = tabulate meaning nodes ++ [meaning ((tabulate meaning nodes).getD · default) n] := by
  rw [tabulate, List.foldl_append]
  rfl

@[simp]
theorem length_tabulate (nodes : List ν) : (tabulate meaning nodes).length = nodes.length := by
  induction nodes using List.reverseRecOn with
  | nil => rfl
  | append_singleton nodes n ih =>
    rw [tabulate_concat, List.length_append, List.length_append, ih]
    rfl

theorem getD_tabulate_append (nodes more : List ν) (hi : i < nodes.length) :
    (tabulate meaning (nodes ++ more)).getD i default
      = (tabulate meaning nodes).getD i default := by
  induction more using List.reverseRecOn with
  | nil => rw [List.append_nil]
  | append_singleton more n ih =>
    rw [← List.append_assoc, tabulate_concat, List.getD_append _ _ _ _ ?_, ih]
    rw [length_tabulate, List.length_append]
    omega

theorem getD_tabulate (sources : ν → List Nat) {n : ν}
    (hlocal : ∀ f g : Nat → Elements, (∀ j ∈ sources n, f j = g j) → meaning f n = meaning g n)
    (hi : nodes[i]? = some n) (hsources : ∀ j ∈ sources n, j < i) :
    (tabulate meaning nodes).getD i default
      = meaning (fun j => (tabulate meaning nodes).getD j default) n := by
  obtain ⟨hlt, rfl⟩ := List.getElem?_eq_some_iff.mp hi
  have hsplit : nodes = nodes.take i ++ [nodes[i]] ++ nodes.drop (i + 1) := by
    rw [List.append_assoc, List.singleton_append, List.getElem_cons_drop, List.take_append_drop]
  have hlength : (nodes.take i).length = i := List.length_take_of_le hlt.le
  have hbefore : ∀ j, j < i → (tabulate meaning nodes).getD j default
      = (tabulate meaning (nodes.take i)).getD j default := by
    intro j hj
    conv_lhs => rw [← List.take_append_drop i nodes]
    exact getD_tabulate_append _ _ (by omega)
  calc (tabulate meaning nodes).getD i default
      = (tabulate meaning (nodes.take i ++ [nodes[i]])).getD i default := by
        conv_lhs => rw [hsplit]
        exact getD_tabulate_append _ _ (by rw [List.length_append, hlength]; exact Nat.lt_succ_self i)
    _ = meaning ((tabulate meaning (nodes.take i)).getD · default) nodes[i] := by
        rw [tabulate_concat, List.getD_append_right _ _ _ _ (by rw [length_tabulate, hlength]),
          length_tabulate, hlength, Nat.sub_self]
        rfl
    _ = meaning (fun j => (tabulate meaning nodes).getD j default) nodes[i] :=
        hlocal _ _ fun j hj => (hbefore j (hsources j hj)).symm

end Tabulate

/-! ### Reductions -/

section Reductions

variable {axes axes' : List Nat} {axis : Nat} {dims coords : List Int}

def reducedDims (axes : List Nat) : (axis : Nat) → List Int → List Int
  | _, [] => []
  | axis, d :: dims => (if axes.contains axis then 1 else d) :: reducedDims axes (axis + 1) dims

theorem reducedShape_const (axes : List Nat) (dims : List Int) :
    Expr.reducedShape (dims.map .const) axes = (reducedDims axes 0 dims).map .const := by
  have hfrom : ∀ (dims : List Int) (axis : Nat),
      ((dims.map SymInt.const).zipIdx axis).map (fun p => if axes.contains p.2 then 1 else p.1)
        = (reducedDims axes axis dims).map .const := by
    intro dims
    induction dims with
    | nil => exact fun _ => rfl
    | cons d dims ih =>
      intro axis
      rw [List.map_cons, List.zipIdx_cons, List.map_cons, ih, reducedDims, List.map_cons]
      exact congrArg (· :: _) (apply_ite SymInt.const _ _ _).symm
  exact hfrom dims 0

theorem reducedShape_congr (h : ∀ i, axes.contains i = axes'.contains i) (shape : Shape) :
    Expr.reducedShape shape axes = Expr.reducedShape shape axes' := by
  simp only [Expr.reducedShape, h]

theorem fiber_congr (h : ∀ i, axes.contains i = axes'.contains i) :
    fiber axes axis dims coords = fiber axes' axis dims coords := by
  induction dims generalizing axis coords with
  | nil => rfl
  | cons d dims ih =>
    cases coords with
    | nil => rfl
    | cons c coords =>
      rw [fiber, fiber, h]
      simp only [ih]

theorem inShape_of_mem_fiber (hin : InShape (reducedDims axes axis dims) coords) {c : List Int}
    (hc : c ∈ fiber axes axis dims coords) : InShape dims c := by
  induction dims generalizing axis coords c with
  | nil => exact inShape_nil_iff.mpr (List.mem_singleton.mp hc)
  | cons d dims ih =>
    obtain ⟨x, coords, rfl, hx, hrest⟩ := inShape_cons.mp hin
    obtain ⟨y, hy, hc⟩ := List.mem_flatMap.mp hc
    obtain ⟨ys, hys, rfl⟩ := List.mem_map.mp hc
    refine inShape_cons_cons.mpr ⟨?_, ih hrest hys⟩
    split at hy
    next =>
      obtain ⟨k, hk, rfl⟩ := List.mem_map.mp hy
      rw [List.mem_range] at hk
      exact ⟨Int.natCast_nonneg k, Int.lt_toNat.mp hk⟩
    next hkept =>
      rw [if_neg hkept] at hx
      rw [List.mem_singleton.mp hy]
      exact hx

theorem ReduceOp.fold_congr {op : ReduceOp} {t : DType} {get get' : List Int → Option Value}
    {cs : List (List Int)} (h : ∀ c ∈ cs, get c = get' c) : op.fold t get cs = op.fold t get' cs := by
  have hfrom : ∀ (cs : List (List Int)) (acc : Value), (∀ c ∈ cs, get c = get' c) →
      cs.foldlM (fun acc c => (get c).bind (op.combine.eval t acc)) acc
        = cs.foldlM (fun acc c => (get' c).bind (op.combine.eval t acc)) acc := by
    intro cs
    induction cs with
    | nil => exact fun _ _ => rfl
    | cons c cs ih =>
      intro acc h
      rw [List.forall_mem_cons] at h
      rw [List.foldlM_cons, List.foldlM_cons, h.1]
      exact bind_congr fun next => ih next h.2
  exact hfrom cs _ h

end Reductions

section Entries

variable [Width] {args : Nat → Int → Option Value} {f g table : Nat → Elements} {m : Memory}
  {n : TensorNode}

theorem ExprNode.elements_congr {n : ExprNode} (h : ∀ j ∈ n.op.sources, f j = g j) :
    n.elements args f = n.elements args g := by
  obtain ⟨op, dtype, shape⟩ := n
  cases op <;> simp_all [ExprNode.elements, ExprOp.sources]

theorem TensorNode.elements_congr (h : ∀ j ∈ n.op.sources, f j = g j) :
    n.elements m f = n.elements m g := by
  obtain ⟨op, dtype, device, shape, storage⟩ := n
  cases op <;> simp_all [TensorNode.elements, TensorOp.sources]

theorem TensorNode.elements_memory {m' : Memory}
    (h : ∀ id, n.storage = some id → m'.get? id = m.get? id) :
    n.elements m' table = n.elements m table := by
  obtain ⟨op, dtype, device, shape, storage⟩ := n
  cases op with
  | buffer =>
    cases storage with
    | none => rfl
    | some id => simp only [TensorNode.elements, Option.bind_some, Memory.element, h id rfl]
  | _ => rfl

theorem TensorNode.elements_storage {place : Option BufferId} (h : n.op ≠ .buffer) :
    ({ n with storage := place } : TensorNode).elements m table = n.elements m table := by
  obtain ⟨op, dtype, device, shape, storage⟩ := n
  cases op with
  | buffer => exact absurd rfl h
  | _ => rfl

theorem Expr.elements_eq {e : Expr} {i : Nat} {n : ExprNode} (hi : e.nodes[i]? = some n)
    (hsources : ∀ j ∈ n.op.sources, j < i) :
    e.elements args i = n.elements args (e.elements args) :=
  getD_tabulate (fun n => n.op.sources) (fun _ _ h => ExprNode.elements_congr h)
    (by simpa using hi) hsources

theorem Session.elements_eq {s : Session} {t : Tensor} (ht : t < s.nodes.size)
    (hsources : ∀ a ∈ (s.op t).sources, a < t) :
    s.elements t = (s.node t).elements s.memory s.elements := by
  have hnode : s.nodes[t]? = some (s.node t) := by
    rw [Session.node, Array.getD_eq_getD_getElem?, Array.getElem?_eq_getElem ht, Option.getD_some]
  exact getD_tabulate (fun n => n.op.sources) (fun _ _ h => TensorNode.elements_congr h)
    (by simpa using hnode) hsources

end Entries

end LazyTensor

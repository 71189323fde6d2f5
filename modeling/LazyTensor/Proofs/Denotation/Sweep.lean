import LazyTensor.Proofs.Denotation.Run
import LazyTensor.Proofs.Expr.Build
import Mathlib.Data.List.Forall2
import Mathlib.Logic.Relation

/-!
# Kernels that read what they write

A kernel computes one element after the other, each from what its buffers hold by then. The elements
that go into one are found by walking down the tree. Where the tree reads its own output through the
layout in which it stores, an iteration reads no element of the output but the one that it stores;
if no two iterations store the same element, the kernel does in any order what it does with the
contents that it found.
-/

namespace LazyTensor

variable [Width]

/-! ### What an element is computed from -/

namespace Expr

/-- The elements of its operands from which a node computes its own at `coords`. -/
def demands (e : Expr) (i : Nat) (coords : List Int) : List (Nat × List Int) :=
  match (e.node i).op with
  | .reduce _ axes a => (fiber axes 0 (dimsOf (e.node a).shape) coords).map (a, ·)
  | .sink _ => []
  | op => op.sources.map (·, coords)

def Visits (e : Expr) : Nat × List Int → Nat × List Int → Prop :=
  Relation.ReflTransGen fun p q => q ∈ e.demands p.1 p.2

/-- For the element of the place `i` at `coords`, a position of a slot is read. -/
def Reads (e : Expr) (slot i : Nat) (coords : List Int) (position : Int) : Prop :=
  ∃ j coords' l, e.Visits (i, coords) (j, coords') ∧ (e.node j).op = .load slot l ∧
    l.index coords' = some position

variable {e : Expr} {i j a slot : Nat} {coords coords' : List Int} {position : Int}
  {args args' : Nat → Int → Option Value}

theorem Reads.of_demand (hdemand : (a, coords') ∈ e.demands i coords)
    (h : e.Reads slot a coords' position) : e.Reads slot i coords position := by
  obtain ⟨j, coords'', l, hvisits, hop, hindex⟩ := h
  exact ⟨j, coords'', l, .head hdemand hvisits, hop, hindex⟩

theorem elements_node (hordered : e.Ordered) (hi : i < e.size) :
    e.elements args i = (e.node i).elements args (e.elements args) :=
  have hnode := getElem?_eq_some_node hi
  elements_eq hnode (hordered i _ hnode)

theorem dims_elements (hordered : e.Ordered) (hi : i < e.size) :
    (e.elements args i).dims = dimsOf (e.node i).shape := by
  rw [elements_node hordered hi]
  rfl

theorem get_congr_of_reads (hordered : e.Ordered) (hi : i < e.size)
    (h : ∀ slot position, e.Reads slot i coords position → args slot position = args' slot position) :
    (e.elements args i).get coords = (e.elements args' i).get coords := by
  induction i using Nat.strong_induction_on generalizing coords with
  | _ i ih =>
    have hlt : ∀ a ∈ (e.node i).op.sources, a < i := hordered i _ (getElem?_eq_some_node hi)
    have hdemand : ∀ a ∈ (e.node i).op.sources, ∀ c, (a, c) ∈ e.demands i coords →
        (e.elements args a).get c = (e.elements args' a).get c := by
      intro a ha c hc
      exact ih a (hlt a ha) ((hlt a ha).trans hi)
        fun slot position hreads => h slot position (hreads.of_demand hc)
    rw [elements_node hordered hi, elements_node hordered hi]
    cases hop : (e.node i).op with
    | load slot l =>
      simp only [ExprNode.elements, hop, Layout.read]
      cases hindex : l.index coords with
      | none => rfl
      | some position => exact h slot position ⟨i, coords, l, .refl, hop, hindex⟩
    | const v l | sink parts => simp only [ExprNode.elements, hop]
    | reduce op axes a =>
      have ha : a ∈ (e.node i).op.sources := by
        rw [hop]
        exact List.mem_singleton_self a
      have hsize : a < e.size := (hlt a ha).trans hi
      simp only [ExprNode.elements, hop, dims_elements hordered hsize]
      apply ReduceOp.fold_congr
      intro c hc
      apply hdemand a ha c
      rw [demands, hop]
      exact List.mem_map_of_mem hc
    | _ =>
      -- The operands are needed at the same coordinates.
      have hsame : ∀ a ∈ (e.node i).op.sources,
          (e.elements args a).get coords = (e.elements args' a).get coords := by
        intro a ha
        apply hdemand a ha coords
        rw [hop] at ha
        rw [demands, hop]
        exact List.mem_map_of_mem ha
      rw [hop] at hsame
      simp only [ExprOp.sources, List.mem_cons, List.not_mem_nil, or_false, forall_eq_or_imp,
        forall_eq] at hsame
      simp only [ExprNode.elements, hop, hsame]

end Expr

/-! ### Shapes -/

section Shapes

omit [Width]

variable {axes : List Nat} {axis : Nat} {shape shape' : Shape}

/-- Some dimensions of a shape are reduced to 1. -/
def Reduces (shape shape' : Shape) : Prop := List.Forall₂ (fun d d' => d' = d ∨ d' = 1) shape shape'

theorem Reduces.refl (shape : Shape) : Reduces shape shape :=
  List.forall₂_same.mpr fun _ _ => .inl rfl

theorem Reduces.trans {shape'' : Shape} (h : Reduces shape shape') (h' : Reduces shape' shape'') :
    Reduces shape shape'' := by
  induction h generalizing shape'' with
  | nil => exact h'
  | cons hd _ ih =>
    obtain ⟨d'', rest, hd', hrest, rfl⟩ := List.forall₂_cons_left_iff.mp h'
    refine .cons ?_ (ih hrest)
    rcases hd' with rfl | rfl
    · exact hd
    · exact .inr rfl

theorem Reduces.antisymm (h : Reduces shape shape') (h' : Reduces shape' shape) : shape = shape' := by
  induction h with
  | nil => rfl
  | cons hd _ ih =>
    obtain ⟨hd', hrest⟩ := List.forall₂_cons.mp h'
    rw [ih hrest]
    rcases hd with rfl | rfl
    · rfl
    · rcases hd' with rfl | rfl <;> rfl

theorem reduces_reducedShape (shape : Shape) (axes : List Nat) :
    Reduces shape (Expr.reducedShape shape axes) := by
  have hfrom : ∀ (shape : Shape) (axis : Nat), Reduces shape
      ((shape.zipIdx axis).map fun p => if axes.contains p.2 then 1 else p.1) := by
    intro shape
    induction shape with
    | nil => exact fun _ => .nil
    | cons d shape ih =>
      intro axis
      rw [List.zipIdx_cons, List.map_cons]
      refine .cons ?_ (ih (axis + 1))
      dsimp only
      split
      · exact .inr rfl
      · exact .inl rfl
  exact hfrom shape 0

theorem reducedDims_dimsOf [Width] (h : Expr.reducedShape shape axes = shape) :
    reducedDims axes 0 (dimsOf shape) = dimsOf shape := by
  have hfrom : ∀ (shape : Shape) (axis : Nat) (dims : List Int),
      (shape.zipIdx axis).map (fun p => if axes.contains p.2 then 1 else p.1) = shape →
      shape.mapM SymInt.evalBound? = some dims → reducedDims axes axis dims = dims := by
    intro shape
    induction shape with
    | nil =>
      intro axis dims _ hdims
      cases hdims
      rfl
    | cons d shape ih =>
      intro axis dims h hdims
      rw [List.zipIdx_cons, List.map_cons, List.cons.injEq] at h
      rw [List.mapM_cons] at hdims
      obtain ⟨c, hc, hdims⟩ := Option.bind_eq_some_iff.mp hdims
      obtain ⟨rest, hrest, hdims⟩ := Option.bind_eq_some_iff.mp hdims
      obtain rfl : c :: rest = dims := Option.some.inj hdims
      rw [reducedDims, ih (axis + 1) rest h.2 hrest]
      split
      next hmem =>
        rw [if_pos hmem] at h
        obtain rfl : (1 : SymInt) = d := h.1
        cases hc
        rfl
      next => rfl
  rw [dimsOf, boundShape?]
  cases hdims : shape.mapM SymInt.evalBound? with
  | none => rfl
  | some dims => exact hfrom shape 0 dims h hdims

theorem fiber_unravel {dims : List Int} (h : reducedDims axes axis dims = dims) (position : Int) :
    fiber axes axis dims (unravel dims position) = [unravel dims position] := by
  induction dims generalizing axis with
  | nil => rfl
  | cons d dims ih =>
    rw [reducedDims, List.cons.injEq] at h
    have hunravel : unravel (d :: dims) position = (if 0 < d then
        (unravelRest dims position).2 % d else 0) :: unravel dims position := by
      rw [unravel, unravelRest]
      dsimp only
      split <;> rfl
    rw [hunravel, fiber, ih h.2]
    split
    next hmem =>
      rw [if_pos hmem] at h
      obtain rfl : 1 = d := h.1
      rw [if_pos Int.one_pos, Int.emod_one]
      rfl
    next => rfl

end Shapes

/-! ### Trees that read their output as they write it -/

/-- The shape of a node fits its layout and those of its operands. -/
def ExprNode.Sized (e : Expr) (n : ExprNode) : Prop :=
  match n.op with
  | .load _ l | .const _ l => l.shape = n.shape
  | .reduce _ axes a => n.shape = Expr.reducedShape (e.node a).shape axes
  | .store _ l a => l.shape = n.shape ∧ (e.node a).shape = n.shape
  | .sink _ => True
  | op => ∀ a ∈ op.sources, (e.node a).shape = n.shape

/-- A tree of fitting shapes that reads the slot 0 through one layout only. -/
structure Expr.Aligned (e : Expr) (store : Layout) : Prop where
  ordered : e.Ordered
  sized : ∀ n ∈ e.nodes, n.Sized e
  loads : ∀ n ∈ e.nodes, ∀ l, n.op = .load 0 l → l = store

namespace Expr.Aligned

variable {e : Expr} {store : Layout} (h : e.Aligned store) {c : List Int} {p q : Nat × List Int}

include h

omit [Width] in
theorem sized_node (i : Nat) : (e.node i).Sized e := by
  by_cases hi : i < e.size
  · exact h.sized _ (Array.mem_iff_getElem?.mpr ⟨i, getElem?_eq_some_node hi⟩)
  · have hnode : e.node i = default := by
      rw [node, Array.getD_eq_getD_getElem?, Array.getElem?_eq_none (Nat.le_of_not_lt hi)]
      rfl
    rw [hnode]
    trivial

theorem reduces_of_demand {i a : Nat} {c' : List Int} (hdemand : (a, c') ∈ e.demands i c) :
    Reduces (e.node a).shape (e.node i).shape := by
  have hsized := h.sized_node i
  rw [demands] at hdemand
  rw [ExprNode.Sized] at hsized
  cases hop : (e.node i).op with
  | reduce op axes b =>
    rw [hop] at hdemand hsized
    obtain ⟨c'', -, heq⟩ := List.mem_map.mp hdemand
    obtain ⟨rfl, -⟩ := Prod.mk.inj heq
    rw [hsized]
    exact reduces_reducedShape _ axes
  | load | const | sink =>
    rw [hop] at hdemand
    cases hdemand
  | store slot l b =>
    rw [hop] at hdemand hsized
    obtain ⟨rfl, -⟩ := Prod.mk.inj (List.mem_singleton.mp hdemand)
    rw [hsized.2]
    exact .refl _
  | _ =>
    rw [hop] at hdemand hsized
    obtain ⟨b, hb, heq⟩ := List.mem_map.mp hdemand
    obtain ⟨rfl, -⟩ := Prod.mk.inj heq
    rw [hsized b hb]
    exact .refl _

theorem reduces_of_visits (hvisits : e.Visits p q) :
    Reduces (e.node q.1).shape (e.node p.1).shape := by
  induction hvisits using Relation.ReflTransGen.head_induction_on with
  | refl => exact .refl _
  | head hdemand _ ih => exact ih.trans (h.reduces_of_demand hdemand)

theorem coords_of_visits (hvisits : e.Visits p q)
    (hshape : (e.node q.1).shape = (e.node p.1).shape)
    (hcoords : p.2 ∈ coordinates (dimsOf (e.node p.1).shape)) : q.2 = p.2 := by
  induction hvisits using Relation.ReflTransGen.head_induction_on with
  | refl => rfl
  | @head p r hdemand hrest ih =>
    -- No dimension gets smaller on the way, for none can get larger again.
    have hsame : (e.node r.1).shape = (e.node p.1).shape := by
      apply Reduces.antisymm (h.reduces_of_demand hdemand)
      rw [← hshape]
      exact h.reduces_of_visits hrest
    have hstep : r.2 = p.2 := by
      have hsized := h.sized_node p.1
      rw [demands] at hdemand
      rw [ExprNode.Sized] at hsized
      cases hop : (e.node p.1).op with
      | reduce op axes b =>
        rw [hop] at hdemand hsized
        obtain ⟨c, hc, rfl⟩ := List.mem_map.mp hdemand
        obtain ⟨k, -, hk⟩ := List.mem_map.mp hcoords
        rw [← hsame] at hk
        rw [← hk, fiber_unravel (reducedDims_dimsOf (hsized.symm.trans hsame.symm))] at hc
        rw [← hk]
        exact List.mem_singleton.mp hc
      | sink parts =>
        rw [hop] at hdemand
        cases hdemand
      | _ =>
        rw [hop] at hdemand
        obtain ⟨b, -, rfl⟩ := List.mem_map.mp hdemand
        rfl
    rw [← hstep]
    apply ih (hshape.trans hsame.symm)
    rw [hstep, hsame]
    exact hcoords

theorem index_of_reads {j x : Nat} {position : Int} (hop : (e.node j).op = .store 0 store x)
    (hc : c ∈ coordinates (dimsOf store.shape)) (hreads : e.Reads 0 x c position) :
    store.index c = some position := by
  obtain ⟨k, c', l, hvisits, hload, hindex⟩ := hreads
  have hk : k < e.size := lt_size_of_op hload (by simp)
  obtain rfl : l = store :=
    h.loads _ (Array.mem_iff_getElem?.mpr ⟨k, getElem?_eq_some_node hk⟩) l hload
  have hstored := h.sized_node j
  have hloaded := h.sized_node k
  rw [ExprNode.Sized, hop] at hstored
  rw [ExprNode.Sized, hload] at hloaded
  have hx : l.shape = (e.node x).shape := hstored.1.trans hstored.2.symm
  rw [hx] at hc
  have hcoords : c' = c := h.coords_of_visits hvisits (hloaded.symm.trans hx) hc
  rwa [hcoords] at hindex

end Expr.Aligned

/-! ### One iteration after the other -/

def Layout.StoresOnce (l : Layout) : Prop := ((coordinates (dimsOf l.shape)).filterMap l.index).Nodup

instance (l : Layout) : Decidable l.StoresOnce := inferInstanceAs (Decidable (List.Nodup _))

/-- Carries out a store in the given order of coordinates, each element computed from what the
buffers hold after the stores before it. -/
def Expr.sweepStore (e : Expr) (buffers : List BufferId) (order : List (List Int)) (m : Memory)
    (i : Nat) : Option Memory :=
  match (e.node i).op with
  | .store slot l a => do
    let id ← buffers[slot]?
    order.foldlM (fun m => l.write id (e.elements (m.slots buffers) a).get m) (← m.allocate id)
  | _ => none

def ScheduleItem.sweep (i : ScheduleItem) (order : List (List Int)) (m : Memory) : Option Memory :=
  i.tree.stores.foldlM (i.tree.sweepStore i.buffers order) m

section Order

variable {l : Layout} {id : BufferId} {get get' : List Int → Option Value} {m m' : Memory}
  {c c' : List Int} {order order' : List (List Int)}

theorem Layout.write_congr (h : get c = get' c) : l.write id get m c = l.write id get' m c := by
  rw [write, write, h]

theorem Layout.write_comm (hne : ∀ p, l.index c = some p → l.index c' ≠ some p) :
    (l.write id get m c).bind (fun m => l.write id get m c')
      = (l.write id get m c').bind fun m => l.write id get m c := by
  cases hindex : l.index c with
  | none => simp only [write, hindex, Option.bind_some, Option.bind_fun_some]
  | some p =>
    cases hindex' : l.index c' with
    | none => simp only [write, hindex, hindex', Option.bind_some, Option.bind_fun_some]
    | some q =>
      have hpq : p ≠ q := by
        rintro rfl
        exact hne p hindex hindex'
      simp only [write, hindex, hindex', Option.bind_eq_bind]
      cases get c with
      | none => simp only [Option.bind_none, Option.bind_fun_none]
      | some v =>
        cases get c' with
        | none => simp only [Option.bind_none, Option.bind_fun_none]
        | some w => exact Memory.put_comm hpq

theorem Layout.foldlM_write_perm (hperm : order.Perm order') (honce : (order.filterMap l.index).Nodup)
    (m : Memory) : order.foldlM (l.write id get) m = order'.foldlM (l.write id get) m := by
  induction hperm generalizing m with
  | nil => rfl
  | cons c _ ih =>
    rw [List.foldlM_cons, List.foldlM_cons]
    refine bind_congr fun m => ih ?_ m
    rw [List.filterMap_cons] at honce
    split at honce
    · exact honce
    · exact honce.of_cons
  | swap c c' rest =>
    have hne : ∀ p, l.index c' = some p → l.index c ≠ some p := by
      intro p hc' hc
      rw [List.filterMap_cons_some hc', List.filterMap_cons_some hc] at honce
      exact (List.nodup_cons.mp honce).1 List.mem_cons_self
    simp only [List.foldlM_cons, Option.bind_eq_bind, ← Option.bind_assoc, write_comm hne]
  | trans hfirst _ ih ih' =>
    rw [ih honce m]
    exact ih' ((hfirst.filterMap l.index).nodup_iff.mp honce) m

theorem Layout.foldlM_write_freeze {value : Memory → List Int → Option Value}
    (hvalue : ∀ c ∈ order, ∀ m m' p v, l.index c ≠ some p → m.put id p v = some m' →
      value m' c = value m c)
    (honce : (order.filterMap l.index).Nodup) (hstart : ∀ c ∈ order, value m c = get c) :
    order.foldlM (fun m => l.write id (value m) m) m = order.foldlM (l.write id get) m := by
  induction order generalizing m with
  | nil => rfl
  | cons c order ih =>
    rw [List.forall_mem_cons] at hvalue hstart
    rw [List.foldlM_cons, List.foldlM_cons, write_congr hstart.1]
    cases hwrite : l.write id get m c with
    | none => rfl
    | some m' =>
      apply ih hvalue.2
      · rw [List.filterMap_cons] at honce
        split at honce
        · exact honce
        · exact honce.of_cons
      · intro c' hc'
        rw [← hstart.2 c' hc']
        rw [write] at hwrite
        cases hindex : l.index c with
        | none =>
          rw [hindex] at hwrite
          rw [Option.some.inj hwrite]
        | some p =>
          rw [hindex] at hwrite
          obtain ⟨v, -, hput⟩ := Option.bind_eq_some_iff.mp hwrite
          refine hvalue.2 c' hc' m m' p v ?_ hput
          intro hsame
          rw [List.filterMap_cons_some hindex, List.nodup_cons] at honce
          exact honce.1 (List.mem_filterMap.mpr ⟨c', hc', hsame⟩)

end Order

/-- A kernel that reads its output as it writes it, if no element is stored twice, does in any order
what it does with the contents that it found. -/
theorem ScheduleItem.sweep_eq_run {i : ScheduleItem} {store : Layout} {j x : Nat} {m m' : Memory}
    {order : List (List Int)} (h : i.tree.Aligned store) (hnodup : i.buffers.Nodup)
    (hstores : i.tree.stores = [j]) (hop : (i.tree.node j).op = .store 0 store x)
    (honce : store.StoresOnce) (hperm : order.Perm (coordinates (dimsOf store.shape)))
    (hm : m.allocate i.output = some m') : i.sweep order m = i.run m' := by
  have hx : x < i.tree.size := by
    have hj : j < i.tree.size := Expr.lt_size_of_op hop (by simp)
    refine Nat.lt_trans (h.ordered j _ (Expr.getElem?_eq_some_node hj) x ?_) hj
    rw [hop]
    exact List.mem_singleton_self x
  have honce' : (order.filterMap store.index).Nodup :=
    (hperm.filterMap store.index).nodup_iff.mpr honce
  have hvalue : ∀ c ∈ order, ∀ (m m' : Memory) p v, store.index c ≠ some p →
      m.put i.output p v = some m' → (i.tree.elements (m'.slots i.buffers) x).get c
        = (i.tree.elements (m.slots i.buffers) x).get c := by
    intro c hc m m' p v hne hput
    apply Expr.get_congr_of_reads h.ordered hx
    intro slot q hreads
    rw [Memory.slots, Memory.slots]
    cases hid : i.buffers[slot]? with
    | none => rfl
    | some id =>
      apply Memory.element_of_put hput
      by_cases hslot : slot = 0
      · -- The output is read where this iteration stores.
        right
        rintro rfl
        rw [hslot] at hreads
        exact hne (h.index_of_reads hop (hperm.mem_iff.mp hc) hreads)
      · left
        rintro rfl
        have hlt : slot < i.buffers.length := (List.getElem?_eq_some_iff.mp hid).1
        exact hslot ((List.getElem?_inj hlt hnodup).mp (hid.trans rfl))
  have hsweep : i.sweep order m
      = order.foldlM (fun m => store.write i.output (i.tree.elements (m.slots i.buffers) x).get m) m' := by
    rw [sweep, hstores, List.foldlM_cons, Expr.sweepStore, hop]
    simp only [ScheduleItem.buffers, List.getElem?_cons_zero, Option.bind_eq_bind, Option.bind_some, hm]
    exact Option.bind_fun_some _
  have hrun : i.run m' = (coordinates (dimsOf store.shape)).foldlM
      (store.write i.output (i.tree.elements (m'.slots i.buffers) x).get) m' := by
    rw [run, hstores, List.foldlM_cons, Expr.runStore, hop]
    simp only [ScheduleItem.buffers, List.getElem?_cons_zero, Option.bind_eq_bind, Option.bind_some,
      Memory.allocate_of_allocate hm]
    exact Option.bind_fun_some _
  calc i.sweep order m
      = order.foldlM (store.write i.output (i.tree.elements (m'.slots i.buffers) x).get) m' := by
        rw [hsweep]
        exact Layout.foldlM_write_freeze hvalue honce' fun _ _ => rfl
    _ = i.run m' := by
        rw [hrun]
        exact Layout.foldlM_write_perm hperm honce' m'

end LazyTensor

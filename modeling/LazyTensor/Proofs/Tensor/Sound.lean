import LazyTensor.Proofs.Buffer
import LazyTensor.Proofs.Denotation.Elements
import LazyTensor.Proofs.Layout.Total

/-!
# Sessions of plain tensors

What holds of every tensor that is made without padding and without assignments: its shape is known
and within the limits, its operands come before it and agree with it, and a buffer that is noted for
it holds its elements. Every element then has the type of the tensor.
-/

namespace LazyTensor

theorem dimsOf_const [Width] (dims : List Int) : dimsOf (dims.map .const) = dims := by
  rw [dimsOf, boundShape?_const, Option.getD_some]

namespace Session

variable [Width]

def dims (s : Session) (t : Tensor) : List Int := dimsOf (s.shape t)

/-- The operands of a tensor agree with it in shape and type, and a view reads its base everywhere. -/
def Formed (s : Session) (lim : Limits) (t : Tensor) : Prop :=
  match s.op t with
  | .buffer => s.isStored t = true
  | .const v => v.HasType (s.dtype t)
  | .view base l => s.isView base = false ∧ s.dtype base = s.dtype t ∧
      l.Total (product (s.dims base)) lim (s.dims t)
  | .unary _ a | .contiguous a => s.shape a = s.shape t ∧ s.dtype a = s.dtype t
  | .cast a => s.shape a = s.shape t
  | .binary op a b => (s.shape a = s.shape t ∧ s.shape b = s.shape t) ∧ s.dtype a = s.dtype b ∧
      s.dtype t = if op.isComparison then .bool else s.dtype a
  | .ternary _ a b c => (s.shape a = s.shape t ∧ s.shape b = s.shape t ∧ s.shape c = s.shape t) ∧
      s.dtype b = s.dtype t ∧ s.dtype c = s.dtype t
  | .reduce _ axes a => s.shape t = Expr.reducedShape (s.shape a) axes ∧ s.dtype a = s.dtype t
  | .assign _ _ => False

/-- The buffer holds the elements of the tensor in row-major order. -/
def HeldIn (s : Session) (t : Tensor) (m : Memory) (id : BufferId) : Prop :=
  ∃ b type, m.get? id = some b ∧ b.Filled type ∧ s.dtype t = .scalar type ∧
    (b.size : Int) = product (s.dims t) ∧
    ∀ position, 0 ≤ position → position < product (s.dims t) →
      m.element id position = (s.elements t).flat position

/-- The buffers that are noted for tensors hold their elements. -/
def Retains (s : Session) (m : Memory) : Prop :=
  ∀ t id, t < s.nodes.size → s.storage t = some id → s.HeldIn t m id

structure NodeSound (s : Session) (lim : Limits) (t : Tensor) : Prop where
  shape_eq : s.shape t = (s.dims t).map .const
  admits : lim.Admits (s.dims t)
  plain : (s.dtype t).IsPlain
  device_eq : (s.node t).device = .cpu
  sources_lt : ∀ a ∈ (s.op t).sources, a < t
  formed : s.Formed lim t
  held : ∀ id, s.storage t = some id → s.HeldIn t s.memory id

def Sound (s : Session) (lim : Limits) : Prop := ∀ t < s.nodes.size, s.NodeSound lim t

end Session

/-! ### Elements -/

variable {op : ReduceOp} {t : DType}

theorem ReduceOp.hasType_identity (ht : t.IsPlain) : (op.identity t.base).HasType t := by
  obtain ⟨s, rfl⟩ := ht.exists_scalar
  cases op <;> cases s <;> first
    | rfl
    | exact absurd ht (by decide)

theorem ReduceOp.hasType_fold (ht : t.IsPlain) {get : List Int → Option Value}
    {cs : List (List Int)} {v : Value} (hv : op.fold t get cs = some v) : v.HasType t := by
  have hstep : ∀ (cs : List (List Int)) (acc : Value), acc.HasType t →
      cs.foldlM (fun acc c => (get c).bind (op.combine.eval t acc)) acc = some v →
        v.HasType t := by
    intro cs
    induction cs with
    | nil =>
      intro acc hacc h
      exact Option.some.inj h ▸ hacc
    | cons c cs ih =>
      intro acc hacc h
      rw [List.foldlM_cons] at h
      obtain ⟨next, hnext, h⟩ := Option.bind_eq_some_iff.mp h
      obtain ⟨x, -, hx⟩ := Option.bind_eq_some_iff.mp hnext
      exact ih next (BinaryOp.hasType_eval ht (by cases op <;> rfl) hx) h
  exact hstep cs _ (hasType_identity ht) hv

namespace Session

variable [Width] {s : Session} {lim : Limits} {t : Tensor} {coords : List Int}

theorem NodeSound.elements_eq (h : s.NodeSound lim t) (ht : t < s.nodes.size) :
    s.elements t = (s.node t).elements s.memory s.elements :=
  Session.elements_eq ht h.sources_lt

theorem NodeSound.elements_dims (h : s.NodeSound lim t) (ht : t < s.nodes.size) :
    (s.elements t).dims = s.dims t := by
  rw [h.elements_eq ht]
  rfl

theorem Sound.elements_flat (h : s.Sound lim) (ht : t < s.nodes.size) (position : Int) :
    (s.elements t).flat position = (s.elements t).get (unravel (s.dims t) position) := by
  rw [Elements.flat, (h t ht).elements_dims ht]

theorem Sound.source_lt (h : s.Sound lim) (ht : t < s.nodes.size) {a : Tensor}
    {o : TensorOp} (hop : s.op t = o) (ha : a ∈ o.sources) : a < s.nodes.size :=
  ((h t ht).sources_lt a (hop ▸ ha)).trans ht

theorem HeldIn.congr {m m' : Memory} {id : BufferId} (h : s.HeldIn t m id)
    (hsame : m'.get? id = m.get? id) : s.HeldIn t m' id := by
  obtain ⟨b, type, hb, hfilled, hdtype, hsize, hheld⟩ := h
  refine ⟨b, type, hsame.trans hb, hfilled, hdtype, hsize, ?_⟩
  intro position hlow hhigh
  rw [Memory.element, hsame]
  exact hheld position hlow hhigh

theorem Sound.op_ne_assign (h : s.Sound lim) (t target value : Tensor) :
    s.op t ≠ .assign target value := by
  intro hop
  by_cases ht : t < s.nodes.size
  · have hformed := (h t ht).formed
    rw [Formed, hop] at hformed
    exact hformed
  · rw [op, node, Array.getD_eq_getD_getElem?, Array.getElem?_eq_none (Nat.le_of_not_lt ht)] at hop
    cases hop

theorem Sound.get_view (h : s.Sound lim) (hexact : lim.Exact) (ht : t < s.nodes.size)
    {base : Tensor} {l : Layout} (hop : s.op t = .view base l) (hin : InShape (s.dims t) coords) :
    ∃ position, l.index coords = some position ∧
      (s.elements t).get coords = (s.elements base).flat position := by
  have hformed := (h t ht).formed
  rw [Formed, hop] at hformed
  obtain ⟨position, hposition, -⟩ := hformed.2.2.exists_index hexact hin
  refine ⟨position, hposition, ?_⟩
  rw [(h t ht).elements_eq ht]
  simp only [TensorNode.elements, show (s.node t).op = .view base l from hop, Layout.read, hposition]

/-! ### Element by element -/

section Flat

variable (h : s.Sound lim) (ht : t < s.nodes.size) (position : Int) {a b : Tensor} {axes : List Nat}
include h ht

theorem Sound.flat_eq : (s.elements t).flat position
    = ((s.node t).elements s.memory s.elements).get (unravel (s.dims t) position) := by
  rw [h.elements_flat ht, (h t ht).elements_eq ht]

theorem Sound.get_operand {o : TensorOp} (hop : s.op t = o) (ha : a ∈ o.sources)
    (hshape : s.shape a = s.shape t) :
    (s.elements a).get (unravel (s.dims t) position) = (s.elements a).flat position := by
  rw [h.elements_flat (h.source_lt ht hop ha), dims, dims, hshape]

theorem Sound.flat_const {v : Value} (hop : s.op t = .const v) :
    (s.elements t).flat position = some v := by
  rw [h.flat_eq ht]
  simp only [TensorNode.elements, show (s.node t).op = .const v from hop]

theorem Sound.flat_unary {op : UnaryOp} (hop : s.op t = .unary op a) :
    (s.elements t).flat position = ((s.elements a).flat position).bind (op.eval (s.dtype t)) := by
  have hformed := (h t ht).formed
  rw [Formed, hop] at hformed
  have ha := h.get_operand ht position hop (.head _) hformed.1
  rw [h.flat_eq ht, ← ha]
  simp only [TensorNode.elements, show (s.node t).op = .unary op a from hop]
  rfl

theorem Sound.flat_cast (hop : s.op t = .cast a) :
    (s.elements t).flat position = ((s.elements a).flat position).bind (·.cast (s.dtype t)) := by
  have hformed := (h t ht).formed
  rw [Formed, hop] at hformed
  have ha := h.get_operand ht position hop (.head _) hformed
  rw [h.flat_eq ht, ← ha]
  simp only [TensorNode.elements, show (s.node t).op = .cast a from hop]
  rfl

theorem Sound.flat_contiguous (hop : s.op t = .contiguous a) :
    (s.elements t).flat position = (s.elements a).flat position := by
  have hformed := (h t ht).formed
  rw [Formed, hop] at hformed
  have ha := h.get_operand ht position hop (.head _) hformed.1
  rw [h.flat_eq ht, ← ha]
  simp only [TensorNode.elements, show (s.node t).op = .contiguous a from hop]

theorem Sound.flat_binary {op : BinaryOp} (hop : s.op t = .binary op a b) :
    (s.elements t).flat position
      = ((s.elements a).flat position).bind fun x =>
          ((s.elements b).flat position).bind (op.eval (s.dtype t) x) := by
  have hformed := (h t ht).formed
  rw [Formed, hop] at hformed
  obtain ⟨⟨hshape, hshape'⟩, -⟩ := hformed
  have ha := h.get_operand ht position hop (.head _) hshape
  have hb := h.get_operand ht position hop (.tail _ (.head _)) hshape'
  rw [h.flat_eq ht, ← ha, ← hb]
  simp only [TensorNode.elements, show (s.node t).op = .binary op a b from hop]
  rfl

theorem Sound.flat_ternary {op : TernaryOp} {c : Tensor} (hop : s.op t = .ternary op a b c) :
    (s.elements t).flat position
      = ((s.elements a).flat position).bind fun x =>
          ((s.elements b).flat position).bind fun y =>
            ((s.elements c).flat position).bind (op.eval (s.dtype t) x y) := by
  have hformed := (h t ht).formed
  rw [Formed, hop] at hformed
  obtain ⟨⟨hshape, hshape', hshape''⟩, -⟩ := hformed
  have ha := h.get_operand ht position hop (.head _) hshape
  have hb := h.get_operand ht position hop (.tail _ (.head _)) hshape'
  have hc := h.get_operand ht position hop (.tail _ (.tail _ (.head _))) hshape''
  rw [h.flat_eq ht, ← ha, ← hb, ← hc]
  simp only [TensorNode.elements, show (s.node t).op = .ternary op a b c from hop]
  rfl

omit position in
theorem Sound.get_reduce (hop : s.op t = .reduce op axes a) (coords : List Int) :
    (s.elements t).get coords
      = op.fold (s.dtype t) (s.elements a).get (fiber axes 0 (s.dims a) coords) := by
  have ha := h.source_lt ht hop (.head _)
  rw [(h t ht).elements_eq ht, ← (h a ha).elements_dims ha]
  simp only [TensorNode.elements, show (s.node t).op = .reduce op axes a from hop]
  rfl

omit position in
theorem Sound.dims_reduce (hop : s.op t = .reduce op axes a) :
    s.dims t = reducedDims axes 0 (s.dims a) := by
  have ha := h.source_lt ht hop (.head _)
  have hformed := (h t ht).formed
  rw [Formed, hop] at hformed
  rw [dims, hformed.1, (h a ha).shape_eq, reducedShape_const, dimsOf_const]

end Flat

theorem Sound.hasType (h : s.Sound lim) (hexact : lim.Exact) (ht : t < s.nodes.size)
    (hin : InShape (s.dims t) coords) {v : Value} (hv : (s.elements t).get coords = some v) :
    v.HasType (s.dtype t) := by
  induction t using Nat.strong_induction_on generalizing coords v with
  | _ t ih =>
  have hnode := h t ht
  have hplain := hnode.plain
  have hformed := hnode.formed
  have hsources := hnode.sources_lt
  have helements := hv
  rw [hnode.elements_eq ht] at helements
  cases hop : s.op t with
  | buffer =>
    rw [Formed, hop] at hformed
    obtain ⟨id, hid⟩ := Option.isSome_iff_exists.mp hformed
    obtain ⟨b, type, hb, hfilled, hdtype, hsize, -⟩ := hnode.held id hid
    obtain ⟨hlow, hhigh⟩ := ravel_nonneg_and_lt hin
    obtain ⟨w, hw, htype⟩ := hfilled.exists_readElement hlow (by rw [hsize]; exact hhigh)
      (hdtype ▸ hplain)
    simp only [TensorNode.elements, show (s.node t).op = .buffer from hop,
      show (s.node t).storage = some id from hid, Option.bind_some, Memory.element, hb] at helements
    rw [show dimsOf (s.node t).shape = s.dims t from rfl, hw] at helements
    obtain rfl := Option.some.inj helements
    exact hdtype ▸ htype
  | const value =>
    rw [Formed, hop] at hformed
    simp only [TensorNode.elements, show (s.node t).op = .const value from hop] at helements
    exact Option.some.inj helements ▸ hformed
  | view base l =>
    rw [Formed, hop] at hformed
    have hbase : base < t := hsources base (by rw [hop]; exact List.mem_singleton_self base)
    obtain ⟨position, -, hget⟩ := h.get_view hexact ht hop hin
    rw [hget, h.elements_flat (hbase.trans ht)] at hv
    rw [← hformed.2.1]
    exact ih base hbase (hbase.trans ht)
      (inShape_unravel (h base (hbase.trans ht)).admits.dims_pos position) hv
  | unary op a =>
    simp only [TensorNode.elements, show (s.node t).op = .unary op a from hop] at helements
    obtain ⟨x, -, hx⟩ := Option.bind_eq_some_iff.mp helements
    exact UnaryOp.hasType_eval hplain hx
  | binary op a b =>
    rw [Formed, hop] at hformed
    simp only [TensorNode.elements, show (s.node t).op = .binary op a b from hop] at helements
    obtain ⟨x, -, hx⟩ := Option.bind_eq_some_iff.mp helements
    obtain ⟨y, -, hy⟩ := Option.bind_eq_some_iff.mp hx
    by_cases hcomparison : op.isComparison = true
    · rw [hformed.2.2, if_pos hcomparison]
      exact BinaryOp.hasType_eval_comparison hcomparison hy
    · exact BinaryOp.hasType_eval hplain (by simpa using hcomparison) hy
  | ternary op a b c =>
    simp only [TensorNode.elements, show (s.node t).op = .ternary op a b c from hop] at helements
    obtain ⟨x, -, hx⟩ := Option.bind_eq_some_iff.mp helements
    obtain ⟨y, -, hy⟩ := Option.bind_eq_some_iff.mp hx
    obtain ⟨z, -, hz⟩ := Option.bind_eq_some_iff.mp hy
    exact TernaryOp.hasType_eval hplain hz
  | cast a =>
    simp only [TensorNode.elements, show (s.node t).op = .cast a from hop] at helements
    obtain ⟨x, -, hx⟩ := Option.bind_eq_some_iff.mp helements
    exact Value.hasType_of_cast hplain hx
  | reduce op axes a =>
    simp only [TensorNode.elements, show (s.node t).op = .reduce op axes a from hop] at helements
    exact ReduceOp.hasType_fold hplain helements
  | contiguous a =>
    rw [Formed, hop] at hformed
    have ha : a < t := hsources a (by rw [hop]; exact List.mem_singleton_self a)
    simp only [TensorNode.elements, show (s.node t).op = .contiguous a from hop] at helements
    have hin' : InShape (s.dims a) coords := by
      rw [dims, hformed.1]
      exact hin
    exact hformed.2 ▸ ih a ha (ha.trans ht) hin' helements
  | assign target value =>
    rw [Formed, hop] at hformed
    exact hformed.elim

end Session

end LazyTensor

import LazyTensor.Proofs.Layout.Shape
import LazyTensor.Proofs.Tensor.Growth

/-!
# Coherent sessions

What holds of every tensor that can be made: it comes after its operands, agrees with them in shape
and type, and a view looks at a node that is none. A node that fits into a coherent session leaves it
coherent, and so does a buffer that is noted for a node.
-/

namespace LazyTensor

namespace Session

/-- A tensor agrees with its operands. -/
def Agrees (s : Session) (t : Tensor) : Prop :=
  match s.op t with
  | .buffer => s.isStored t = true
  | .const _ => True
  | .view base l => s.isView base = false ∧ s.dtype base = s.dtype t ∧ l.shape = s.shape t
  | .unary _ a | .contiguous a => s.shape a = s.shape t ∧ s.dtype a = s.dtype t
  | .cast a => s.shape a = s.shape t
  | .binary op a b => (s.shape a = s.shape t ∧ s.shape b = s.shape t) ∧ s.dtype a = s.dtype b ∧
      s.dtype t = if op.isComparison then .bool else s.dtype a
  | .ternary _ a b c => (s.shape a = s.shape t ∧ s.shape b = s.shape t ∧ s.shape c = s.shape t) ∧
      s.dtype b = s.dtype t ∧ s.dtype c = s.dtype t
  | .reduce _ axes a => s.shape t = Expr.reducedShape (s.shape a) axes ∧ s.dtype a = s.dtype t ∧
      ∀ axis ∈ axes, axis < (s.shape a).length
  | .assign target _ => s.isStored (s.base target) = true ∧ s.shape target = s.shape t ∧
      s.dtype target = s.dtype t

structure Coherent (s : Session) : Prop where
  sources_lt : ∀ t < s.nodes.size, ∀ a ∈ (s.op t).sources, a < t
  agrees : ∀ t < s.nodes.size, s.Agrees t
  device_eq : ∀ t < s.nodes.size, (s.node t).device = .cpu
  storage_lt : ∀ t < s.nodes.size, ∀ id, s.storage t = some id → id < s.memory.buffers.size

def HasAssign (s : Session) : Prop :=
  ∃ t < s.nodes.size, ∃ target value, s.op t = .assign target value

theorem coherent_empty : ({} : Session).Coherent :=
  ⟨nofun, nofun, nofun, nofun⟩

/-! ### Bases -/

section Base

variable {s : Session} {t : Tensor} (ht : t < s.nodes.size)

include ht

variable (h : s.Coherent)

include h

theorem Coherent.isView_base : s.isView (s.base t) = false := by
  rw [base]
  split
  next base l hop =>
    have hagrees := h.agrees t ht
    rw [Agrees, hop] at hagrees
    exact hagrees.1
  next hop =>
    rw [isView]
    cases hop' : s.op t with
    | view base l => exact absurd hop' (hop base l)
    | _ => rfl

theorem Coherent.base_le : s.base t ≤ t := by
  rw [base]
  split
  next base l hop =>
    exact Nat.le_of_lt (h.sources_lt t ht base (by rw [hop]; exact List.mem_singleton_self base))
  next => exact Nat.le_refl t

theorem Coherent.base_lt : s.base t < s.nodes.size :=
  Nat.lt_of_le_of_lt (h.base_le ht) ht

theorem Coherent.dtype_base : s.dtype (s.base t) = s.dtype t := by
  rw [base]
  split
  next base l hop =>
    have hagrees := h.agrees t ht
    rw [Agrees, hop] at hagrees
    exact hagrees.2.1
  next => rfl

theorem Coherent.shape_layout [Width] : (s.layout t).shape = s.shape t := by
  rw [layout]
  split
  next base l hop =>
    have hagrees := h.agrees t ht
    rw [Agrees, hop] at hagrees
    exact hagrees.2.2
  next => exact Layout.shape_ofShape _

theorem Coherent.source_lt {a : Tensor} {o : TensorOp} (hop : s.op t = o) (ha : a ∈ o.sources) :
    a < s.nodes.size :=
  (h.sources_lt t ht a (hop ▸ ha)).trans ht

end Base

/-! ### What stays -/

section Push

variable {s : Session} {n : TensorNode} {m : Memory} {t : Tensor}

theorem node_push_of_lt (ht : t < s.nodes.size) :
    (⟨s.nodes.push n, m⟩ : Session).node t = s.node t := by
  simp only [node, Array.getD_eq_getD_getElem?, Array.getElem?_push, if_neg (Nat.ne_of_lt ht)]

theorem node_push_self : (⟨s.nodes.push n, m⟩ : Session).node s.nodes.size = n := by
  simp only [node, Array.getD_eq_getD_getElem?, Array.getElem?_push, if_true, Option.getD_some]

theorem grows_push (hm : ∀ id b, s.memory.get? id = some b → m.get? id = some b) :
    s.Grows ⟨s.nodes.push n, m⟩ where
  size_le := by
    rw [Array.size_push]
    exact Nat.le_succ _
  node_eq _ ht := node_push_of_lt ht
  memory := hm

end Push

end Session

theorem Memory.get?_insert_of_some {m : Memory} {b c : Buffer} {id : BufferId}
    (h : m.get? id = some c) : (m.insert b).2.get? id = some c := by
  have hlt : id < m.buffers.size := (Array.getElem?_eq_some_iff.mp h).1
  rw [get?, insert]
  dsimp only
  rw [Array.getElem?_push, if_neg (Nat.ne_of_lt hlt)]
  exact h

theorem Memory.get?_insert_self (m : Memory) (b : Buffer) :
    (m.insert b).2.get? (m.insert b).1 = some b := by
  rw [get?, insert]
  exact Array.getElem?_push_size

namespace Session

variable {s s' : Session} {t : Tensor}

/-! ### Coherence is kept -/

/-- Every tensor stays what it is, apart from being stored. -/
structure Keeps (s s' : Session) : Prop where
  size_le : s.nodes.size ≤ s'.nodes.size
  op_eq : ∀ t < s.nodes.size, s'.op t = s.op t
  shape_eq : ∀ t < s.nodes.size, s'.shape t = s.shape t
  dtype_eq : ∀ t < s.nodes.size, s'.dtype t = s.dtype t
  isStored : ∀ t < s.nodes.size, s.isStored t = true → s'.isStored t = true

theorem Grows.keeps (h : s.Grows s') : s.Keeps s' where
  size_le := h.size_le
  op_eq _ ht := h.op_eq ht
  shape_eq _ ht := h.shape_eq ht
  dtype_eq _ ht := h.dtype_eq ht
  isStored t ht hstored := by
    rw [Session.isStored, h.storage_eq ht]
    exact hstored

theorem Keeps.base_eq (h : s.Keeps s') (ht : t < s.nodes.size) : s'.base t = s.base t := by
  rw [base, h.op_eq t ht, base]

theorem Keeps.isView_eq (h : s.Keeps s') (ht : t < s.nodes.size) : s'.isView t = s.isView t := by
  rw [isView, h.op_eq t ht, isView]

theorem Coherent.agrees_of_keeps (hs : s.Coherent) (h : s.Keeps s') (ht : t < s.nodes.size) :
    s'.Agrees t := by
  have hagrees := hs.agrees t ht
  have hlt : ∀ a ∈ (s.op t).sources, a < s.nodes.size := fun a => hs.source_lt ht rfl
  rw [Agrees] at hagrees ⊢
  rw [h.op_eq t ht, h.shape_eq t ht, h.dtype_eq t ht]
  cases hop : s.op t with
  | buffer =>
    rw [hop] at hagrees
    exact h.isStored t ht hagrees
  | const v => trivial
  | view base l =>
    rw [hop] at hagrees hlt
    have hbase := hlt base (List.mem_singleton_self base)
    dsimp only
    rw [h.isView_eq hbase, h.dtype_eq base hbase]
    exact hagrees
  | unary op a | reduce op axes a | contiguous a =>
    rw [hop] at hagrees hlt
    have ha := hlt a (List.mem_singleton_self a)
    dsimp only
    rw [h.shape_eq a ha, h.dtype_eq a ha]
    exact hagrees
  | binary op a b =>
    rw [hop] at hagrees hlt
    have ha := hlt a List.mem_cons_self
    have hb := hlt b (List.mem_cons_of_mem a (List.mem_singleton_self b))
    dsimp only
    rw [h.shape_eq a ha, h.shape_eq b hb, h.dtype_eq a ha, h.dtype_eq b hb]
    exact hagrees
  | ternary op a b c =>
    rw [hop] at hagrees hlt
    have ha := hlt a List.mem_cons_self
    have hb := hlt b (List.mem_cons_of_mem a List.mem_cons_self)
    have hc := hlt c (List.mem_cons_of_mem a (List.mem_cons_of_mem b (List.mem_singleton_self c)))
    dsimp only
    rw [h.shape_eq a ha, h.shape_eq b hb, h.shape_eq c hc, h.dtype_eq b hb, h.dtype_eq c hc]
    exact hagrees
  | cast a =>
    rw [hop] at hagrees hlt
    dsimp only
    rw [h.shape_eq a (hlt a (List.mem_singleton_self a))]
    exact hagrees
  | assign target value =>
    rw [hop] at hagrees hlt
    have htarget := hlt target List.mem_cons_self
    dsimp only
    rw [h.base_eq htarget, h.shape_eq target htarget, h.dtype_eq target htarget]
    exact ⟨h.isStored _ (hs.base_lt htarget) hagrees.1, hagrees.2⟩

theorem Coherent.push (hs : s.Coherent) {n : TensorNode} {m : Memory}
    (hm : ∀ id b, s.memory.get? id = some b → m.get? id = some b)
    (hsize : s.memory.buffers.size ≤ m.buffers.size)
    (hsources : ∀ a ∈ n.op.sources, a < s.nodes.size)
    (hagrees : (⟨s.nodes.push n, m⟩ : Session).Agrees s.nodes.size) (hdevice : n.device = .cpu)
    (hstorage : ∀ id, n.storage = some id → id < m.buffers.size) :
    (⟨s.nodes.push n, m⟩ : Session).Coherent := by
  have hgrows : s.Grows ⟨s.nodes.push n, m⟩ := grows_push hm
  have hself : (⟨s.nodes.push n, m⟩ : Session).node s.nodes.size = n := node_push_self
  have hlt : ∀ t < (⟨s.nodes.push n, m⟩ : Session).nodes.size,
      t < s.nodes.size ∨ t = s.nodes.size := by
    intro t ht
    rw [Array.size_push] at ht
    exact Nat.lt_or_eq_of_le (Nat.le_of_lt_succ ht)
  constructor
  · intro t ht
    rcases hlt t ht with ht | rfl
    · rw [hgrows.op_eq ht]
      exact hs.sources_lt t ht
    · rw [op, hself]
      exact hsources
  · intro t ht
    rcases hlt t ht with ht | rfl
    · exact hs.agrees_of_keeps hgrows.keeps ht
    · exact hagrees
  · intro t ht
    rcases hlt t ht with ht | rfl
    · rw [hgrows.node_eq t ht]
      exact hs.device_eq t ht
    · rw [hself]
      exact hdevice
  · intro t ht id hid
    rcases hlt t ht with ht | rfl
    · rw [hgrows.storage_eq ht] at hid
      exact (hs.storage_lt t ht id hid).trans_le hsize
    · rw [storage, hself] at hid
      exact hstorage id hid

/-! ### Buffers for computed nodes -/

section Stored

variable {t : Tensor} {id : BufferId} {m : Memory}

theorem node_setStorage (s : Session) (t : Tensor) (id : BufferId) (m : Memory) (u : Tensor) :
    ({ s.setStorage t id with memory := m } : Session).node u
      = if u = t ∧ u < s.nodes.size then { s.node u with storage := some id } else s.node u := by
  simp only [setStorage, node, Array.getD_eq_getD_getElem?, Array.getElem?_modify]
  by_cases hu : u = t
  · subst hu
    by_cases hlt : u < s.nodes.size
    · rw [if_pos rfl, if_pos ⟨rfl, hlt⟩, Array.getElem?_eq_getElem hlt]
      rfl
    · rw [if_pos rfl, if_neg fun h => hlt h.2, Array.getElem?_eq_none (Nat.le_of_not_lt hlt)]
      rfl
  · rw [if_neg fun h => hu h.symm, if_neg fun h => hu h.1]

theorem keeps_setStorage (s : Session) (t : Tensor) (id : BufferId) (m : Memory) :
    s.Keeps { s.setStorage t id with memory := m } := by
  have hnode := node_setStorage s t id m
  constructor
  · exact le_of_eq (Array.size_modify).symm
  · intro u hu
    rw [op, hnode]
    split <;> rfl
  · intro u hu
    rw [shape, hnode]
    split <;> rfl
  · intro u hu
    rw [dtype, hnode]
    split <;> rfl
  · intro u hu hstored
    rw [isStored, storage, hnode]
    split
    · rfl
    · exact hstored

theorem Coherent.setStorage (hs : s.Coherent) (hsize : s.memory.buffers.size ≤ m.buffers.size)
    (hid : id < m.buffers.size) : ({ s.setStorage t id with memory := m } : Session).Coherent := by
  have hnode := node_setStorage s t id m
  have hkeeps := keeps_setStorage s t id m
  have hlt : ∀ u < ({ s.setStorage t id with memory := m } : Session).nodes.size,
      u < s.nodes.size := by
    intro u hu
    exact hu.trans_eq Array.size_modify
  constructor
  · intro u hu
    rw [hkeeps.op_eq u (hlt u hu)]
    exact hs.sources_lt u (hlt u hu)
  · intro u hu
    exact hs.agrees_of_keeps hkeeps (hlt u hu)
  · intro u hu
    rw [hnode]
    split
    · exact hs.device_eq u (hlt u hu)
    · exact hs.device_eq u (hlt u hu)
  · intro u hu other hother
    rw [storage, hnode] at hother
    split at hother
    · exact Option.some.inj hother ▸ hid
    · exact (hs.storage_lt u (hlt u hu) other hother).trans_le hsize

end Stored

/-! ### New nodes -/

section Fits

variable [Width]

/-- A node that can be added: its operands are there and it agrees with them. A view comes from a
movement of one of the given kinds. -/
def Fits (s : Session) (kinds : Movement → Prop) (n : TensorNode) : Prop :=
  match n.op with
  | .buffer => False
  | .const v => ∃ w : Value, v = w.normalize n.dtype
  | .view base l => ∃ t m, t < s.nodes.size ∧ kinds m ∧ (s.layout t).apply m = .ok l ∧
      base = s.base t ∧ n.shape = l.shape ∧ n.dtype = s.dtype t
  | .unary _ a | .contiguous a => a < s.nodes.size ∧ s.shape a = n.shape ∧ s.dtype a = n.dtype
  | .cast a => a < s.nodes.size ∧ s.shape a = n.shape
  | .binary op a b => (a < s.nodes.size ∧ b < s.nodes.size) ∧
      (s.shape a = n.shape ∧ s.shape b = n.shape) ∧ s.dtype a = s.dtype b ∧
      n.dtype = if op.isComparison then .bool else s.dtype a
  | .ternary _ a b c => (a < s.nodes.size ∧ b < s.nodes.size ∧ c < s.nodes.size) ∧
      (s.shape a = n.shape ∧ s.shape b = n.shape ∧ s.shape c = n.shape) ∧
      s.dtype b = n.dtype ∧ s.dtype c = n.dtype
  | .reduce _ axes a => a < s.nodes.size ∧ n.shape = Expr.reducedShape (s.shape a) axes ∧
      s.dtype a = n.dtype ∧ ∀ axis ∈ axes, axis < (s.shape a).length
  | .assign target value => (target < s.nodes.size ∧ value < s.nodes.size) ∧
      s.isStored (s.base target) = true ∧ s.shape target = n.shape ∧ s.dtype target = n.dtype

/-- One thing that happens to a session while tensors are made. -/
inductive Step (kinds : Movement → Prop) : Session → Session → Prop
  | node {s : Session} {n : TensorNode} : s.Fits kinds n → n.device = .cpu → n.storage = none →
      Step kinds s { s with nodes := s.nodes.push n }
  | values {s : Session} (t : ScalarType) (vs : List Value) :
      Step kinds s
        { nodes := s.nodes.push
            ⟨.buffer, .scalar t, .cpu, [.const vs.length], some s.memory.buffers.size⟩
          memory := (s.memory.insert (Buffer.ofValues t vs)).2 }

abbrev Steps (kinds : Movement → Prop) : Session → Session → Prop := Relation.ReflTransGen (Step kinds)

variable {kinds : Movement → Prop}

theorem Step.grows (h : Step kinds s s') : s.Grows s' := by
  cases h with
  | node _ _ _ => exact grows_push fun _ _ hb => hb
  | values t vs => exact grows_push fun _ _ hb => Memory.get?_insert_of_some hb

theorem Steps.trans {s'' : Session} (h : Steps kinds s s') (h' : Steps kinds s' s'') :
    Steps kinds s s'' :=
  Relation.ReflTransGen.trans h h'

theorem Steps.grows (h : Steps kinds s s') : s.Grows s' := by
  induction h with
  | refl => exact .refl s
  | tail _ hstep ih => exact ih.trans hstep.grows

theorem Coherent.agrees_of_fits (hs : s.Coherent) {n : TensorNode} (hn : s.Fits kinds n) :
    (∀ a ∈ n.op.sources, a < s.nodes.size) ∧
      ({ s with nodes := s.nodes.push n } : Session).Agrees s.nodes.size := by
  have h : s.Keeps { s with nodes := s.nodes.push n } := (grows_push fun _ _ hb => hb).keeps
  have hself : ({ s with nodes := s.nodes.push n } : Session).node s.nodes.size = n := node_push_self
  rw [Agrees, op, shape, dtype, hself]
  rw [Fits] at hn
  cases hop : n.op with
  | buffer =>
    rw [hop] at hn
    exact hn.elim
  | const v => exact ⟨by rintro _ ⟨⟩, trivial⟩
  | view base l =>
    rw [hop] at hn
    obtain ⟨t, m, ht, -, -, rfl, hshape, hdtype⟩ := hn
    have hbase := hs.base_lt ht
    refine ⟨List.forall_mem_singleton.mpr hbase, ?_, ?_, hshape.symm⟩
    · rw [h.isView_eq hbase]
      exact hs.isView_base ht
    · rw [h.dtype_eq _ hbase, hs.dtype_base ht, hdtype]
  | unary op a | contiguous a =>
    rw [hop] at hn
    obtain ⟨ha, hshape, hdtype⟩ := hn
    refine ⟨List.forall_mem_singleton.mpr ha, ?_⟩
    dsimp only
    rw [h.shape_eq a ha, h.dtype_eq a ha]
    exact ⟨hshape, hdtype⟩
  | binary op a b =>
    rw [hop] at hn
    obtain ⟨⟨ha, hb⟩, hagrees⟩ := hn
    refine ⟨List.forall_mem_cons.mpr ⟨ha, List.forall_mem_singleton.mpr hb⟩, ?_⟩
    dsimp only
    rw [h.shape_eq a ha, h.shape_eq b hb, h.dtype_eq a ha, h.dtype_eq b hb]
    exact hagrees
  | ternary op a b c =>
    rw [hop] at hn
    obtain ⟨⟨ha, hb, hc⟩, hagrees⟩ := hn
    refine ⟨List.forall_mem_cons.mpr ⟨ha, List.forall_mem_cons.mpr
      ⟨hb, List.forall_mem_singleton.mpr hc⟩⟩, ?_⟩
    dsimp only
    rw [h.shape_eq a ha, h.shape_eq b hb, h.shape_eq c hc, h.dtype_eq b hb, h.dtype_eq c hc]
    exact hagrees
  | cast a =>
    rw [hop] at hn
    obtain ⟨ha, hshape⟩ := hn
    refine ⟨List.forall_mem_singleton.mpr ha, ?_⟩
    dsimp only
    rw [h.shape_eq a ha]
    exact hshape
  | reduce op axes a =>
    rw [hop] at hn
    obtain ⟨ha, hagrees⟩ := hn
    refine ⟨List.forall_mem_singleton.mpr ha, ?_⟩
    dsimp only
    rw [h.shape_eq a ha, h.dtype_eq a ha]
    exact hagrees
  | assign target value =>
    rw [hop] at hn
    obtain ⟨⟨htarget, hvalue⟩, hstored, hagrees⟩ := hn
    refine ⟨List.forall_mem_cons.mpr ⟨htarget, List.forall_mem_singleton.mpr hvalue⟩, ?_⟩
    dsimp only
    rw [h.base_eq htarget, h.shape_eq target htarget, h.dtype_eq target htarget]
    exact ⟨h.isStored _ (hs.base_lt htarget) hstored, hagrees⟩

theorem Coherent.step (hs : s.Coherent) (h : Step kinds s s') : s'.Coherent := by
  cases h with
  | node hfits hdevice hstorage =>
    obtain ⟨hsources, hagrees⟩ := hs.agrees_of_fits hfits
    refine hs.push (fun _ _ hb => hb) le_rfl hsources hagrees hdevice fun id hid => ?_
    rw [hstorage] at hid
    cases hid
  | values t vs =>
    refine hs.push (fun _ _ hb => Memory.get?_insert_of_some hb) ?_ nofun ?_ rfl ?_
    · rw [Memory.insert, Array.size_push]
      exact Nat.le_succ _
    · rw [Agrees, op, isStored, storage, node_push_self]
      rfl
    · intro id hid
      obtain rfl := Option.some.inj hid
      rw [Memory.insert, Array.size_push]
      exact Nat.lt_succ_self _

theorem Coherent.steps (hs : s.Coherent) (h : Steps kinds s s') : s'.Coherent := by
  induction h with
  | refl => exact hs
  | tail _ hstep ih => exact ih.step hstep

end Fits

end Session

end LazyTensor

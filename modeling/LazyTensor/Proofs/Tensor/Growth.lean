import LazyTensor.Proofs.Tensor.Sound

/-!
# Growing sessions

New tensors and new buffers change nothing about those that are there: they hold what they held, and
what was sound stays sound.
-/

namespace LazyTensor

/-! ### Actions -/

namespace TensorM

variable {α β : Type} {s s' : Session}

theorem run_bind (x : TensorM α) (f : α → TensorM β) (s : Session) :
    (x >>= f).run.run s = match x.run.run s with
      | (.ok a, s₁) => (f a).run.run s₁
      | (.error e, s₁) => (.error e, s₁) := by
  rw [ExceptT.run_bind, StateT.run_bind]
  rcases x.run.run s with ⟨_ | a, s₁⟩ <;> rfl

theorem run_get_bind (f : Session → TensorM β) (s : Session) :
    (get >>= f).run.run s = (f s).run.run s := rfl

end TensorM

/-! ### Growth -/

namespace Session

/-- Every tensor and every buffer stays what it is. -/
structure Grows (s s' : Session) : Prop where
  size_le : s.nodes.size ≤ s'.nodes.size
  node_eq : ∀ t < s.nodes.size, s'.node t = s.node t
  memory : ∀ id b, s.memory.get? id = some b → s'.memory.get? id = some b

namespace Grows

variable {s s' s'' : Session} {t : Tensor}

theorem refl (s : Session) : s.Grows s := ⟨le_rfl, fun _ _ => rfl, fun _ _ h => h⟩

theorem trans (h : s.Grows s') (h' : s'.Grows s'') : s.Grows s'' where
  size_le := h.size_le.trans h'.size_le
  node_eq t ht := (h'.node_eq t (ht.trans_le h.size_le)).trans (h.node_eq t ht)
  memory id b hb := h'.memory id b (h.memory id b hb)

variable (h : s.Grows s') (ht : t < s.nodes.size)

include h ht

theorem lt_size : t < s'.nodes.size := ht.trans_le h.size_le

theorem op_eq : s'.op t = s.op t := by
  rw [op, h.node_eq t ht, op]

theorem shape_eq : s'.shape t = s.shape t := by
  rw [shape, h.node_eq t ht, shape]

theorem dtype_eq : s'.dtype t = s.dtype t := by
  rw [dtype, h.node_eq t ht, dtype]

theorem storage_eq : s'.storage t = s.storage t := by
  rw [storage, h.node_eq t ht, storage]

theorem dims_eq [Width] : s'.dims t = s.dims t := by
  rw [dims, h.shape_eq ht, dims]

end Grows

variable [Width] {s s' : Session} {lim : Limits} {t : Tensor} {id : BufferId}

theorem Grows.elements_eq (hgrows : s.Grows s')
    (hsources : ∀ t < s.nodes.size, ∀ a ∈ (s.op t).sources, a < t)
    (hstored : ∀ t < s.nodes.size, ∀ id, s.storage t = some id → ∃ b, s.memory.get? id = some b)
    (ht : t < s.nodes.size) : s'.elements t = s.elements t := by
  induction t using Nat.strong_induction_on with
  | _ t ih =>
  have hsources' : ∀ a ∈ (s'.op t).sources, a < t := by
    rw [hgrows.op_eq ht]
    exact hsources t ht
  rw [Session.elements_eq (hgrows.lt_size ht) hsources', Session.elements_eq ht (hsources t ht),
    hgrows.node_eq t ht]
  have hmemory : (s.node t).elements s'.memory s'.elements
      = (s.node t).elements s.memory s'.elements := by
    refine TensorNode.elements_memory fun id hid => ?_
    obtain ⟨b, hb⟩ := hstored t ht id hid
    rw [hb, hgrows.memory id b hb]
  rw [hmemory]
  exact TensorNode.elements_congr fun a ha =>
    ih a (hsources t ht a ha) ((hsources t ht a ha).trans ht)

section

variable (h : s.Sound lim) (hgrows : s.Grows s') (ht : t < s.nodes.size)

include h hgrows ht

theorem Sound.elements_grows : s'.elements t = s.elements t := by
  refine hgrows.elements_eq (fun t ht => (h t ht).sources_lt) (fun t ht id hid => ?_) ht
  obtain ⟨b, type, hb, -⟩ := (h t ht).held id hid
  exact ⟨b, hb⟩

theorem Sound.heldIn_grows {m : Memory} : s'.HeldIn t m id ↔ s.HeldIn t m id := by
  rw [HeldIn, HeldIn, hgrows.dtype_eq ht, hgrows.dims_eq ht, h.elements_grows hgrows ht]

theorem Sound.held_grows (hid : s'.storage t = some id) : s'.HeldIn t s'.memory id := by
  rw [hgrows.storage_eq ht] at hid
  have hheld := (h t ht).held id hid
  rw [h.heldIn_grows hgrows ht]
  refine hheld.congr ?_
  obtain ⟨b, type, hb, -⟩ := hheld
  rw [hb, hgrows.memory id b hb]

end

theorem Sound.of_nodes_eq (h : s.Sound lim) (hgrows : s.Grows s') (hnodes : s'.nodes = s.nodes) :
    s'.Sound lim := by
  have hheld : ∀ t < s.nodes.size, ∀ id, s'.storage t = some id → s'.HeldIn t s'.memory id :=
    fun _ ht _ => h.held_grows hgrows ht
  obtain ⟨nodes, m⟩ := s'
  obtain rfl : nodes = s.nodes := hnodes
  exact fun t ht => { h t ht with held := hheld t ht }

end Session

end LazyTensor

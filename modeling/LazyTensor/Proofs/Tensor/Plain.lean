import LazyTensor.Proofs.Layout.Moves
import LazyTensor.Proofs.Tensor.FrontEnd

/-!
# Sessions of integers and booleans

Operations on tensors of integers and booleans, whose sizes are numbers within the limits, lead to
sound sessions as long as there is no padding and nothing is assigned to.
-/

namespace LazyTensor

theorem Buffer.filled_ofValues {type : ScalarType} (htype : (DType.scalar type).IsPlain)
    (vs : List Value) : (Buffer.ofValues type vs).Filled type := by
  refine ⟨rfl, _, rfl, ?_⟩
  show (Value.encodeAll type vs).toArray.size = vs.length * type.bytes
  rw [List.size_toArray]
  induction vs with
  | nil => rw [List.length_nil, Nat.zero_mul]; rfl
  | cons v vs ih =>
    obtain ⟨w, hw⟩ := Value.exists_cast htype v
    obtain ⟨bytes, hencode, hlength, -⟩ := (Value.hasType_of_cast htype hw).exists_encode htype
    have hcast : v.castTo type = some w := hw
    have hfirst : Value.encodeAll type (v :: vs) = bytes ++ Value.encodeAll type vs := by
      rw [Value.encodeAll, List.flatMap_cons, hcast, Option.bind_some, hencode]
      rfl
    rw [hfirst, List.length_append, ih, hlength, List.length_cons, Nat.succ_mul, Nat.add_comm]

namespace Session

variable [Width] {lim : Limits} {s s' : Session} {t : Tensor} {type : ScalarType} {n : TensorNode}

/-- Tensors of integers and booleans whose sizes are numbers within the limits, and no assignments. -/
structure Plain (s : Session) (lim : Limits) : Prop where
  shapes : ∀ t < s.nodes.size, ∃ dims, s.shape t = dims.map .const ∧ lim.Admits dims
  types : ∀ t < s.nodes.size, (s.dtype t).IsPlain
  no_assign : ¬ s.HasAssign

theorem Plain.shape_eq (h : s.Plain lim) (ht : t < s.nodes.size) :
    s.shape t = (s.dims t).map .const ∧ lim.Admits (s.dims t) := by
  obtain ⟨dims, hdims, hadmits⟩ := h.shapes t ht
  rw [Session.dims, hdims, dimsOf_const]
  exact ⟨rfl, hadmits⟩

omit [Width] in
theorem Plain.of_keeps (h : s'.Plain lim) (hkeeps : s.Keeps s') : s.Plain lim where
  shapes t ht := hkeeps.shape_eq t ht ▸ h.shapes t (ht.trans_le hkeeps.size_le)
  types t ht := hkeeps.dtype_eq t ht ▸ h.types t (ht.trans_le hkeeps.size_le)
  no_assign := by
    rintro ⟨t, ht, target, value, hop⟩
    exact h.no_assign ⟨t, ht.trans_le hkeeps.size_le, target, value, (hkeeps.op_eq t ht).trans hop⟩

theorem Coherent.nodeSound (hs : s.Coherent) (hplain : s.Plain lim) (ht : t < s.nodes.size)
    (hconst : ∀ v, s.op t = .const v → v.HasType (s.dtype t))
    (hview : ∀ base l, s.op t = .view base l → l.Total (product (s.dims base)) lim (s.dims t))
    (hheld : ∀ id, s.storage t = some id → s.HeldIn t s.memory id) : s.NodeSound lim t := by
  refine ⟨(hplain.shape_eq ht).1, (hplain.shape_eq ht).2, hplain.types t ht, hs.device_eq t ht,
    hs.sources_lt t ht, ?_, hheld⟩
  have hagrees := hs.agrees t ht
  rw [Agrees] at hagrees
  rw [Formed]
  cases hop : s.op t with
  | const v => exact hconst v hop
  | view base l =>
    rw [hop] at hagrees
    exact ⟨hagrees.1, hagrees.2.1, hview base l hop⟩
  | reduce op axes a =>
    rw [hop] at hagrees
    exact ⟨hagrees.1, hagrees.2.1⟩
  | assign target value => exact hplain.no_assign ⟨t, ht, target, value, hop⟩
  | _ =>
    rw [hop] at hagrees
    exact hagrees

omit [Width] in
theorem Keeps.dims_eq [Width] (h : s.Keeps s') (ht : t < s.nodes.size) : s'.dims t = s.dims t := by
  rw [dims, h.shape_eq t ht, dims]

section

variable (hs : s.Sound lim)

include hs

theorem Sound.nodeSound_keeps (hkeeps : s.Keeps s') (hcoherent : s'.Coherent) (hplain : s'.Plain lim)
    (ht : t < s.nodes.size) (hheld : ∀ id, s'.storage t = some id → s'.HeldIn t s'.memory id) :
    s'.NodeSound lim t := by
  have hformed := (hs t ht).formed
  refine hcoherent.nodeSound hplain (ht.trans_le hkeeps.size_le) ?_ ?_ hheld
  · intro v hop
    rw [hkeeps.op_eq t ht] at hop
    rw [Formed, hop] at hformed
    rw [hkeeps.dtype_eq t ht]
    exact hformed
  · intro base l hop
    rw [hkeeps.op_eq t ht] at hop
    rw [Formed, hop] at hformed
    rw [hkeeps.dims_eq (hs.source_lt ht hop (.head _)), hkeeps.dims_eq ht]
    exact hformed.2.2

/-! ### New tensors -/

theorem Sound.layout_total (hexact : lim.Exact) (ht : t < s.nodes.size) :
    (s.layout t).Total (product (s.dims (s.base t))) lim (s.dims t) := by
  rw [layout, base]
  have hformed := (hs t ht).formed
  rw [Formed] at hformed
  cases hop : s.op t with
  | view base l =>
    rw [hop] at hformed
    exact hformed.2.2
  | _ =>
    dsimp only
    rw [(hs t ht).shape_eq]
    exact Layout.total_ofShape hexact (hs t ht).admits

theorem Sound.of_new (hgrows : s.Grows s') (hsize : s'.nodes.size = s.nodes.size + 1)
    (hcoherent : s'.Coherent) (hplain : s'.Plain lim) (hnew : s'.NodeSound lim s.nodes.size) :
    s'.Sound lim := by
  intro t ht
  rw [hsize] at ht
  rcases Nat.lt_or_eq_of_le (Nat.le_of_lt_succ ht) with ht | rfl
  · exact hs.nodeSound_keeps hgrows.keeps hcoherent hplain ht fun id => hs.held_grows hgrows ht
  · exact hnew

omit hs in
theorem heldIn_buffer (ht : t < s.nodes.size) (hop : s.op t = .buffer) {id : BufferId}
    (hid : s.storage t = some id) {b : Buffer} (hb : s.memory.get? id = some b)
    (hfilled : b.Filled type) (hdtype : s.dtype t = .scalar type)
    (hsize : (b.size : Int) = product (s.dims t)) (hdims : ∀ d ∈ s.dims t, 0 ≤ d) :
    s.HeldIn t s.memory id := by
  refine ⟨b, type, hb, hfilled, hdtype, hsize, fun position hlow hhigh => ?_⟩
  have helements := Session.elements_eq ht (by rw [hop]; exact nofun)
  rw [Elements.flat, helements]
  simp only [TensorNode.elements, show (s.node t).op = .buffer from hop,
    show (s.node t).storage = some id from hid, Option.bind_some]
  rw [show dimsOf (s.node t).shape = s.dims t from rfl, ravel_unravel hdims hlow hhigh]

theorem Sound.pushNode (hcoherent : s.Coherent) (hexact : lim.Exact)
    (hfits : s.Fits (Movement.Plain lim) n) (hstorage : n.storage = none)
    (hcoherent' : ({ s with nodes := s.nodes.push n } : Session).Coherent)
    (hplain : ({ s with nodes := s.nodes.push n } : Session).Plain lim) :
    ({ s with nodes := s.nodes.push n } : Session).Sound lim := by
  have hgrows : s.Grows { s with nodes := s.nodes.push n } := grows_push fun _ _ hb => hb
  have hself : ({ s with nodes := s.nodes.push n } : Session).node s.nodes.size = n := node_push_self
  have hlt : s.nodes.size < (s.nodes.push n).size := by
    rw [Array.size_push]
    exact Nat.lt_succ_self _
  refine hs.of_new hgrows (Array.size_push ..) hcoherent' hplain
    (hcoherent'.nodeSound hplain hlt ?_ ?_ ?_)
  · intro v hop
    rw [op, hself] at hop
    rw [Fits, hop] at hfits
    obtain ⟨w, rfl⟩ := hfits
    have hdtype := hplain.types _ hlt
    rw [dtype, hself] at hdtype ⊢
    exact Value.hasType_normalize hdtype w
  · intro base l hop
    rw [op, hself] at hop
    rw [Fits, hop] at hfits
    obtain ⟨t, m, ht, hm, happly, rfl, hshape, -⟩ := hfits
    have hdims := hplain.shape_eq hlt
    have hl : l.shape = (({ s with nodes := s.nodes.push n } : Session).dims
        s.nodes.size).map .const := by
      rw [← hdims.1, shape, hself, hshape]
    rw [hgrows.dims_eq (hcoherent.base_lt ht)]
    exact (hs.layout_total hexact ht).apply_plain hexact hm happly hl hdims.2
  · intro id hid
    rw [storage, hself, hstorage] at hid
    cases hid

theorem Sound.pushValues {m : Memory} {vs : List Value}
    (hn : n = ⟨.buffer, .scalar type, .cpu, [.const vs.length], some s.memory.buffers.size⟩)
    (hm : m = (s.memory.insert (Buffer.ofValues type vs)).2)
    (hcoherent' : (⟨s.nodes.push n, m⟩ : Session).Coherent)
    (hplain : (⟨s.nodes.push n, m⟩ : Session).Plain lim) :
    (⟨s.nodes.push n, m⟩ : Session).Sound lim := by
  have hgrows : s.Grows ⟨s.nodes.push n, m⟩ :=
    grows_push fun _ _ hb => hm ▸ Memory.get?_insert_of_some hb
  have hself : (⟨s.nodes.push n, m⟩ : Session).node s.nodes.size = n := node_push_self
  have hlt : s.nodes.size < (s.nodes.push n).size := by
    rw [Array.size_push]
    exact Nat.lt_succ_self _
  have htype := hplain.types _ hlt
  have hop : (⟨s.nodes.push n, m⟩ : Session).op s.nodes.size = .buffer := by rw [op, hself, hn]
  have hdims : (⟨s.nodes.push n, m⟩ : Session).dims s.nodes.size = [(vs.length : Int)] := by
    rw [Session.dims, shape, hself, hn]
    exact dimsOf_const [(vs.length : Int)]
  rw [dtype, hself, hn] at htype
  refine hs.of_new hgrows (Array.size_push ..) hcoherent' hplain
    (hcoherent'.nodeSound hplain hlt ?_ ?_ ?_)
  · intro v hop'
    rw [hop] at hop'
    cases hop'
  · intro base l hop'
    rw [hop] at hop'
    cases hop'
  · intro id hid
    refine heldIn_buffer hlt hop hid ?_ (Buffer.filled_ofValues htype vs) ?_ ?_
      (hplain.shape_eq hlt).2.dims_nonneg
    · rw [storage, hself, hn] at hid
      obtain rfl := Option.some.inj hid
      rw [hm]
      exact Memory.get?_insert_self _ _
    · rw [dtype, hself, hn]
    · rw [hdims, product_cons, product_nil, mul_one]
      rfl

theorem Sound.step (hcoherent : s.Coherent) (hexact : lim.Exact)
    (h : Step (Movement.Plain lim) s s') (hplain : s'.Plain lim) : s'.Sound lim := by
  have hcoherent' := hcoherent.step h
  cases h with
  | node hfits hdevice hstorage =>
    exact hs.pushNode hcoherent hexact hfits hstorage hcoherent' hplain
  | values type vs => exact hs.pushValues rfl rfl hcoherent' hplain

theorem Sound.steps (hcoherent : s.Coherent) (hexact : lim.Exact)
    (h : Steps (Movement.Plain lim) s s') (hplain : s'.Plain lim) : s'.Sound lim := by
  induction h with
  | refl => exact hs
  | tail hsteps hstep ih =>
    have hplain' := hplain.of_keeps hstep.grows.keeps
    exact (ih hplain').step (hcoherent.steps hsteps) hexact hstep hplain

end

/-! ### Computed tensors -/

/-- A tensor has been computed into a buffer, and no other buffer in use has changed. -/
structure Computed (s : Session) (t : Tensor) (id : BufferId) (m : Memory) : Prop where
  not_stored : s.isStored t = false
  held : s.HeldIn t m id
  kept : ∀ u other, s.storage u = some other → m.get? other = s.memory.get? other

section Stored

variable {id : BufferId} {m : Memory} {u : Tensor}

omit [Width] in
theorem storage_setStorage {other : BufferId} (hother :
    ({ s.setStorage t id with memory := m } : Session).storage u = some other) :
    u = t ∧ other = id ∨ s.storage u = some other := by
  rw [storage, node_setStorage] at hother
  split at hother
  next h => exact .inl ⟨h.1, (Option.some.inj hother).symm⟩
  next => exact .inr hother

theorem Sound.elements_setStorage (hs : s.Sound lim) (h : s.Computed t id m)
    (hu : u < s.nodes.size) :
    ({ s.setStorage t id with memory := m } : Session).elements u = s.elements u := by
  have hkeeps := keeps_setStorage s t id m
  induction u using Nat.strong_induction_on with
  | _ u ih =>
  have hnode := hs u hu
  have hsources : ∀ a ∈ (({ s.setStorage t id with memory := m } : Session).op u).sources, a < u := by
    rw [hkeeps.op_eq u hu]
    exact hnode.sources_lt
  have hplace : (({ s.setStorage t id with memory := m } : Session).node u).elements m s.elements
      = (s.node u).elements m s.elements := by
    rw [node_setStorage]
    split
    next heq =>
      refine TensorNode.elements_storage fun hop => ?_
      have hformed := hnode.formed
      rw [Formed, show s.op u = .buffer from hop, heq.1, h.not_stored] at hformed
      cases hformed
    next => rfl
  rw [elements_eq (hu.trans_le hkeeps.size_le) hsources, hnode.elements_eq hu]
  calc (({ s.setStorage t id with memory := m } : Session).node u).elements m
        ({ s.setStorage t id with memory := m } : Session).elements
      = (({ s.setStorage t id with memory := m } : Session).node u).elements m s.elements :=
        TensorNode.elements_congr fun a ha =>
          ih a (hsources a ha) ((hsources a ha).trans hu)
    _ = (s.node u).elements m s.elements := hplace
    _ = (s.node u).elements s.memory s.elements :=
        TensorNode.elements_memory fun other hother => h.kept u other hother

theorem Sound.stored (hs : s.Sound lim) (h : s.Computed t id m)
    (hcoherent : ({ s.setStorage t id with memory := m } : Session).Coherent)
    (hplain : ({ s.setStorage t id with memory := m } : Session).Plain lim) :
    ({ s.setStorage t id with memory := m } : Session).Sound lim := by
  have hkeeps := keeps_setStorage s t id m
  intro u hu
  have hu' : u < s.nodes.size := hu.trans_eq Array.size_modify
  refine hs.nodeSound_keeps hkeeps hcoherent hplain hu' fun other hother => ?_
  rw [HeldIn, hkeeps.dtype_eq u hu', hkeeps.dims_eq hu', hs.elements_setStorage h hu']
  rcases storage_setStorage hother with ⟨rfl, rfl⟩ | hother
  · exact h.held
  · exact ((hs u hu').held other hother).congr (h.kept u other hother)

end Stored

omit [Width] in
theorem natural_plain : Tensor.Natural (Movement.Plain lim) :=
  ⟨fun _ => trivial, fun _ => trivial, fun _ => trivial, fun _ => trivial⟩

theorem Built.sound (hexact : lim.Exact) (h : s.Built (Movement.Plain lim) Computed)
    (hplain : s.Plain lim) : s.Sound lim := by
  induction h with
  | empty => exact nofun
  | call hbuilt hcall ih =>
    have hcoherent := hbuilt.coherent natural_plain
    have hsteps := (hcall.makes natural_plain hcoherent _ _ rfl).1
    exact (ih (hplain.of_keeps hsteps.grows.keeps)).steps hcoherent hexact hsteps hplain
  | @allocated s m hbuilt hm ih =>
    have hgrows : s.Grows { s with memory := m } := ⟨le_rfl, fun _ _ => rfl, hm⟩
    exact (ih (hplain.of_keeps hgrows.keeps)).of_nodes_eq hgrows rfl
  | @stored s t id m hbuilt ht hview hsize hid hcomputed ih =>
    have hsound := ih (hplain.of_keeps (keeps_setStorage s t id m))
    exact hsound.stored hcomputed ((hbuilt.coherent natural_plain).setStorage hsize hid) hplain

end Session

end LazyTensor

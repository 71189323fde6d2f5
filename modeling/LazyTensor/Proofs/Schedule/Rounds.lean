import LazyTensor.Proofs.Schedule.Attempt
import LazyTensor.Proofs.Traversal

/-!
# Rounds

Kernels are built over and over, each time with one more node that has a kernel of its own. Since
that node had none before, all kernels are there after as many rounds as there are nodes.
-/

namespace LazyTensor

/-! ### What is to be computed -/

namespace Session

variable {s : Session} {ts : List Tensor} {t u : Tensor}

theorem lt_of_storage {id : BufferId} (h : s.storage t = some id) : t < s.nodes.size := by
  by_contra hge
  rw [storage, node, Array.getD_eq_getD_getElem?,
    Array.getElem?_eq_none (Nat.le_of_not_lt hge)] at h
  cases h

theorem mem_pendingReads :
    u ∈ s.pendingReads t ↔ s.isStored t = false ∧ ∃ a ∈ (s.op t).sources, s.base a = u := by
  rw [pendingReads]
  split
  next h => simp [h]
  next h => simp [h]

theorem Coherent.of_mem_pendingReads (hs : s.Coherent) (ht : t < s.nodes.size)
    (hu : u ∈ s.pendingReads t) : u < t ∧ u < s.nodes.size ∧ s.isView u = false := by
  obtain ⟨-, a, ha, rfl⟩ := mem_pendingReads.mp hu
  have ha' := hs.source_lt ht rfl ha
  have hlt := Nat.lt_of_le_of_lt (hs.base_le ha') (hs.sources_lt t ht a ha)
  exact ⟨hlt, hlt.trans ht, hs.isView_base ha'⟩

theorem Coherent.le_of_reaches (hs : s.Coherent) (ht : t < s.nodes.size)
    (h : Walk.Reaches s.pendingReads t u) : u ≤ t := by
  induction h with
  | refl => exact le_rfl
  | tail _ hread ih => exact (Nat.le_of_lt (hs.of_mem_pendingReads (ih.trans_lt ht) hread).1).trans ih

variable (hts : ∀ t ∈ ts, t < s.nodes.size)

include hts

theorem Coherent.ordered_pending (hs : s.Coherent) :
    Walk.Ordered s.pendingReads
        (postorderFrom s.pendingReads s.nodes.size (ts.map s.base)).reverse ∧
      ∀ t ∈ ts.map s.base, t ∈ postorderFrom s.pendingReads s.nodes.size (ts.map s.base) := by
  refine Walk.ordered_postorderFrom (U := Finset.range s.nodes.size) (I := (· < s.nodes.size))
    (fun t ht => Finset.mem_range.mpr ht) (fun t ht u hu => (hs.of_mem_pendingReads ht hu).2.1)
    (fun t ht u hu hreaches => ?_) (le_of_eq (Finset.card_range _)) ?_
  · obtain ⟨hlt, hu', -⟩ := hs.of_mem_pendingReads ht hu
    exact absurd (hs.le_of_reaches hu' hreaches) (Nat.not_le_of_lt hlt)
  · intro u hu
    obtain ⟨t, ht, rfl⟩ := List.mem_map.mp hu
    exact hs.base_lt (hts t ht)

omit hts in
theorem nodup_pending (s : Session) (ts : List Tensor) : (s.pending ts).Nodup :=
  (Walk.nodup_postorderFrom _ _ _).filter _

theorem Coherent.toCompute_pending (hs : s.Coherent) : Fusion.ToCompute s (s.pending ts) := by
  have hnodes : ∀ t ∈ postorderFrom s.pendingReads s.nodes.size (ts.map s.base),
      t < s.nodes.size ∧ s.isView t = false := by
    refine Walk.forall_mem_postorderFrom (fun t ht u hu => (hs.of_mem_pendingReads ht.1 hu).2) ?_
    intro u hu
    obtain ⟨t, ht, rfl⟩ := List.mem_map.mp hu
    exact ⟨hs.base_lt (hts t ht), hs.isView_base (hts t ht)⟩
  have hmem : ∀ {t}, t ∈ s.pending ts ↔
      t ∈ postorderFrom s.pendingReads s.nodes.size (ts.map s.base) ∧ s.isStored t = false := by
    intro t
    rw [pending, List.mem_filter, Bool.not_eq_true']
  refine ⟨fun t ht => (hnodes t (hmem.mp ht).1).1, fun t ht => (hnodes t (hmem.mp ht).1).2,
    fun t ht => (hmem.mp ht).2, fun t ht a ha hstored => hmem.mpr ⟨?_, hstored⟩⟩
  have hread := mem_pendingReads.mpr ⟨(hmem.mp ht).2, a, ha, rfl⟩
  exact List.mem_reverse.mp
    ((hs.ordered_pending hts).1.mem_of_reads (List.mem_reverse.mpr (hmem.mp ht).1) hread)

theorem Coherent.base_mem_pending (hs : s.Coherent) (ht : t ∈ ts)
    (hstored : s.isStored (s.base t) = false) : s.base t ∈ s.pending ts := by
  refine List.mem_filter.mpr ⟨(hs.ordered_pending hts).2 _ (List.mem_map_of_mem ht), ?_⟩
  rw [hstored]
  rfl

end Session

/-! ### Buffers for results -/

section Storage

variable [Width]

def Session.freshBuffer (s : Session) (t : Tensor) : Buffer where
  device := (s.node t).device
  dtype := s.dtype t
  size := ((s.size t).evalBound?.getD (s.size t).upper).toNat

/-- The buffer that a node has been given: an assignment that of its target, any other a new one. -/
def Session.Given (s s' : Session) (t : Tensor) (id : BufferId) : Prop :=
  match s.op t with
  | .assign target _ => s.storage (s.base target) = some id
  | _ => s.memory.buffers.size ≤ id ∧ s'.memory.get? id = some (s.freshBuffer t)

/-- Buffers have been given out to nodes, and only assignments share theirs. -/
structure Session.Stocked (s s' : Session) (storage : List (Tensor × BufferId)) : Prop where
  nodes_eq : s'.nodes = s.nodes
  kept : ∀ id b, s.memory.get? id = some b → s'.memory.get? id = some b
  size_le : s.memory.buffers.size ≤ s'.memory.buffers.size
  given : ∀ t id, storage.lookup t = some id → s.Given s' t id
  apart : ∀ t u id, storage.lookup t = some id → storage.lookup u = some id →
    (∀ target value, s.op t ≠ .assign target value) → t = u

variable {s s' : Session} {storage : List (Tensor × BufferId)} {t : Tensor} {id : BufferId}

theorem Session.stocked_nil (s : Session) : s.Stocked s [] :=
  ⟨rfl, fun _ _ h => h, le_rfl, nofun, nofun⟩

theorem Session.Given.of_assign {target value : Tensor} (h : s.Given s' t id)
    (hop : s.op t = .assign target value) : s.storage (s.base target) = some id := by
  rw [Given, hop] at h
  exact h

theorem Session.Given.of_not_assign (h : s.Given s' t id)
    (hop : ∀ target value, s.op t ≠ .assign target value) :
    s.memory.buffers.size ≤ id ∧ s'.memory.get? id = some (s.freshBuffer t) := by
  rw [Given] at h
  split at h
  next target value hassign => exact absurd hassign (hop target value)
  next => exact h

omit [Width] in
theorem Session.lt_of_op {o : TensorOp} (hop : s.op t = o) (ho : o ≠ .buffer) : t < s.nodes.size := by
  by_contra hge
  rw [op, node, Array.getD_eq_getD_getElem?, Array.getElem?_eq_none (Nat.le_of_not_lt hge)] at hop
  exact ho hop.symm

omit [Width] in
theorem Session.op_ne_assign (hno : ¬ s.HasAssign) (t : Tensor) (target value : Tensor) :
    s.op t ≠ .assign target value :=
  fun hop => hno ⟨t, lt_of_op hop nofun, target, value, hop⟩

variable (h : s.Stocked s' storage)

include h

theorem Session.Stocked.fresh (hno : ¬ s.HasAssign) (t : Tensor) (id : BufferId)
    (hid : storage.lookup t = some id) :
    s.memory.buffers.size ≤ id ∧ s'.memory.get? id = some (s.freshBuffer t) :=
  (h.given t id hid).of_not_assign (op_ne_assign hno t)

theorem Session.Stocked.injective (hno : ¬ s.HasAssign) (t u : Tensor) (id : BufferId)
    (ht : storage.lookup t = some id) (hu : storage.lookup u = some id) : t = u :=
  h.apart t u id ht hu (op_ne_assign hno t)

theorem Session.Stocked.lt_size (hs : s.Coherent) (hid : storage.lookup t = some id) :
    id < s'.memory.buffers.size := by
  have hgiven := h.given t id hid
  rw [Given] at hgiven
  split at hgiven
  next target value _ =>
    exact (hs.storage_lt _ (lt_of_storage hgiven) id hgiven).trans_le h.size_le
  next => exact (Array.getElem?_eq_some_iff.mp hgiven.2).1

omit h in
omit [Width] in
theorem lookup_append_singleton {u : Tensor} {other : BufferId}
    (h : (storage ++ [(t, id)]).lookup u = some other) :
    storage.lookup u = some other ∨ u = t ∧ other = id := by
  rw [List.lookup_append, Option.or_eq_some_iff] at h
  refine h.imp_right fun h => ?_
  by_cases hu : u = t
  · subst hu
    rw [List.lookup_cons_self] at h
    exact ⟨rfl, (Option.some.inj h.2).symm⟩
  · rw [List.lookup_cons, beq_false_of_ne hu] at h
    cases h.2

theorem Session.Coherent.stocked (hs : s.Coherent) : s'.Coherent := by
  obtain ⟨nodes, m⟩ := s'
  obtain rfl : nodes = s.nodes := h.nodes_eq
  exact ⟨hs.sources_lt, hs.agrees, hs.device_eq,
    fun t ht id hid => (hs.storage_lt t ht id hid).trans_le h.size_le⟩

theorem Tensor.run_outputBuffer (hs : s.Coherent) (ht : t < s.nodes.size)
    (hnone : storage.lookup t = none) :
    ∃ id s'', (outputBuffer t).run.run s' = (.ok id, s'') ∧ s.Stocked s'' (storage ++ [(t, id)]) := by
  have hold := fun (w : Tensor) (id : BufferId) (hw : storage.lookup w = some id) => h.lt_size hs hw
  obtain ⟨nodes, m⟩ := s'
  obtain rfl : nodes = s.nodes := h.nodes_eq
  by_cases hassign : ∃ target value, s.op t = .assign target value
  · obtain ⟨target, value, hop⟩ := hassign
    have hagrees := hs.agrees t ht
    rw [Session.Agrees, hop] at hagrees
    obtain ⟨id, hid⟩ := Option.isSome_iff_exists.mp hagrees.1
    refine ⟨id, ⟨s.nodes, m⟩, ?_, rfl, h.kept, h.size_le, fun u other hother => ?_,
      fun u v other hu hv hnew => ?_⟩
    · have hop' : (⟨s.nodes, m⟩ : Session).op t = .assign target value := hop
      have hid' : (⟨s.nodes, m⟩ : Session).storage ((⟨s.nodes, m⟩ : Session).base target) = some id := hid
      rw [outputBuffer, TensorM.run_get_bind]
      simp only [hop', hid']
      rfl
    · rcases lookup_append_singleton hother with hother | ⟨rfl, rfl⟩
      · exact h.given u other hother
      · rw [Session.Given, hop]
        exact hid
    · rcases lookup_append_singleton hu with hu' | ⟨rfl, -⟩
      · rcases lookup_append_singleton hv with hv' | ⟨-, rfl⟩
        · exact h.apart u v other hu' hv' hnew
        · -- The buffer of the target was there before.
          exact absurd (hs.storage_lt _ (Session.lt_of_storage hid) other hid)
            (Nat.not_lt_of_le ((h.given u other hu').of_not_assign hnew).1)
      · exact absurd hop (hnew target value)
  · refine ⟨m.buffers.size, ⟨s.nodes, (m.insert (s.freshBuffer t)).2⟩, ?_, rfl,
      fun id b hb => Memory.get?_insert_of_some (h.kept id b hb), ?_, fun u id hid => ?_,
      fun u v id hu hv hnew => ?_⟩
    · rw [outputBuffer, TensorM.run_get_bind]
      split
      next target value hop => exact absurd ⟨target, value, hop⟩ hassign
      next => rfl
    · exact h.size_le.trans (by rw [Memory.insert, Array.size_push]; exact Nat.le_succ _)
    · rcases lookup_append_singleton hid with hid | ⟨rfl, rfl⟩
      · have hgiven := h.given u id hid
        rw [Session.Given] at hgiven ⊢
        split at hgiven
        next => exact hgiven
        next => exact ⟨hgiven.1, Memory.get?_insert_of_some hgiven.2⟩
      · rw [Session.Given]
        split
        next target value hop => exact absurd ⟨target, value, hop⟩ hassign
        next => exact ⟨h.size_le, Memory.get?_insert_self m _⟩
    · rcases lookup_append_singleton hu with hu | ⟨rfl, hid⟩
      · rcases lookup_append_singleton hv with hv | ⟨-, hid⟩
        · exact h.apart u v id hu hv hnew
        · exact absurd hid (Nat.ne_of_lt (hold u id hu))
      · rcases lookup_append_singleton hv with hv | ⟨rfl, -⟩
        · exact absurd hid (Nat.ne_of_lt (hold v id hv))
        · rfl

theorem Tensor.run_provideStorage (hs : s.Coherent) {roots : List Tensor}
    (hroots : ∀ t ∈ roots, t < s.nodes.size) :
    ∃ storage' s'', (provideStorage roots storage).run.run s' = (.ok storage', s'') ∧
      s.Stocked s'' storage' ∧ (∀ t ∈ roots, ∃ id, storage'.lookup t = some id) ∧
      (∀ t id, storage.lookup t = some id → storage'.lookup t = some id) ∧
      ∀ t id, storage'.lookup t = some id → storage.lookup t = some id ∨ t ∈ roots := by
  induction roots generalizing storage s' with
  | nil =>
    exact ⟨storage, s', rfl, h, nofun, fun _ _ h => h,
      fun _ _ h => .inl h⟩
  | cons r roots ih =>
    rw [List.forall_mem_cons] at hroots
    cases hr : storage.lookup r with
    | some id =>
      obtain ⟨storage', s'', hrun, hstocked, hall, hkept, hkeys⟩ := ih h hroots.2
      refine ⟨storage', s'', ?_, hstocked, ?_, hkept,
        fun t id ht => (hkeys t id ht).imp_right (List.mem_cons_of_mem r)⟩
      · rw [provideStorage, List.foldlM_cons, hr]
        exact hrun
      · exact List.forall_mem_cons.mpr ⟨⟨id, hkept r id hr⟩, hall⟩
    | none =>
      obtain ⟨id, s₁, hrun₁, hstocked₁⟩ := run_outputBuffer h hs hroots.1 hr
      obtain ⟨storage', s'', hrun, hstocked, hall, hkept, hkeys⟩ := ih hstocked₁ hroots.2
      refine ⟨storage', s'', ?_, hstocked, ?_, ?_, ?_⟩
      · rw [provideStorage, List.foldlM_cons, hr]
        show ((do return storage ++ [(r, ← r.outputBuffer)]) >>= provideStorage roots).run.run s' = _
        rw [TensorM.run_bind, TensorM.run_bind, hrun₁]
        exact hrun
      · refine List.forall_mem_cons.mpr ⟨⟨id, hkept r id ?_⟩, hall⟩
        rw [List.lookup_append, hr, List.lookup_cons_self]
        rfl
      · intro t other hother
        exact hkept t other (by rw [List.lookup_append, hother]; rfl)
      · intro t other hother
        rcases hkeys t other hother with hother | ht
        · refine (lookup_append_singleton hother).imp_right fun ht => ?_
          rw [ht.1]
          exact List.mem_cons_self
        · exact .inr (List.mem_cons_of_mem r ht)

end Storage

/-! ### Rounds -/

section Rounds

variable [Width] {s s' : Session} {order : List Tensor} {p : Session.Partition}
  {storage : List (Tensor × BufferId)} {known : SymVar × Int → Prop}

def unrealized (order realize : List Tensor) : Nat :=
  (order.filter fun t => !realize.contains t).length

omit [Width] in
theorem Apart.unrealized_lt {realize : List Tensor} {t : Tensor} (h : Apart s order realize t) :
    unrealized order (t :: realize) < unrealized order realize := by
  have hfilter : (order.filter fun u => !(t :: realize).contains u)
      = (order.filter fun u => !realize.contains u).filter (· != t) := by
    rw [List.filter_filter]
    refine List.filter_congr fun u _ => ?_
    rw [List.contains_cons, Bool.not_or]
    rfl
  rw [unrealized, hfilter]
  refine List.length_filter_lt_length_iff_exists.mpr ⟨t, List.mem_filter.mpr ⟨h.mem, ?_⟩, by simp⟩
  simpa using h.not_mem

structure Session.Rounds (s : Session) (order : List Tensor) (s' : Session) (p : Partition) :
    Prop where
  stocked : s.Stocked s' p.storage
  alone : ∀ t ∈ order, (∃ a, s.op t = .contiguous a) ∨
    (∃ target value, s.op t = .assign target value) → t ∈ p.realize
  keys : ∀ t id, p.storage.lookup t = some id → t ∈ order ∧ t ∈ p.realize

theorem Session.Rounds.provide (h : s.Rounds order s' p) (hs : s.Coherent)
    (horder : ∀ t ∈ order, t < s.nodes.size) :
    ∃ storage s'', (Tensor.provideStorage (order.filter p.realize.contains) p.storage).run.run s'
        = (.ok storage, s'') ∧
      s.Rounds order s'' { p with storage } ∧
      ({ p with storage } : Partition).Supplies s order := by
  obtain ⟨storage, s'', hrun, hstocked, hall, hkept, hkeys⟩ := Tensor.run_provideStorage h.stocked hs
    (fun t ht => horder t (List.mem_filter.mp ht).1)
  refine ⟨storage, s'', hrun, ⟨hstocked, h.alone, fun t id hid => ?_⟩, h.alone, fun t ht hmem => ?_,
    fun hno t u id ht hu => ?_⟩
  · rcases hkeys t id hid with hid | ht
    · exact h.keys t id hid
    · rw [List.mem_filter, List.contains_iff_mem] at ht
      exact ht
  · exact hall t (List.mem_filter.mpr ⟨ht, List.contains_iff_mem.mpr hmem⟩)
  · cases hstored : s.storage u with
    | none =>
      rw [hstored] at hu
      exact (hstocked.injective hno t u id ht hu).symm
    | some other =>
      -- A buffer from before is none of the new ones.
      rw [hstored] at hu
      obtain rfl : other = id := Option.some.inj hu
      exact absurd (hs.storage_lt u (lt_of_storage hstored) other hstored)
        (Nat.not_lt_of_le (hstocked.fresh hno t other ht).1)

/-! Making buffers changes nothing about the nodes. -/

theorem Session.Stocked.toCompute (h : s.Stocked s' storage) (hpending : Fusion.ToCompute s order) :
    Fusion.ToCompute s' order := by
  obtain ⟨nodes, m⟩ := s'
  obtain rfl : nodes = s.nodes := h.nodes_eq
  exact ⟨hpending.lt, hpending.isView, hpending.isStored, hpending.closed⟩

theorem Session.Stocked.covers (h : s.Stocked s' storage) (hcovers : s.Covers known) :
    s'.Covers known := by
  obtain ⟨nodes, m⟩ := s'
  obtain rfl : nodes = s.nodes := h.nodes_eq
  exact ⟨hcovers.layouts, hcovers.shapes, hcovers.reshape⟩

theorem Session.Stocked.kernelled {root : Tensor} {result : Except Stop FusedKernel}
    (h : s.Stocked s' storage) (hresult : Kernelled s' p order known root result) :
    Kernelled s p order known root result := by
  obtain ⟨nodes, m⟩ := s'
  obtain rfl : nodes = s.nodes := h.nodes_eq
  cases result with
  | ok k => exact ⟨hresult.root_eq, hresult.deps_lt, hresult.overwrites⟩
  | error e =>
    cases e with
    | realize t => exact ⟨hresult.mem, hresult.not_stored, hresult.not_mem⟩
    | rescope t shape => exact hresult
    | fail e => exact fun hroot hp => hresult hroot ⟨hp.alone, hp.covered, hp.distinct⟩

namespace Tensor

variable {known : SymVar × Int → Prop} (hs : s.Coherent) (hpending : Fusion.ToCompute s order)
  (maxViews : Nat)

theorem run_buildKernels {s'' : Session}
    (hprovide : (provideStorage (order.filter p.realize.contains) p.storage).run.run s' = (.ok
      storage, s'')) (fuel : Nat) :
    (buildKernels maxViews order (fuel + 1) p).run.run s' =
      match (order.filter p.realize.contains).mapM
        (s''.buildKernel { p with storage } maxViews) with
      | .ok kernels => (.ok (kernels, { p with storage }), s'')
      | .error (.realize t) | .error (.rescope t _) =>
        (buildKernels maxViews order fuel { realize := t :: p.realize, storage }).run.run s''
      | .error (.fail e) => (.error e, s'') := by
  rw [buildKernels]
  dsimp only
  rw [TensorM.run_bind, hprovide]
  dsimp only
  rw [TensorM.run_bind]
  show StateT.run (ExceptT.run (match (order.filter p.realize.contains).mapM
    (s''.buildKernel { p with storage } maxViews) with
    | .ok kernels => pure (kernels, { p with storage })
    | .error (.realize t) | .error (.rescope t _) =>
      buildKernels maxViews order fuel { realize := t :: p.realize, storage }
    | .error (.fail e) => throw e)) s'' = _
  cases (order.filter p.realize.contains).mapM (s''.buildKernel { p with storage } maxViews) with
  | ok kernels => rfl
  | error e => cases e <;> rfl

end Tensor

def Session.RoundEnds (s : Session) (p : Partition) (order : List Tensor)
    (known : SymVar × Int → Prop) : Except Stop (List FusedKernel) → Prop
  | .ok kernels => List.Forall₂ (FusedKernel.IsFor s) (order.filter p.realize.contains) kernels
  | .error (.realize t) => Apart s order p.realize t
  | .error (.rescope ..) => False
  | .error (.fail e) => e.Allowed known s.HasAssign

theorem Session.Rounds.ends (h : s.Rounds order s' p) (hs : s.Coherent)
    (hpending : Fusion.ToCompute s order) (hcovers : s.Covers known) (hp : p.Supplies s order)
    (maxViews : Nat) :
    s.RoundEnds p order known
      ((order.filter p.realize.contains).mapM (s'.buildKernel p maxViews)) := by
  have hkernelled : ∀ root ∈ order.filter p.realize.contains, root ∈ p.realize ∧
      Kernelled s p order known root (s'.buildKernel p maxViews root) := by
    intro root hroot
    rw [List.mem_filter, List.contains_iff_mem] at hroot
    exact ⟨hroot.2, h.stocked.kernelled (kernelled_buildKernel (hs.stocked h.stocked)
      (h.stocked.toCompute hpending) (h.stocked.covers hcovers) hroot.1 p maxViews)⟩
  cases hresult : (order.filter p.realize.contains).mapM (s'.buildKernel p maxViews) with
  | ok kernels =>
    refine forall₂_of_mapM_ok (fun root hroot k hk => ?_) hresult
    have hok := (hkernelled root hroot).2
    rw [hk] at hok
    exact hok
  | error e =>
    obtain ⟨root, hroot, he⟩ := exists_of_mapM_error hresult
    obtain ⟨hmem, hstop⟩ := hkernelled root hroot
    rw [he] at hstop
    cases e with
    | realize t | rescope t shape => exact hstop
    | fail e => exact hstop hmem hp

namespace Tensor

/-- From one partition to another, and from session to session: rounds follow each other as long as
some node needs a kernel of its own. -/
inductive RoundsEnd (maxViews : Nat) (order : List Tensor) :
    Session.Partition → Session → Session.Partition → Session → Prop
  | last {p : Session.Partition} {s s' : Session} {storage : List (Tensor × BufferId)} :
      (provideStorage (order.filter p.realize.contains) p.storage).run.run s = (.ok storage, s') →
      (∀ t, (order.filter p.realize.contains).mapM (s'.buildKernel { p with storage } maxViews)
        ≠ .error (.realize t)) →
      RoundsEnd maxViews order p s { p with storage } s'
  | next {p p' : Session.Partition} {s s' s₁ : Session} {storage : List (Tensor × BufferId)}
      {t : Tensor} :
      (provideStorage (order.filter p.realize.contains) p.storage).run.run s = (.ok storage, s₁) →
      (order.filter p.realize.contains).mapM (s₁.buildKernel { p with storage } maxViews)
        = .error (.realize t) →
      RoundsEnd maxViews order { realize := t :: p.realize, storage } s₁ p' s' →
      RoundsEnd maxViews order p s p' s'

variable {known : SymVar × Int → Prop} (hs : s.Coherent) (hpending : Fusion.ToCompute s order)

include hs hpending

/-- Building kernels ends before the rounds run out. The kernels of the last round are those of the
schedule, and its failure is that of the schedule. -/
theorem exists_roundsEnd (hcovers : s.Covers known) (maxViews : Nat) (h : s.Rounds order s' p) :
    ∃ p' s'', RoundsEnd maxViews order p s' p' s'' ∧ s.Rounds order s'' p' ∧ p'.Supplies s order ∧
      (∀ t ∈ p.realize, t ∈ p'.realize) ∧ ∀ fuel, unrealized order p.realize < fuel →
        match (order.filter p'.realize.contains).mapM (s''.buildKernel p' maxViews) with
        | .ok kernels => (buildKernels maxViews order fuel p).run.run s' = (.ok (kernels, p'), s'')
        | .error stop => ∃ e, stop = .fail e ∧ e.Allowed known s.HasAssign ∧
            (buildKernels maxViews order fuel p).run.run s' = (.error e, s'') := by
  induction hcount : unrealized order p.realize using Nat.strong_induction_on generalizing p s' with
  | _ count ih =>
    subst hcount
    obtain ⟨storage, s'', hprovide, hrounds, hsupplies⟩ := h.provide hs hpending.lt
    have hends := hrounds.ends hs hpending hcovers hsupplies maxViews
    have hrun := run_buildKernels maxViews hprovide
    dsimp only at hends
    cases hresult : (order.filter p.realize.contains).mapM
        (s''.buildKernel { p with storage } maxViews) with
    | ok kernels =>
      have hlast : RoundsEnd maxViews order p s' { p with storage } s'' :=
        .last hprovide fun t ht => by cases hresult.symm.trans ht
      refine ⟨_, s'', hlast, hrounds, hsupplies, fun t ht => ht, fun fuel hfuel => ?_⟩
      obtain ⟨fuel, rfl⟩ := Nat.exists_eq_add_of_lt hfuel
      dsimp only
      rw [hresult]
      dsimp only
      rw [hrun, hresult]
    | error stop =>
      rw [hresult] at hends
      cases stop with
      | fail e =>
        have hlast : RoundsEnd maxViews order p s' { p with storage } s'' :=
          .last hprovide fun t ht => by cases hresult.symm.trans ht
        refine ⟨_, s'', hlast, hrounds, hsupplies, fun t ht => ht, fun fuel hfuel => ?_⟩
        obtain ⟨fuel, rfl⟩ := Nat.exists_eq_add_of_lt hfuel
        dsimp only
        rw [hresult]
        refine ⟨e, rfl, hends, ?_⟩
        rw [hrun, hresult]
      | rescope t shape => exact hends.elim
      | realize t =>
        have hapart : Apart s order p.realize t := hends
        have hnext : s.Rounds order s'' { realize := t :: p.realize, storage } :=
          ⟨hrounds.stocked, fun u hu hop => List.mem_cons_of_mem t (hrounds.alone u hu hop),
            fun u id hid => (hrounds.keys u id hid).imp_right (List.mem_cons_of_mem t)⟩
        obtain ⟨p', s₂, hrest, hrounds', hsupplies', hkept, houtcome⟩ :=
          ih _ hapart.unrealized_lt hnext rfl
        refine ⟨p', s₂, .next hprovide hresult hrest, hrounds', hsupplies',
          fun u hu => hkept u (List.mem_cons_of_mem t hu), fun fuel hfuel => ?_⟩
        obtain ⟨fuel, rfl⟩ := Nat.exists_eq_add_of_lt hfuel
        rw [hrun, hresult]
        exact houtcome _ (Nat.lt_of_lt_of_le hapart.unrealized_lt (Nat.le_of_lt_succ hfuel))

theorem buildKernels_congr (hcovers : s.Covers known) (maxViews : Nat) {fuel fuel' : Nat}
    (hfuel : unrealized order p.realize < fuel) (hfuel' : unrealized order p.realize < fuel')
    (h : s.Rounds order s' p) :
    (buildKernels maxViews order fuel p).run.run s' = (buildKernels maxViews order fuel' p).run.run s' := by
  obtain ⟨p', s'', -, -, -, -, houtcome⟩ := exists_roundsEnd hs hpending hcovers maxViews h
  have hfirst := houtcome fuel hfuel
  have hsecond := houtcome fuel' hfuel'
  cases hresult : (order.filter p'.realize.contains).mapM (s''.buildKernel p' maxViews) with
  | ok kernels =>
    rw [hresult] at hfirst hsecond
    exact hfirst.trans hsecond.symm
  | error stop =>
    rw [hresult] at hfirst hsecond
    obtain ⟨e, rfl, -, hfirst⟩ := hfirst
    obtain ⟨e', heq, -, hsecond⟩ := hsecond
    cases heq
    exact hfirst.trans hsecond.symm

end Tensor

end Rounds

end LazyTensor

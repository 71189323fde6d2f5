import LazyTensor.Proofs.Schedule.Order
import LazyTensor.Proofs.Schedule.Settle
import LazyTensor.Proofs.Tensor.Plain

/-!
# Schedules compute

Carried out in its order, a schedule leaves behind what the tensors stand for, whichever nodes share
a kernel.
-/

namespace LazyTensor

theorem mapM_eq_some_map {α β : Type} {f : α → Option β} {g : α → β} {l : List α}
    (h : ∀ a ∈ l, f a = some (g a)) : l.mapM f = some (l.map g) := by
  induction l with
  | nil => rfl
  | cons a l ih =>
    rw [List.forall_mem_cons] at h
    rw [List.mapM_cons, h.1, ih h.2]
    rfl

section Compute

variable [Width] {s s' : Session} {lim : Limits} {ts : List Tensor} {config : ScheduleConfig}
  {result : Schedule} {p : Session.Partition} {kernels ordered : List FusedKernel} {t : Tensor}

theorem Session.Stocked.grows {storage : List (Tensor × BufferId)} (h : s.Stocked s' storage) :
    s.Grows s' :=
  ⟨by rw [h.nodes_eq], fun t _ => by rw [node, h.nodes_eq, node], h.kept⟩

theorem Session.Sound.freshBuffer_eq (hs : s.Sound lim) (hexact : lim.Exact)
    (ht : t < s.nodes.size) : s.freshBuffer t = s.blank t := by
  have hnode := hs t ht
  have hsize : s.size t = .const (product (s.dims t)) := by
    rw [size, hnode.shape_eq]
    exact prod_const hexact.exactTo hnode.admits.dims_nonneg
      (hnode.admits.volume_le.trans hexact.volume_le)
  rw [freshBuffer, blank, hnode.device_eq, hsize, SymInt.evalBound?_const, Option.getD_some]

theorem Session.Sound.values_of_heldIn (hs : s.Sound lim) (ht : t < s.nodes.size) {m : Memory}
    {id : BufferId} (h : s.HeldIn t m id) :
    ∃ values, m.values id = some values ∧ (s.elements t).values = some values := by
  obtain ⟨b, type, hb, hfilled, hdtype, hsize, hheld⟩ := h
  have helement : ∀ k ∈ List.range b.size,
      m.element id (k : Int) = some ((m.element id (k : Int)).getD default) := by
    intro k hk
    obtain ⟨v, hv, -⟩ := hfilled.exists_readElement (Int.natCast_nonneg k)
      (Int.ofNat_lt.mpr (List.mem_range.mp hk)) (hdtype ▸ (hs t ht).plain)
    rw [Memory.element_of_get? hb, hv]
    rfl
  refine ⟨_, (Memory.values_eq hb).trans (mapM_eq_some_map helement), ?_⟩
  rw [Elements.values, coordinates, (hs t ht).elements_dims ht, ← hsize, Int.toNat_natCast,
    List.mapM_map]
  refine mapM_eq_some_map fun k hk => ?_
  rw [← helement k hk, hheld k (Int.natCast_nonneg k) (hsize ▸ Int.ofNat_lt.mpr (List.mem_range.mp hk)),
    hs.elements_flat ht]
  rfl

namespace Schedule.Of

variable (h : Schedule.Of s ts config s' result p kernels ordered) (hs : s.Sound lim)

include h

theorem sound (hs : s.Sound lim) : s'.Sound lim :=
  hs.of_nodes_eq h.rounds.stocked.grows h.rounds.stocked.nodes_eq

variable (hcoherent : s.Coherent) (hexact : lim.Exact) (hts : ∀ t ∈ ts, t < s.nodes.size)
  {k : FusedKernel}

include hs hcoherent hexact hts

theorem computes_of_build {root : Tensor} (hroot : root ∈ s.pending ts)
    (hbuild : s'.buildKernel p config.maxViews root = .ok k) :
    ∃ id, p.storage.lookup root = some id ∧ k.Computes s' p.storage root id := by
  have hlt := (hcoherent.toCompute_pending hts).lt root hroot
  exact (h.sound hs).buildKernel_computes hexact (h.rounds.stocked.grows.lt_size hlt) hbuild

theorem computes (hk : k ∈ kernels) :
    k.root ∈ s.pending ts ∧ ∃ id, p.storage.lookup k.root = some id ∧
      k.Computes s' p.storage k.root id := by
  obtain ⟨root, hroot, hbuild⟩ := (exists_of_mapM_ok h.kernels_eq).2 k hk
  have hmem := (List.mem_filter.mp hroot).1
  obtain ⟨id, hid, hcomputes⟩ := h.computes_of_build hs hcoherent hexact hts hmem hbuild
  obtain rfl := hcomputes.root_eq
  exact ⟨hmem, id, hid, hcomputes⟩

theorem exists_kernel (ht : t ∈ s.pending ts) (hrealize : t ∈ p.realize) :
    ∃ k ∈ kernels, k.root = t := by
  obtain ⟨k, hk, hbuild⟩ := (exists_of_mapM_ok h.kernels_eq).1 t
    (List.mem_filter.mpr ⟨ht, List.contains_iff_mem.mpr hrealize⟩)
  obtain ⟨id, -, hcomputes⟩ := h.computes_of_build hs hcoherent hexact hts ht hbuild
  exact ⟨k, hk, hcomputes.root_eq⟩

theorem kernelPlan (hnone : ¬ s.HasAssign) (hdefined : ∀ t ∈ s.pending ts, s.Defined t) :
    KernelPlan s' p.storage kernels where
  computes k hk := (h.computes hs hcoherent hexact hts hk).2
  complete t id hid :=
    h.exists_kernel hs hcoherent hexact hts (h.rounds.keys t id hid).1 (h.rounds.keys t id hid).2
  injective := h.rounds.stocked.injective hnone
  fresh t id hid u hu hstorage := by
    rw [h.rounds.stocked.nodes_eq] at hu
    rw [h.rounds.stocked.grows.storage_eq hu] at hstorage
    exact Nat.not_lt_of_le (h.rounds.stocked.fresh hnone t id hid).1
      (hcoherent.storage_lt u hu id hstorage)
  defined k hk := by
    have hroot := (h.computes hs hcoherent hexact hts hk).1
    have hlt := (hcoherent.toCompute_pending hts).lt k.root hroot
    have hgrows := h.rounds.stocked.grows
    rw [Session.Defined, hgrows.dims_eq hlt, hs.elements_grows hgrows hlt]
    exact hdefined k.root hroot

theorem progress (hnone : ¬ s.HasAssign) : Progress s' p.storage kernels s'.memory where
  retains t id ht hid := (h.sound hs t ht).held id hid
  held t id hid hdone := by
    obtain ⟨k, hk, hroot⟩ :=
      h.exists_kernel hs hcoherent hexact hts (h.rounds.keys t id hid).1 (h.rounds.keys t id hid).2
    exact absurd hroot (hdone k hk)
  blank k hk id hid := by
    have hroot := (h.computes hs hcoherent hexact hts hk).1
    have hlt := (hcoherent.toCompute_pending hts).lt k.root hroot
    have hgrows := h.rounds.stocked.grows
    rw [(h.rounds.stocked.fresh hnone k.root id hid).2, hs.freshBuffer_eq hexact hlt, Session.blank,
      Session.blank, hgrows.dtype_eq hlt, hgrows.dims_eq hlt]

theorem held {m : Memory} (hdone : Progress s' p.storage [] m) (ht : t ∈ ts) :
    ∃ id, (s.storage (s.base t) = some id ∨
        ∃ item ∈ result.items, item.root = s.base t ∧ item.output = id) ∧
      s.HeldIn (s.base t) m id := by
  have hbase := hcoherent.base_lt (hts t ht)
  have hgrows := h.rounds.stocked.grows
  cases hstored : s.storage (s.base t) with
  | some id =>
    have hheld := hdone.retains (s.base t) id (hgrows.lt_size hbase)
      ((hgrows.storage_eq hbase).trans hstored)
    exact ⟨id, .inl rfl, (hs.heldIn_grows hgrows hbase).mp hheld⟩
  | none =>
    have hpending := hcoherent.base_mem_pending hts ht (by rw [Session.isStored, hstored]; rfl)
    have hrealize : s.base t ∈ p.realize := by
      refine h.start _ (List.mem_filter.mpr ⟨hpending, ?_⟩)
      rw [Session.standsAlone, List.contains_iff_mem.mpr (List.mem_map_of_mem ht)]
      rfl
    obtain ⟨k, hk, hroot⟩ := h.exists_kernel hs hcoherent hexact hts hpending hrealize
    obtain ⟨k', hk', hmem, hroot'⟩ := FusedKernel.exists_mem_orderFrom h.orderFrom_eq le_rfl hk
    obtain ⟨-, id, hid, hcomputes⟩ := h.computes hs hcoherent hexact hts hmem
    rw [hroot'.trans hroot] at hid
    refine ⟨id, .inr ⟨k'.item, ?_, hroot'.trans hroot, hcomputes.output_eq⟩, ?_⟩
    · rw [h.items_eq]
      exact List.mem_map_of_mem hk'
    · have hheld := hdone.held _ id hid (by simp)
      exact (hs.heldIn_grows hgrows hbase).mp hheld

end Schedule.Of

/-- A schedule for tensors of integers and booleans with sizes that are numbers, made without padding
and without assignments, can be carried out if every element has a value. It then leaves the
elements of what was asked for in row-major order, in the buffers that its items write. -/
theorem Tensor.schedule_computes (hexact : lim.Exact)
    (hs : s.Built (Movement.Plain lim) Session.Computed) (hplain : s.Plain lim)
    (hts : ∀ t ∈ ts, t < s.nodes.size) (hrun : (schedule ts config).run.run s = (.ok result, s'))
    (hdefined : ∀ t ∈ s.pending ts, s.Defined t) :
    ∃ m, result.run s'.memory = some m ∧
      ∀ t ∈ ts, ∃ id, (s.storage (s.base t) = some id ∨
          ∃ item ∈ result.items, item.root = s.base t ∧ item.output = id) ∧
        ∃ values, m.values id = some values ∧ (s.elements (s.base t)).values = some values := by
  have hcoherent := hs.coherent Session.natural_plain
  have hsound := hs.sound hexact hplain
  obtain ⟨p, kernels, ordered, hof⟩ := Tensor.of_schedule hcoherent hts hrun
  have hplan := hof.kernelPlan hsound hcoherent hexact hts hplain.no_assign hdefined
  obtain ⟨m, hm, hdone⟩ := (hof.progress hsound hcoherent hexact hts hplain.no_assign).run hplan
    (fun k hk => hk) le_rfl hof.orderFrom_eq
  refine ⟨m, ?_, fun t ht => ?_⟩
  · rw [Schedule.run, hof.items_eq]
    exact hm
  · obtain ⟨id, hplace, hheld⟩ :=
      hof.held hsound hcoherent hexact hts hdone ht
    exact ⟨id, hplace, hsound.values_of_heldIn (hcoherent.base_lt (hts t ht)) hheld⟩

end Compute

/-! ### Rows less their sums -/

section Rows

/-- Six numbers in two rows, each row with the other one added, less the sum of the row. -/
def centeredRows : Session :=
  letI := Width.word64
  (((((Session.after {} (Tensor.ofValues .int32 [.int 1, .int 2, .int 3, .int 4, .int 5, .int 6])).after
    (Tensor.move 0 (.reshape [2, 3]))).after (Tensor.move 1 (.flip [true, false]))).after
    (Tensor.add 1 2)).after (Tensor.sum 3 (some [1]) true none)).after (Tensor.sub 3 4)

instance (lim : Limits) (dims : List Int) : Decidable (lim.Admits dims) :=
  decidable_of_iff ((∀ d ∈ dims, 0 < d) ∧ product dims ≤ lim.volume ∧ dims.sum ≤ lim.extent)
    ⟨fun h => ⟨h.1, h.2.1, h.2.2⟩, fun h => ⟨h.dims_pos, h.volume_le, h.extent_le⟩⟩

instance [Width] (s : Session) (t : Tensor) : Decidable (s.Defined t) :=
  decidable_of_iff (∀ k < (product (s.dims t)).toNat, ((s.elements t).flat k).isSome = true) <| by
    constructor
    · intro h position hlow hhigh
      obtain ⟨k, rfl⟩ := Int.eq_ofNat_of_zero_le hlow
      exact Option.isSome_iff_exists.mp (h k (by omega))
    · intro h k hk
      exact Option.isSome_iff_exists.mpr (h k (Int.natCast_nonneg k) (by omega))

theorem Session.Concrete.plain [Width] {s : Session} {lim : Limits} (h : s.Concrete)
    (hadmits : ∀ t < s.nodes.size, lim.Admits (s.dims t))
    (htypes : ∀ t < s.nodes.size, (s.dtype t).IsPlain) (hnone : ¬ s.HasAssign) : s.Plain lim := by
  refine ⟨fun t ht => ?_, htypes, hnone⟩
  obtain ⟨dims, hdims⟩ := h.exists_dims ht
  have hadmits := hadmits t ht
  rw [Session.dims, hdims, dimsOf_const] at hadmits
  exact ⟨dims, hdims, hadmits⟩

theorem sub_named [Width] : Tensor.binaryNamed? "sub" = some Tensor.sub := rfl

theorem sum_named [Width] : Tensor.reduceNamed? "sum" = some Tensor.sum := rfl

theorem built_centeredRows (lim : Limits) :
    @Session.Built .word64 (Movement.Plain lim) (@Session.Computed .word64) centeredRows :=
  let := Width.word64
  .call (.call (.call (.call (.call (.call .empty (.values _ _))
    (.move (by decide +kernel) trivial)) (.move (by decide +kernel) trivial))
    (.binary (by decide +kernel) (by decide +kernel) add_named))
    (.reduce _ _ _ (by decide +kernel) sum_named))
    (.binary (by decide +kernel) (by decide +kernel) sub_named)

/-- The sum of each row is one item and what is left of the rows another. -/
theorem Tensor.schedule_computes_centeredRows :
    @Limits.Exact .word64 ⟨6, 6⟩ ∧
    @Session.Built .word64 (Movement.Plain ⟨6, 6⟩) (@Session.Computed .word64) centeredRows ∧
    centeredRows.Plain ⟨6, 6⟩ ∧ (∀ t ∈ [6], t < centeredRows.nodes.size) ∧
    (∀ t ∈ centeredRows.pending [6], @Session.Defined .word64 centeredRows t) ∧
    ∃ result s', (@Tensor.schedule .word64 [6] {}).run.run centeredRows = (.ok result, s') ∧
      result.items.length = 2 ∧ ∃ m id, @Schedule.run .word64 result s'.memory = some m ∧
        m.values id = some [.int (-16), .int (-14), .int (-12), .int (-16), .int (-14), .int (-12)] := by
  have hdefined : ∀ t ∈ centeredRows.pending [6], @Session.Defined .word64 centeredRows t := by
    decide +kernel
  let := Width.word64
  have hexact : Limits.Exact ⟨6, 6⟩ := ⟨by decide, by decide, Width.exactTo_word64 (by decide)⟩
  have hbuilt := built_centeredRows ⟨6, 6⟩
  have hplain : centeredRows.Plain ⟨6, 6⟩ := Session.Concrete.plain (by decide +kernel)
    (by decide +kernel) (by decide +kernel) (by decide +kernel)
  have hts : ∀ t ∈ [6], t < centeredRows.nodes.size := by decide +kernel
  have hitems : ((Tensor.schedule [6] {}).run.run centeredRows).1.toOption.map (·.items.length)
      = some 2 := by decide +kernel
  have hvalues : (centeredRows.elements (centeredRows.base 6)).values
      = some [.int (-16), .int (-14), .int (-12), .int (-16), .int (-14), .int (-12)] := by
    decide +kernel
  refine ⟨hexact, hbuilt, hplain, hts, hdefined, ?_⟩
  obtain ⟨result, s', hrun, hitems⟩ := exists_of_toOption_map hitems
  obtain ⟨m, hm, hheld⟩ := Tensor.schedule_computes hexact hbuilt hplain hts hrun hdefined
  obtain ⟨id, -, values, hread, heq⟩ := hheld 6 (List.mem_singleton_self 6)
  rw [hvalues] at heq
  exact ⟨result, _, hrun, hitems, m, id, hm, hread.trans heq.symm⟩

end Rows

end LazyTensor

import LazyTensor.Proofs.Schedule.Fuse

/-!
# Kernels

A kernel that is built for a node puts the elements of the node into its output, whether it is
indexed in the shape of the node or in that of a reduction, and leaves all other buffers alone.
-/

namespace LazyTensor

namespace Fusion

variable [Width] {f : Fusion} {s : Session}

/-! ### The sink -/

theorem sink_ok {value : Tensor} {shape : Shape} {d d' : Draft} {u : Unit}
    (h : (f.sink value shape).run d = .ok (u, d')) :
    ∃ top x d₁ d₂ e j k, (Layout.ofShape (f.session.shape value)).reshape shape = .ok top ∧
      f.Fuses d (visit f.session value top false) x d₁ ∧ d₁.Notes d₂ ∧
      f.store.unbind.1.shape = (d₂.tree.node x).shape ∧
      d₂.tree.Adds
        ⟨.store 0 f.store.unbind.1 x, (d₂.tree.node x).dtype, (d₂.tree.node x).shape⟩ j e ∧
      e.Adds ⟨.sink [j], .void, []⟩ k d'.tree ∧ d' = { d₂ with tree := d'.tree } := by
  rw [sink] at h
  split at h
  next => cases h
  next top htop =>
    obtain ⟨x, d₁, hx, h⟩ := run_bind_ok h
    obtain ⟨free, d₂, hfree, h⟩ := run_bind_ok h
    obtain ⟨rfl, hnotes⟩ := unbind_ok hfree
    have hbuild : (building (do ExprM.sink [← ExprM.store 0 f.store.unbind.1 x])
        >>= fun _ => pure PUnit.unit).run d₂ = .ok (u, d') := h
    obtain ⟨k, d₃, hk, hpure⟩ := run_bind_ok hbuild
    obtain ⟨-, rfl⟩ := run_pure_ok hpure
    obtain ⟨tree, htree, rfl⟩ := building_ok hk
    obtain ⟨j, e, hstore, hsink⟩ := run_bind_ok htree
    obtain ⟨hshape, hadds⟩ := ExprM.store_ok hstore
    exact ⟨top, x, d₁, d₂, e, j, k, htop, fuse_ok hx, hnotes, hshape, hadds, ExprM.sink_ok hsink, rfl⟩

end Fusion

theorem Expr.stores_eq {e e' tree : Expr} {n : ExprNode} {j k : Nat}
    (hstore : e.Adds n j e') (hn : n.op.isStore = true)
    (hsink : e'.Adds ⟨.sink [j], .void, []⟩ k tree) (hlast : k + 1 = tree.size) :
    tree.stores = [j] := by
  have htop : tree.top = ⟨.sink [j], .void, []⟩ := by
    rw [top, root, ← hlast, Nat.add_sub_cancel]
    exact hsink.node_eq
  have hnode : tree.node j = n := Expr.node_of_getElem? (hsink.grows j n hstore.getElem?)
  simp only [stores, htop, List.filter_cons, hnode, hn, if_true, List.filter_nil]

section Sound

variable [Width] {s : Session} {lim : Limits} {m : Memory} {f : Fusion} {u : Unit} {value : Tensor}

theorem Draft.sound_empty {tree : Expr} {args : Nat → Int → Option Value} :
    ({} : Draft).Sound s tree args := by
  have hnone : ∀ (i : Nat) n, ({} : Draft).tree.nodes[i]? ≠ some n := by
    intro i n h
    cases h
  exact ⟨fun i n h => absurd h (hnone i n), fun i n h => absurd h (hnone i n), nofun⟩

theorem Fusion.sink_stores {d' : Draft} {dims : List Int} {n : Int} {shape : List Int}
    (hs : f.session.Sound lim) (hexact : lim.Exact) (hready : f.Ready m d'.deps)
    (hvalue : value < f.session.nodes.size) (hdims : lim.Admits dims)
    (hstore : f.store.Total n lim shape)
    (h : (f.sink value (dims.map .const)).run {} = .ok (u, d')) :
    ∃ j x, d'.tree.stores = [j] ∧ (d'.tree.node j).op = .store 0 f.store x ∧
      ∀ coords, InShape dims coords →
        (d'.tree.elements (m.slots (f.output :: d'.inputs)) x).get coords
          = (f.session.elements value).flat (ravel dims coords) := by
  obtain ⟨top, x, d₁, d₂, e, j, k, htop, hfuses, hnotes, -, hadds, hsink, hd'⟩ := sink_ok h
  rw [hstore.unbind_eq] at hadds
  have hwhole := (hs value hvalue).shape_eq
  rw [hwhole] at htop
  obtain ⟨hproduct, htotal, hindex⟩ :=
    Layout.reshape_ofShape hexact (hs value hvalue).admits hdims htop
  have hlater : d₁.Extends d' := by
    refine hnotes.extends.trans ⟨?_, ?_, hadds.grows.trans hsink.grows⟩
    · rw [hd']
    · intro t ht
      rw [hd']
      exact ht
  obtain ⟨hd₁, hx, hshows⟩ := hfuses.shows hs hexact hready hlater Draft.sound_empty
    (hs.visit hexact hvalue htotal false)
  have hnew : ∀ i : Nat, e.nodes[i]? ≠ some ⟨.sink [j], .void, []⟩ := by
    intro i hi
    rcases hadds.old_or_new i _ hi with hold | ⟨-, hn⟩
    · exact (hd₁.notes hnotes).not_sink i _ hold [j] rfl
    · cases hn
  have hnode := Expr.node_of_getElem? (hsink.grows j _ hadds.getElem?)
  refine ⟨j, x, Expr.stores_eq hadds rfl hsink (hsink.last hnew), by rw [hnode], ?_⟩
  intro coords hin
  have hshown := Shows.of_visit hs hexact hvalue htotal hshows
  refine hshown.get_eq coords _ ?_ (hindex coords hin)
  rw [htotal.shape_eq, dimsOf_const]
  exact hin

/-! ### Kernels -/

namespace Session

def blank (s : Session) (t : Tensor) : Buffer where
  device := .cpu
  dtype := s.dtype t
  size := (product (s.dims t)).toNat

def Defined (s : Session) (t : Tensor) : Prop :=
  ∀ position, 0 ≤ position → position < product (s.dims t) →
    ∃ v, (s.elements t).flat position = some v

variable {root : Tensor}

theorem Sound.storeTask_ok (hs : s.Sound lim) (hroot : root < s.nodes.size) {output : BufferId}
    {task : StoreTask} (h : s.storeTask root output = .ok task) :
    task.layout = .ofShape (s.shape root) ∧ task.overwrites = none ∧ task.value < s.nodes.size ∧
      ∀ position, (s.elements task.value).flat position = (s.elements root).flat position := by
  rcases Session.storeTask_ok h with ⟨target, value, hop, -⟩ | ⟨a, hop, rfl⟩ | ⟨-, -, rfl⟩
  · exact absurd hop (hs.op_ne_assign root target value)
  · have ha := hs.source_lt hroot hop (.head _)
    exact ⟨rfl, rfl, ha, fun position => (hs.flat_contiguous hroot position hop).symm⟩
  · exact ⟨rfl, rfl, hroot, fun position => rfl⟩

theorem Sound.exists_dims (hs : s.Sound lim) (hexact : lim.Exact) (hroot : root < s.nodes.size)
    (t : Tensor) : ∃ dims, s.shape t = dims.map .const ∧ lim.Admits dims := by
  by_cases ht : t < s.nodes.size
  · exact ⟨s.dims t, (hs t ht).shape_eq, (hs t ht).admits⟩
  · have hshape : s.shape t = [] := by
      rw [shape, node, Array.getD_eq_getD_getElem?, Array.getElem?_eq_none (Nat.le_of_not_lt ht)]
      rfl
    have hadmits := (hs root hroot).admits
    have hpos := product_pos hadmits.dims_pos
    have hle := hadmits.volume_le
    exact ⟨[], hshape, by simp, by rw [product_nil]; omega,
      hexact.extent_nonneg⟩

end Session

theorem Fusion.mem_deps_of_sink {d : Draft} {t : Tensor} {shape : Shape}
    (hs : f.session.Sound lim) (h : (f.sink value shape).run {} = .ok (u, d)) (ht : t ∈ d.deps) :
    t ≠ f.root ∧ ∃ id, f.storage.lookup t = some id := by
  obtain ⟨top, x, d₁, d₂, e, j, i, -, hfuses, hnotes, -, -, -, hd⟩ := sink_ok h
  have ht : t ∈ d₁.deps := by
    rw [hd] at ht
    exact hnotes.deps_eq ▸ ht
  rcases hfuses.mem_deps ht with hnone | ⟨hscheduled, v, id, l, rfl, hsource⟩
  · exact absurd hnone List.not_mem_nil
  rw [isScheduled, Bool.and_eq_true, Bool.and_eq_true, bne_iff_ne, Bool.not_eq_true',
    Session.isStored, Option.isSome_eq_false_iff, Option.isNone_iff_eq_none] at hscheduled
  refine ⟨hscheduled.1.1, id, ?_⟩
  obtain ⟨-, hstored | ⟨-, hlookup⟩⟩ := source_ok hs hsource
  · rw [hscheduled.2] at hstored
    cases hstored
  · exact hlookup

/-- A kernel that puts the elements of a tensor into a buffer, given that those of the tensors which
it depends on are in theirs. -/
structure FusedKernel.Computes (k : FusedKernel) (s : Session) (storage : List (Tensor × BufferId))
    (t : Tensor) (id : BufferId) : Prop where
  root_eq : k.root = t
  output_eq : k.item.output = id
  overwrites_eq : k.overwrites = none
  deps_stored : ∀ u ∈ k.deps, u ≠ t ∧ ∃ other, storage.lookup u = some other
  exists_run : ∀ m : Memory, s.Retains m →
    (∀ u other, u ∈ k.deps → storage.lookup u = some other → s.HeldIn u m other) →
    m.get? id = some (s.blank t) → s.Defined t →
      ∃ m', k.item.run m = some m' ∧ s.HeldIn t m' id ∧
        ∀ other, other ≠ id → m'.get? other = m.get? other

theorem Session.Sound.buildKernel_computes (hs : s.Sound lim) (hexact : lim.Exact) {root : Tensor}
    (hroot : root < s.nodes.size) {p : Session.Partition} {maxViews : Nat} {k : FusedKernel}
    (h : s.buildKernel p maxViews root = .ok k) :
    ∃ id, p.storage.lookup root = some id ∧ k.Computes s p.storage root id := by
  obtain ⟨output, task, store, t, rescoped, u, d, houtput, htask, hstore, hsink, rfl, -⟩ :=
    Session.buildKernel_ok h
  obtain ⟨hlayout, hoverwrites, hvalue, hflat⟩ := hs.storeTask_ok hroot htask
  refine ⟨output, houtput, rfl, rfl, hoverwrites, fun u hu => Fusion.mem_deps_of_sink hs hsink hu, ?_⟩
  · intro m hretains hdeps hblank hdefined
    obtain ⟨dims, hshape, hdims⟩ := hs.exists_dims hexact hroot t
    have hnode := hs root hroot
    rw [hlayout, hnode.shape_eq, hshape] at hstore
    rw [hshape] at hsink
    obtain ⟨hproduct, htotal, hindex⟩ := Layout.reshape_ofShape hexact hnode.admits hdims hstore
    have hready : (s.fusion p maxViews root output store rescoped).Ready m d.deps :=
      ⟨hretains, hdeps⟩
    obtain ⟨j, x, hstores, hop, hget⟩ :=
      Fusion.sink_stores hs hexact hready hvalue hdims htotal hsink
    obtain ⟨type, htype⟩ := hnode.plain.exists_scalar
    have hflatSome : ∀ k < (product dims).toNat, (s.elements root).flat k
        = some (((s.elements root).flat k).getD default) := by
      intro k hk
      obtain ⟨v, hv⟩ := hdefined k (Int.natCast_nonneg k) (by omega)
      rw [hv, Option.getD_some]
    obtain ⟨m', b', hrun, hb', hfilled, hsize, hheld, hothers⟩ :=
      ScheduleItem.exists_run (i := (Session.kernelOf root output task d).item) (b := s.blank root)
        (fun k => ((s.elements root).flat k).getD default) hstores hop
        ((congrArg dimsOf htotal.shape_eq).trans (dimsOf_const dims)) hdims.dims_pos hindex
        (by
          intro k hk
          refine (hget _ (inShape_unravel hdims.dims_pos k)).trans ?_
          rw [ravel_unravel hdims.dims_nonneg (Int.natCast_nonneg k) (by omega)]
          exact (hflat k).trans (hflatSome k hk))
        (by
          intro k hk
          rw [← htype]
          refine hs.hasType hexact hroot (inShape_unravel hnode.admits.dims_pos k) ?_
          rw [← hs.elements_flat hroot]
          exact hflatSome k hk)
        (htype ▸ hnode.plain) hblank htype rfl rfl (by rw [hproduct]; rfl)
    refine ⟨m', hrun, ⟨b', type, hb', hfilled, htype, ?_, ?_⟩, hothers⟩
    · have hpos := product_pos hnode.admits.dims_pos
      rw [hsize]
      exact Int.toNat_of_nonneg hpos.le
    · intro position hlow hhigh
      obtain ⟨k, rfl⟩ := Int.eq_ofNat_of_zero_le hlow
      have hk : k < (product dims).toNat := by omega
      exact (hheld k hk).trans (hflatSome k hk).symm

end Sound

end LazyTensor

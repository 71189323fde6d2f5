import LazyTensor.Proofs.Schedule.Interface

/-!
# Names of variables in kernels

A kernel whose layouts agree on each name gets the values under these names; one whose layouts do not
is refused.
-/

namespace LazyTensor

namespace Fusion

/-! ### The layouts in a tree -/

section Trees

variable [Width] {f : Fusion} {d d₁ d' : Draft} {v : Visit} {i : Nat} {tree : Expr} {n : ExprNode}

/-- The layouts in the tree are those of the leaves without their values. -/
def Sees (f : Fusion) (d : Draft) : Prop :=
  ∀ n ∈ d.tree.nodes, ∀ free, n.op.layout? = some free → ∃ l ∈ f.leaves d, l.unbind.1 = free

theorem Sees.place (h : f.Sees d) (htree : d₁.tree = d.tree) (hvisited : d₁.visited = d.visited)
    (hadds : d₁.tree.Adds n i tree)
    (hn : ∀ free, n.op.layout? = some free → ∃ l, f.leaf? v = some l ∧ l.unbind.1 = free) :
    f.Sees (d₁.place v i tree) := by
  intro m hm free hfree
  rcases hadds.mem_nodes.mp hm with hm | rfl
  · obtain ⟨l, hl, hfree⟩ := h m (htree ▸ hm) free hfree
    obtain ⟨p, hp, hleaf⟩ := List.mem_filterMap.mp hl
    exact ⟨l, List.mem_filterMap.mpr ⟨p, List.mem_cons_of_mem _ (hvisited ▸ hp), hleaf⟩, hfree⟩
  · obtain ⟨l, hleaf, hfree⟩ := hn free hfree
    exact ⟨l, List.mem_filterMap.mpr ⟨_, List.mem_cons_self, hleaf⟩, hfree⟩

theorem Sees.place_inner (h : f.Sees d) (hadds : d.tree.Adds n i tree) (hn : n.op.layout? = none) :
    f.Sees (d.place v i tree) := by
  refine h.place rfl rfl hadds fun free hfree => ?_
  rw [hn] at hfree
  cases hfree

theorem Fuses.sees (h : f.Fuses d v i d') (hd : f.Sees d) : f.Sees d' := by
  induction h with
  | known _ => exact hd
  | @const d d₁ v i tree value hop hnotes hadds =>
    refine hd.place hnotes.tree_eq hnotes.visited_eq hadds fun free hfree => ⟨v.layout, ?_, ?_⟩
    · rw [leaf?, hop]
      rfl
    · exact Option.some.inj hfree
  | @load d d₁ v i slot tree id l hloaded hsource htakes hclear hadds =>
    refine hd.place (htakes.tree_eq.trans (noteLoad_tree ..))
      (htakes.visited_eq.trans (noteLoad_visited ..)) hadds fun free hfree =>
        ⟨l, leaf?_of_source hloaded hsource, ?_⟩
    exact Option.some.inj hfree
  | unary _ _ hadds ih | cast _ _ hadds ih => exact (ih hd).place_inner hadds rfl
  | binary _ _ _ _ hadds iha ihb => exact (ihb (iha hd)).place_inner hadds rfl
  | ternary _ _ _ _ _ hadds iha ihb ihc => exact (ihc (ihb (iha hd))).place_inner hadds rfl
  | reduce _ _ _ hnotes _ hadds ih =>
    refine (ih fun m hm free hfree => ?_).place_inner hadds rfl
    obtain ⟨l, hl, hfree⟩ := hd m (hnotes.tree_eq ▸ hm) free hfree
    refine ⟨l, ?_, hfree⟩
    rw [leaves, hnotes.visited_eq]
    exact hl

theorem layouts_of_sink {value : Tensor} {shape : Shape} {u : Unit}
    (h : (f.sink value shape).run {} = .ok (u, d)) (hn : n ∈ d.tree.nodes) {free : Layout}
    (hfree : n.op.layout? = some free) : ∃ l ∈ f.layouts d, l.unbind.1 = free := by
  obtain ⟨top, x, d₁, d₂, e, j, k, -, hfuses, hnotes, -, hadds, hsink, hd⟩ := sink_ok h
  have hsees : f.Sees d₁ := hfuses.sees fun m hm => absurd hm (Array.not_mem_empty m)
  rcases hsink.mem_nodes.mp hn with hn | rfl
  · rcases hadds.mem_nodes.mp hn with hn | rfl
    · rw [hnotes.tree_eq] at hn
      obtain ⟨l, hl, hfree⟩ := hsees n hn free hfree
      refine ⟨l, List.mem_cons_of_mem _ ?_, hfree⟩
      rw [leaves, hd, hnotes.visited_eq]
      exact hl
    · exact ⟨f.store, List.mem_cons_self, Option.some.inj hfree⟩
  · cases hfree

end Trees

/-! ### Kernels without names -/

section Drafts

variable [Width] {f : Fusion} {value : Tensor} {shape : Shape} {d : Draft}

theorem Drafts.run_sink (h : f.Drafts value shape d) :
    (∃ vars, (f.sink value shape).run {} = .ok ((), { d with vars }) ∧
      ∀ l ∈ f.layouts d, ∀ b ∈ l.unbind.2, vars.lookup b.1.name = some b.2) ∨
    ∃ e, IsConflict e ∧ (f.sink value shape).run {} = .error (.fail e) := by
  obtain ⟨ls, hsplits, hlayouts⟩ := h
  have hrun := hsplits []
  cases hnote : noteAll [] ls with
  | ok vars =>
    rw [hnote] at hrun
    exact .inl ⟨vars, hrun, fun l hl b hb => lookup_of_noteAll hnote ((hlayouts l).mp hl) hb⟩
  | error e =>
    rw [hnote] at hrun
    exact .inr ⟨e, noteAll_error hnote, hrun⟩

/-- Two layouts that bind each variable once bind one name to different values. -/
def Clash (f : Fusion) (d : Draft) : Prop :=
  ∃ l ∈ f.layouts d, ∃ l' ∈ f.layouts d, l.Univalent ∧ l'.Univalent ∧
    ∃ v ∈ l.vars, ∃ w ∈ l'.vars, v.name = w.name ∧
      ∃ x y, v.value = some x ∧ w.value = some y ∧ x ≠ y

end Drafts

end Fusion

section Kernels

variable [Width] {s : Session} {p : Session.Partition} {maxViews : Nat} {root : Tensor} {f : Fusion}
  {d : Draft}

namespace Session

theorem buildKernelIn_of_drafts {output : BufferId} {task : StoreTask} {shape : Shape} {store : Layout}
    {rescoped : Bool} (hstore : task.layout.reshape shape = .ok store)
    (hdrafts : (s.fusion p maxViews root output store rescoped).Drafts task.value shape d) :
    (∃ k, s.buildKernelIn p maxViews root output task shape rescoped = .ok k ∧
      ∀ l ∈ (s.fusion p maxViews root output store rescoped).layouts d, ∀ b ∈ l.unbind.2,
        k.item.vars.lookup b.1.name = some b.2) ∨
    ∃ e, Fusion.IsConflict e ∧
      s.buildKernelIn p maxViews root output task shape rescoped = .error (.fail e) := by
  rw [buildKernelIn_eq hstore]
  rcases hdrafts.run_sink with ⟨vars, hrun, hvars⟩ | ⟨e, he, hrun⟩
  · rw [hrun]
    exact .inl ⟨_, rfl, hvars⟩
  · rw [hrun]
    exact .inr ⟨e, he, rfl⟩

/-- A kernel that can be drafted is built with all values under their names, or two of them
contradict each other. -/
theorem Drafted.buildKernel (h : s.Drafted p maxViews root f d) :
    (∃ k, s.buildKernel p maxViews root = .ok k ∧
      ∀ l ∈ f.layouts d, ∀ b ∈ l.unbind.2, k.item.vars.lookup b.1.name = some b.2) ∨
    ∃ e, Fusion.IsConflict e ∧ s.buildKernel p maxViews root = .error (.fail e) := by
  cases h with
  | whole houtput htask hstore hdrafts =>
    rw [Session.buildKernel, houtput]
    dsimp only
    rw [htask]
    dsimp only
    rcases buildKernelIn_of_drafts hstore hdrafts with ⟨k, hk, hvars⟩ | ⟨e, he, hk⟩
    · rw [hk]
      exact .inl ⟨k, rfl, hvars⟩
    · rw [hk]
      exact .inr ⟨e, he, rfl⟩
  | @rescoped output task first store t shape ls d houtput htask hfirst hsplits hstore hdrafts =>
    rw [Session.buildKernel, houtput]
    dsimp only
    rw [htask]
    dsimp only
    rw [buildKernelIn_eq hfirst]
    have hstop := hsplits []
    cases hnote : Fusion.noteAll [] ls with
    | error e =>
      -- Names contradict each other before the reduction is met.
      rw [hnote] at hstop
      rw [hstop]
      exact .inr ⟨e, Fusion.noteAll_error hnote, rfl⟩
    | ok vars =>
      rw [hnote] at hstop
      rw [hstop]
      dsimp only [Except.map]
      rw [hstore]
      exact buildKernelIn_of_drafts hstore hdrafts

end Session

theorem Session.Drafted.conflict (h : s.Drafted p maxViews root f d) (hclash : f.Clash d) :
    ∃ e, Fusion.IsConflict e ∧ s.buildKernel p maxViews root = .error (.fail e) := by
  rcases h.buildKernel with ⟨k, -, hvars⟩ | hconflict
  · obtain ⟨l, hl, l', hl', hone, hone', v, hv, w, hw, hname, x, y, hx, hy, hne⟩ := hclash
    have hfirst : k.item.vars.lookup v.name = some x :=
      hvars l hl (v.unbound, x) (hone.mem_unbind_iff.mpr ⟨v, hv, rfl, hx⟩)
    have hsecond : k.item.vars.lookup w.name = some y :=
      hvars l' hl' (w.unbound, y) (hone'.mem_unbind_iff.mpr ⟨w, hw, rfl, hy⟩)
    rw [hname, hsecond] at hfirst
    exact absurd (Option.some.inj hfirst).symm hne
  · exact hconflict

end Kernels

/-! ### Schedules -/

section Schedules

variable [Width] {s : Session} {ts : List Tensor}

namespace Tensor

variable {p : Session.Partition} {config : ScheduleConfig} {s' : Session}

theorem RoundsEnd.unique {maxViews : Nat} {order : List Tensor} {p₁ p₂ : Session.Partition}
    {s₁ s₂ : Session} (h₁ : RoundsEnd maxViews order p s p₁ s₁)
    (h₂ : RoundsEnd maxViews order p s p₂ s₂) : p₁ = p₂ ∧ s₁ = s₂ := by
  induction h₁ with
  | last hprovide hlast =>
    cases h₂ with
    | last hprovide' _ =>
      cases hprovide.symm.trans hprovide'
      exact ⟨rfl, rfl⟩
    | next hprovide' hnext _ =>
      cases hprovide.symm.trans hprovide'
      exact absurd hnext (hlast _)
  | next hprovide hnext _ ih =>
    cases h₂ with
    | last hprovide' hlast =>
      cases hprovide.symm.trans hprovide'
      exact absurd hnext (hlast _)
    | next hprovide' hnext' hrest =>
      cases hprovide.symm.trans hprovide'
      cases hnext.symm.trans hnext'
      exact ih hrest

theorem schedule_of_buildKernels_error {e : TensorError}
    (h : (buildKernels config.maxViews (s.pending ts) ((s.pending ts).length + 1) (s.startAlone
      ts)).run.run s = (.error e, s')) : (schedule ts config).run.run s = (.error e, s') := by
  rw [Session.startAlone] at h
  rw [schedule, TensorM.run_get_bind]
  dsimp only
  rw [TensorM.run_bind, h]

theorem vars_of_schedule {result : Schedule} (hs : s.Coherent) (hts : ∀ t ∈ ts, t < s.nodes.size)
    (hrun : (schedule ts config).run.run s = (.ok result, s')) {item : ScheduleItem}
    (hitem : item ∈ result.items) :
    ∃ p f d, RoundsEnd config.maxViews (s.pending ts) (s.startAlone ts) s p s' ∧
      s'.Drafted p config.maxViews item.root f d ∧ item.tree = d.tree ∧
      (∀ n ∈ item.tree.nodes, ∀ free, n.op.layout? = some free →
        ∃ l ∈ f.layouts d, l.unbind.1 = free) ∧
      ∀ l ∈ f.layouts d, ∀ b ∈ l.unbind.2, item.vars.lookup b.1.name = some b.2 := by
  obtain ⟨p, kernels, ordered, k, h, hk, rfl⟩ := of_item hs hts hrun hitem
  obtain ⟨hpending, hbuild⟩ := h.buildKernel_eq hk
  obtain ⟨output, task, store, t, rescoped, u, d, -, -, -, hsink, hkernel, hdrafted⟩ :=
    Session.buildKernel_ok hbuild
  have htree : k.item.tree = d.tree := congrArg (·.item.tree) hkernel
  generalize s'.fusion p config.maxViews k.root output store rescoped = f at hsink hdrafted
  have hvars : ∀ l ∈ f.layouts d, ∀ b ∈ l.unbind.2, k.item.vars.lookup b.1.name = some b.2 := by
    rcases hdrafted.buildKernel with ⟨k', hbuild', hvars⟩ | ⟨e, -, hconflict⟩
    · cases hbuild.symm.trans hbuild'
      exact hvars
    · cases hbuild.symm.trans hconflict
  obtain ⟨p', s'', hrounds, -, -, -, houtcome⟩ := exists_roundsEnd hs (hs.toCompute_pending hts)
    s.covers_true config.maxViews (s.rounds_start ts)
  have houtcome := houtcome _ (unrealized_lt_succ _ _)
  have hlast : p' = p ∧ s'' = s' := by
    split at houtcome
    next =>
      cases h.built.symm.trans houtcome
      exact ⟨rfl, rfl⟩
    next =>
      obtain ⟨e, -, -, houtcome⟩ := houtcome
      cases h.built.symm.trans houtcome
  rw [hlast.1, hlast.2] at hrounds
  refine ⟨p, f, d, hrounds, hdrafted, htree, fun n hn free hfree => ?_, hvars⟩
  rw [htree] at hn
  exact Fusion.layouts_of_sink hsink hn hfree

theorem schedule_conflict (hs : s.Coherent) (hts : ∀ t ∈ ts, t < s.nodes.size)
    (hend : RoundsEnd config.maxViews (s.pending ts) (s.startAlone ts) s p s') {root : Tensor}
    (hroot : root ∈ (s.pending ts).filter p.realize.contains) {f : Fusion} {d : Draft}
    (hdrafted : s'.Drafted p config.maxViews root f d) (hclash : f.Clash d) :
    ∃ e, ((schedule ts config).run.run s).1 = .error e ∧
      ((∀ t ∈ (s.pending ts).filter p.realize.contains, ∃ f d, s'.Drafted p config.maxViews t f d) →
        Fusion.IsConflict e) := by
  obtain ⟨p', s'', hrounds, -, -, -, houtcome⟩ := exists_roundsEnd hs (hs.toCompute_pending hts)
    s.covers_true config.maxViews (s.rounds_start ts)
  have houtcome := houtcome _ (unrealized_lt_succ _ _)
  obtain ⟨rfl, rfl⟩ := hrounds.unique hend
  obtain ⟨e, -, hconflict⟩ := hdrafted.conflict hclash
  cases hresult : ((s.pending ts).filter p'.realize.contains).mapM
      (s''.buildKernel p' config.maxViews) with
  | ok kernels =>
    obtain ⟨k, -, hk⟩ := (exists_of_mapM_ok hresult).1 root hroot
    cases hconflict.symm.trans hk
  | error stop =>
    rw [hresult] at houtcome
    obtain ⟨e, rfl, -, hbuilt⟩ := houtcome
    refine ⟨e, by rw [schedule_of_buildKernels_error hbuilt], fun hall => ?_⟩
    obtain ⟨t, ht, hstop⟩ := exists_of_mapM_error hresult
    obtain ⟨f', d', hdrafted'⟩ := hall t ht
    rcases hdrafted'.buildKernel with ⟨k, hk, -⟩ | ⟨e', he', hconflict⟩
    · cases hk.symm.trans hstop
    · cases hconflict.symm.trans hstop
      exact he'

/-- One name has one value in a kernel, as far as each layout binds a variable once. An item of a
schedule has the values of all layouts that went into it under their names, and every layout in its
tree is one of them. Where the layouts of a kernel in the last round contradict each other, there is
no schedule; the failure tells of a name with two values, unless another kernel of that round cannot
be drafted either. -/
theorem schedule_values_by_name (hs : s.Reached) (hts : ∀ t ∈ ts, t < s.nodes.size)
    (config : ScheduleConfig) :
    (∀ result s', (schedule ts config).run.run s = (.ok result, s') → ∀ item ∈ result.items,
      ∃ p f d, RoundsEnd config.maxViews (s.pending ts) (s.startAlone ts) s p s' ∧
        s'.Drafted p config.maxViews item.root f d ∧ item.tree = d.tree ∧
        (∀ n ∈ item.tree.nodes, ∀ free, n.op.layout? = some free →
          ∃ l ∈ f.layouts d, l.unbind.1 = free) ∧
        ∀ l ∈ f.layouts d, l.Univalent → ∀ v ∈ l.vars, ∀ x, v.value = some x →
          item.vars.lookup v.name = some x) ∧
    ∃ p s', RoundsEnd config.maxViews (s.pending ts) (s.startAlone ts) s p s' ∧
      ((∃ root ∈ (s.pending ts).filter p.realize.contains, ∃ f d,
          s'.Drafted p config.maxViews root f d ∧ f.Clash d) →
        ∃ e, ((schedule ts config).run.run s).1 = .error e ∧
          ((∀ t ∈ (s.pending ts).filter p.realize.contains, ∃ f d,
              s'.Drafted p config.maxViews t f d) →
            ∃ name first second, first ≠ second ∧ e = .conflictingBinding name first second)) := by
  have hcoherent := hs.proper.coherent
  constructor
  · intro result s' hrun item hitem
    obtain ⟨p, f, d, hend, hdrafted, htree, hlayouts, hvars⟩ :=
      vars_of_schedule hcoherent hts hrun hitem
    refine ⟨p, f, d, hend, hdrafted, htree, hlayouts, fun l hl hone v hv x hx => ?_⟩
    exact hvars l hl (v.unbound, x) (hone.mem_unbind_iff.mpr ⟨v, hv, rfl, hx⟩)
  · obtain ⟨p, s', hend, -⟩ := exists_roundsEnd hcoherent (hcoherent.toCompute_pending hts)
      s.covers_true config.maxViews (s.rounds_start ts)
    refine ⟨p, s', hend, ?_⟩
    rintro ⟨root, hroot, f, d, hdrafted, hclash⟩
    exact schedule_conflict hcoherent hts hend hroot hdrafted hclash

end Tensor

end Schedules

/-- Windows at one place agree, so the sum of what they show is one item, with their value. -/
theorem Tensor.schedule_values_by_name_twoWindows :
    @Session.Reached .word64 (twoWindows 2 2) ∧ (∀ t ∈ [3], t < (twoWindows 2 2).nodes.size) ∧
      ∃ result s', (@Tensor.schedule .word64 [3] {}).run.run (twoWindows 2 2) = (.ok result, s') ∧
        result.items.map (·.vars) = [[("i", 2)]] ∧ ∀ item ∈ result.items, ∃ f d,
          item.tree = d.tree ∧ ∀ l ∈ @Fusion.layouts .word64 f d, l.Univalent → ∀ v ∈ l.vars, ∀ x,
            v.value = some x → item.vars.lookup v.name = some x := by
  let := Width.word64
  have hreached : (twoWindows 2 2).Reached :=
    .call (.call (.call (.call .empty (.values _ _)) (.move (by decide +kernel) trivial))
      (.move (by decide +kernel) trivial)) (.binary (by decide +kernel) (by decide +kernel) add_named)
  have hts : ∀ t ∈ [3], t < (twoWindows 2 2).nodes.size := by decide +kernel
  have hvars : (((Tensor.schedule [3] {}).run.run (twoWindows 2 2)).1.toOption.map fun result =>
      result.items.map (·.vars)) = some [[("i", 2)]] := by decide +kernel
  refine ⟨hreached, hts, ?_⟩
  obtain ⟨result, s', hrun, hvars⟩ := exists_of_toOption_map hvars
  refine ⟨result, _, hrun, hvars, fun item hitem => ?_⟩
  obtain ⟨p, f, d, -, -, htree, -, hvalues⟩ :=
    (Tensor.schedule_values_by_name hreached hts {}).1 result _ hrun item hitem
  exact ⟨f, d, htree, hvalues⟩

end LazyTensor

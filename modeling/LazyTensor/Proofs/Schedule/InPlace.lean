import LazyTensor.Proofs.Denotation.Sweep
import LazyTensor.Proofs.Schedule.Interface

/-!
# Kernels that overwrite what they read

A kernel may read the buffer that it writes through the layout in which it writes it, and through no
other. So an iteration reads no element of its output but the one that it stores. Two iterations may
store the same element where the target of an assignment shows it more than once; where none does,
the kernel can work in place, in any order.
-/

namespace LazyTensor

/-! ### Values for variables -/

section Sizes

variable (g : SymInt → SymInt)

def View.mapSizes (v : View) : View :=
  { v with
    shape := v.shape.map g
    strides := v.strides.map g
    offset := g v.offset
    mask := v.mask.map fun m => m.map fun r => (g r.1, g r.2) }

def Layout.mapSizes (l : Layout) : Layout := ⟨l.top.mapSizes g, l.below.map (View.mapSizes g)⟩

def ExprOp.mapSizes : ExprOp → ExprOp
  | load slot l => load slot (l.mapSizes g)
  | const v l => const v (l.mapSizes g)
  | store slot l a => store slot (l.mapSizes g) a
  | op => op

def ExprNode.mapSizes (n : ExprNode) : ExprNode := ⟨n.op.mapSizes g, n.dtype, n.shape.map g⟩

def Expr.mapSizes (e : Expr) : Expr := ⟨e.nodes.map (ExprNode.mapSizes g)⟩

/-- An item with the values that it is launched with put in for its variables. -/
def ScheduleItem.filled [Width] (i : ScheduleItem) : ScheduleItem :=
  { i with tree := i.tree.mapSizes fun x => x.subst fun v => i.vars.lookup v.name }

variable {g} {e : Expr}

@[simp]
theorem ExprOp.sources_mapSizes (op : ExprOp) : (op.mapSizes g).sources = op.sources := by
  cases op <;> rfl

@[simp]
theorem ExprOp.isStore_mapSizes (op : ExprOp) : (op.mapSizes g).isStore = op.isStore := by
  cases op <;> rfl

namespace Expr

variable {e : Expr} {store : Layout}

@[simp]
theorem size_mapSizes : (e.mapSizes g).size = e.size := Array.size_map

@[simp]
theorem node_mapSizes (i : Nat) : (e.mapSizes g).node i = (e.node i).mapSizes g := by
  simp only [node, mapSizes, Array.getD_eq_getD_getElem?, Array.getElem?_map]
  cases e.nodes[i]? <;> rfl

theorem stores_mapSizes : (e.mapSizes g).stores = e.stores := by
  have htop : (e.mapSizes g).top.op = e.top.op.mapSizes g := by
    rw [top, root, size_mapSizes, node_mapSizes]
    rfl
  have hstore : ∀ i, ((e.mapSizes g).node i).op.isStore = (e.node i).op.isStore := by
    intro i
    rw [node_mapSizes]
    exact ExprOp.isStore_mapSizes _
  rw [stores, htop, stores]
  cases e.top.op with
  | sink parts => simp only [ExprOp.mapSizes, hstore]
  | store slot l a => simp only [ExprOp.mapSizes, root, size_mapSizes]
  | _ => rfl

end Expr

theorem ExprNode.Sized.mapSizes {n : ExprNode} (h : n.Sized e) (hone : g 1 = 1) :
    (n.mapSizes g).Sized (e.mapSizes g) := by
  have hshape : ∀ a, ((e.mapSizes g).node a).shape = (e.node a).shape.map g := by
    intro a
    rw [Expr.node_mapSizes]
    rfl
  obtain ⟨op, t, shape⟩ := n
  cases op with
  | load | const => exact congrArg (List.map g) h
  | reduce op axes a =>
    have hreduced : shape = Expr.reducedShape (e.node a).shape axes := h
    show shape.map g = Expr.reducedShape ((e.mapSizes g).node a).shape axes
    rw [hshape, Expr.reducedShape_map hone, hreduced]
  | store slot l a =>
    exact ⟨congrArg (List.map g) h.1, (hshape a).trans (congrArg (List.map g) h.2)⟩
  | sink parts => trivial
  | _ => exact fun a ha => (hshape a).trans (congrArg (List.map g) (h a ha))

theorem Expr.Aligned.mapSizes {store : Layout} (h : e.Aligned store) (hone : g 1 = 1) :
    (e.mapSizes g).Aligned (store.mapSizes g) := by
  refine ⟨fun i n hi => ?_, fun n hn => ?_, fun n hn l hop => ?_⟩
  · rw [Expr.mapSizes, Array.getElem?_map] at hi
    obtain ⟨n', hi', rfl⟩ := Option.map_eq_some_iff.mp hi
    rw [ExprNode.mapSizes, ExprOp.sources_mapSizes]
    exact h.ordered i n' hi'
  · obtain ⟨n', hn', rfl⟩ := Array.mem_map.mp hn
    exact (h.sized n' hn').mapSizes hone
  · obtain ⟨n', hn', rfl⟩ := Array.mem_map.mp hn
    rw [ExprNode.mapSizes] at hop
    cases hop' : n'.op with
    | load slot l' =>
      rw [hop'] at hop
      obtain ⟨rfl, rfl⟩ := ExprOp.load.inj hop
      rw [h.loads n' hn' l' hop']
    | _ =>
      rw [hop'] at hop
      cases hop

end Sizes

/-! ### Drafts -/

section Adding

variable {e e' : Expr} {n : ExprNode} {i : Nat} {store : Layout}

theorem ExprNode.Sized.grows (h : n.Sized e) (hgrows : e.Grows e')
    (hsources : ∀ a ∈ n.op.sources, a < e.size) : n.Sized e' := by
  have hnode : ∀ a ∈ n.op.sources, e'.node a = e.node a := fun a ha => hgrows.node_eq (hsources a ha)
  obtain ⟨op, t, shape⟩ := n
  cases op with
  | load | const | sink => exact h
  | reduce op axes a =>
    show shape = Expr.reducedShape (e'.node a).shape axes
    rw [hnode a (List.mem_singleton_self a)]
    exact h
  | store slot l a =>
    refine ⟨h.1, ?_⟩
    rw [hnode a (List.mem_singleton_self a)]
    exact h.2
  | _ =>
    intro a ha
    rw [hnode a ha]
    exact h a ha

theorem Expr.aligned_empty : ({} : Expr).Aligned store := by
  have hnone : ∀ n, n ∉ ({} : Expr).nodes := fun n => Array.not_mem_empty n
  refine ⟨fun i n hi => ?_, fun n hn => absurd hn (hnone n), fun n hn => absurd hn (hnone n)⟩
  cases hi

theorem Expr.Aligned.adds (h : e.Aligned store) (hadds : e.Adds n i e')
    (hsources : ∀ a ∈ n.op.sources, a < e.size) (hsized : n.Sized e)
    (hload : ∀ l, n.op = .load 0 l → l = store) : e'.Aligned store := by
  refine ⟨hadds.ordered h.ordered hsources, fun m hm => ?_, fun m hm => ?_⟩
  · rcases hadds.mem_nodes.mp hm with hold | rfl
    · obtain ⟨k, hk⟩ := Array.mem_iff_getElem?.mp hold
      refine (h.sized m hold).grows hadds.grows fun a ha => ?_
      exact (h.ordered k m hk a ha).trans (lt_size_of_getElem? hk)
    · exact hsized.grows hadds.grows hsources
  · rcases hadds.mem_nodes.mp hm with hold | rfl
    · exact h.loads m hold
    · exact hload

end Adding

namespace Fusion

variable [Width] {f : Fusion} {d d' d₁ : Draft} {v : Visit} {i x : Nat} {n : ExprNode} {tree : Expr}

/-- The tree of a draft reads the output as it will be written, and holds all that was visited. -/
structure Aligns (f : Fusion) (d : Draft) : Prop extends d.tree.Aligned f.store.unbind.1 where
  visited : ∀ v i, (v, i) ∈ d.visited → i < d.tree.size

theorem Aligns.congr (h : f.Aligns d) (htree : d'.tree = d.tree) (hvisited : d'.visited = d.visited) :
    f.Aligns d' := by
  obtain ⟨haligned, hplaces⟩ := h
  rw [← htree] at haligned hplaces
  rw [← hvisited] at hplaces
  exact ⟨haligned, hplaces⟩

theorem Aligns.place (h : f.Aligns d) (hadds : d.tree.Adds n i tree)
    (hsources : ∀ a ∈ n.op.sources, a < d.tree.size) (hsized : n.Sized d.tree)
    (hload : ∀ l, n.op = .load 0 l → l = f.store.unbind.1) : f.Aligns (d.place v i tree) := by
  refine ⟨h.toAligned.adds hadds hsources hsized hload, fun w k hw => ?_⟩
  rcases List.mem_cons.mp hw with heq | hw
  · cases heq
    exact hadds.lt_size
  · exact hadds.grows.lt_size (h.visited w k hw)

theorem Fuses.lt_size (h : f.Fuses d v i d') (hd : f.Aligns d') : i < d'.tree.size :=
  hd.visited v i h.mem_visited

theorem Fuses.aligns (h : f.Fuses d v i d') (hd : f.Aligns d) : f.Aligns d' := by
  induction h with
  | known _ => exact hd
  | const _ hnotes hadds =>
    exact (hd.congr hnotes.tree_eq hnotes.visited_eq).place hadds nofun rfl nofun
  | @load d d₁ v i slot tree id l _ _ htakes hclear hadds =>
    have htree : d₁.tree = d.tree := htakes.tree_eq.trans (noteLoad_tree ..)
    have hvisited : d₁.visited = d.visited := htakes.visited_eq.trans (noteLoad_visited ..)
    refine (hd.congr htree hvisited).place hadds nofun rfl fun l' hl' => ?_
    -- The slot 0 is that of the output, which is read as it is written.
    obtain ⟨rfl, rfl⟩ := ExprOp.load.inj hl'
    rw [hclear (Option.some.inj htakes.slot_eq).symm]
  | unary _ hx hadds ih | cast _ hx hadds ih =>
    have hd₁ := ih hd
    exact hd₁.place hadds (List.forall_mem_singleton.mpr (hx.lt_size hd₁))
      (List.forall_mem_singleton.mpr rfl) nofun
  | binary _ hx hy hshape hadds iha ihb =>
    have hd₁ := iha hd
    have hd₂ := ihb hd₁
    refine hd₂.place hadds (List.forall_mem_cons.mpr ⟨?_, List.forall_mem_singleton.mpr ?_⟩)
      (List.forall_mem_cons.mpr ⟨rfl, List.forall_mem_singleton.mpr hshape⟩) nofun
    · exact hy.extends.tree.lt_size (hx.lt_size hd₁)
    · exact hy.lt_size hd₂
  | ternary _ hx hy hz hshapes hadds iha ihb ihc =>
    have hd₁ := iha hd
    have hd₂ := ihb hd₁
    have hd₃ := ihc hd₂
    refine hd₃.place hadds
      (List.forall_mem_cons.mpr ⟨?_, List.forall_mem_cons.mpr ⟨?_, List.forall_mem_singleton.mpr ?_⟩⟩)
      (List.forall_mem_cons.mpr ⟨rfl, List.forall_mem_cons.mpr
        ⟨hshapes.1, List.forall_mem_singleton.mpr hshapes.2⟩⟩) nofun
    · exact (hy.extends.trans hz.extends).tree.lt_size (hx.lt_size hd₁)
    · exact hz.extends.tree.lt_size (hy.lt_size hd₂)
    · exact hz.lt_size hd₃
  | reduce _ _ _ hnotes hx hadds ih =>
    have hd₁ := ih (hd.congr hnotes.tree_eq hnotes.visited_eq)
    exact hd₁.place hadds (List.forall_mem_singleton.mpr (hx.lt_size hd₁)) rfl nofun

theorem exists_aligned_sink {value : Tensor} {shape : Shape} {u : Unit}
    (h : (f.sink value shape).run {} = .ok (u, d)) :
    d.tree.Aligned f.store.unbind.1 ∧
      ∃ (j : Nat) (n : ExprNode) (x : Nat), d.tree.nodes[j]? = some n ∧ n.op = .store 0 f.store.unbind.1 x := by
  obtain ⟨top, x, d₁, d₂, e, j, k, -, hfuses, hnotes, hshape, hadds, hsink, hd⟩ := sink_ok h
  have hempty : f.Aligns {} := ⟨Expr.aligned_empty, nofun⟩
  have hd₁ := hfuses.aligns hempty
  have hd₂ := hd₁.congr hnotes.tree_eq hnotes.visited_eq
  have hx : x < d₂.tree.size := by
    rw [hnotes.tree_eq]
    exact hfuses.lt_size hd₁
  have hstore : e.Aligned f.store.unbind.1 :=
    hd₂.toAligned.adds hadds (List.forall_mem_singleton.mpr hx) ⟨hshape, rfl⟩ nofun
  have hlast := hstore.adds hsink (List.forall_mem_singleton.mpr hadds.lt_size) trivial nofun
  exact ⟨hlast, j, _, x, hsink.grows j _ hadds.getElem?, rfl⟩

end Fusion

/-! ### Schedules -/

section Schedules

variable [Width] {s s' : Session} {ts : List Tensor} {config : ScheduleConfig} {result : Schedule}

theorem Layout.StoresOnce.eq_of_index {l : Layout} (h : l.StoresOnce) {c c' : List Int} {p : Int}
    (hc : c ∈ coordinates (dimsOf l.shape)) (hc' : c' ∈ coordinates (dimsOf l.shape))
    (hp : l.index c = some p) (hp' : l.index c' = some p) : c = c' := by
  have hsymm : Std.Symm fun a b => ∀ q, l.index a = some q → ∀ q', l.index b = some q' → q ≠ q' :=
    ⟨fun a b hab q hq q' hq' heq => hab q' hq' q hq heq.symm⟩
  by_contra hne
  exact (List.pairwise_filterMap.mp h).forall hc hc' hne p hp p hp' rfl

theorem Tensor.exists_aligned_of_schedule (hs : s.Coherent) (hts : ∀ t ∈ ts, t < s.nodes.size)
    (hrun : (schedule ts config).run.run s = (.ok result, s')) {item : ScheduleItem}
    (hitem : item ∈ result.items) : ∃ store, item.tree.Aligned store ∧
      ∃ (j : Nat) (n : ExprNode) (x : Nat), item.tree.nodes[j]? = some n ∧ n.op = .store 0 store x := by
  obtain ⟨p, kernels, ordered, k, h, hk, rfl⟩ := of_item hs hts hrun hitem
  obtain ⟨-, hbuild⟩ := h.buildKernel_eq hk
  obtain ⟨output, task, store, t, rescoped, u, d, -, -, -, hsink, hkernel, -⟩ :=
    Session.buildKernel_ok hbuild
  rw [show k.item.tree = d.tree from congrArg (·.item.tree) hkernel]
  exact ⟨_, Fusion.exists_aligned_sink hsink⟩

/-- A scheduled kernel reads no element of its output but the one that the same iteration stores. If
no element is stored twice, no iteration reads what another one stores, and the kernel leaves, in
whatever order it goes through the coordinates, what is computed from the contents before it. -/
theorem Tensor.schedule_in_place {ts : List Tensor} {config : ScheduleConfig} {result : Schedule}
    (hs : s.Reached) (hts : ∀ t ∈ ts, t < s.nodes.size)
    (hrun : (schedule ts config).run.run s = (.ok result, s')) :
    ∀ item ∈ result.items, ∃ (j x : Nat) (store : Layout), item.filled.tree.stores = [j] ∧
      (item.filled.tree.node j).op = .store 0 store x ∧
      (∀ c ∈ coordinates (dimsOf store.shape), ∀ p,
        item.filled.tree.Reads 0 x c p → store.index c = some p) ∧
      (store.StoresOnce →
        (∀ c ∈ coordinates (dimsOf store.shape), ∀ c' ∈ coordinates (dimsOf store.shape), c ≠ c' →
          ∀ p, store.index c = some p → ¬ item.filled.tree.Reads 0 x c' p) ∧
        ∀ (order : List (List Int)) (m m' : Memory), order.Perm (coordinates (dimsOf store.shape)) →
          m.allocate item.output = some m' → item.filled.sweep order m = item.filled.run m') := by
  intro item hitem
  have hconsistent := consistent_of_schedule hs.proper hts hrun hitem
  obtain ⟨l, haligned, i, n, x, hn, hop⟩ :=
    exists_aligned_of_schedule hs.proper.coherent hts hrun hitem
  obtain ⟨j, hstores, -, honly⟩ := hconsistent.store
  obtain rfl : i = j := by
    apply honly i n hn
    rw [hop]
    rfl
  let fill : SymInt → SymInt := fun x => x.subst fun v => item.vars.lookup v.name
  have hfilled : item.filled.tree.Aligned (l.mapSizes fill) := haligned.mapSizes rfl
  have hstore : (item.filled.tree.node i).op = .store 0 (l.mapSizes fill) x := by
    show ((item.tree.mapSizes fill).node i).op = _
    rw [Expr.node_mapSizes, Expr.node_of_getElem? hn, ExprNode.mapSizes, hop]
    rfl
  have hown : ∀ c ∈ coordinates (dimsOf (l.mapSizes fill).shape), ∀ p,
      item.filled.tree.Reads 0 x c p → (l.mapSizes fill).index c = some p :=
    fun c hc p hreads => hfilled.index_of_reads hstore hc hreads
  refine ⟨i, x, l.mapSizes fill, Expr.stores_mapSizes.trans hstores, hstore, hown, fun honce => ?_⟩
  constructor
  · intro c hc c' hc' hne p hp hreads
    exact hne (honce.eq_of_index hc hc' hp (hown c' hc' p hreads))
  · intro order m m' hperm hm
    exact ScheduleItem.sweep_eq_run hfilled hconsistent.nodup (Expr.stores_mapSizes.trans hstores)
      hstore honce hperm hm

end Schedules

section Window

/-- Four numbers, and two of them, seen through a window that starts where a variable is bound, to
which two others are added in place. -/
def accumulatedWindow : Session :=
  letI := Width.word64
  let v : SymVar := ⟨"i", 0, 2, some 1⟩
  Session.after (Session.after (Session.after (Session.after (Session.after {}
    (Tensor.ofValues .int32 [.int 10, .int 20, .int 30, .int 40]))
    (Tensor.move 0 (.shrink [(.poly [([v], 1)], .poly [([], 2), ([v], 1)])])))
    (Tensor.ofValues .int32 [.int 5, .int 6])) (Tensor.add 1 2)) (Tensor.assign 1 3)

/-- Both iterations read the buffer that they write, and the last can come first. -/
theorem Tensor.schedule_in_place_accumulatedWindow :
    letI := Width.word64
    accumulatedWindow.Reached ∧ (∀ t ∈ [4], t < accumulatedWindow.nodes.size) ∧
      ∃ result s' item x store,
        (Tensor.schedule [4] {}).run.run accumulatedWindow = (.ok result, s') ∧
        result.items = [item] ∧ (item.filled.tree.node 3).op = .store 0 store x ∧
        store.StoresOnce ∧ item.filled.tree.Reads 0 x [0] 1 ∧ item.filled.tree.Reads 0 x [1] 2 ∧
        item.filled.sweep [[1], [0]] s'.memory = item.filled.run s'.memory ∧
        (item.filled.run s'.memory).bind (·.values 0)
          = some [.int 10, .int 25, .int 36, .int 40] := by
  let := Width.word64
  have hreached : accumulatedWindow.Reached :=
    .call (.call (.call (.call (.call .empty (.values _ _)) (.move (by decide +kernel) trivial))
      (.values _ _)) (.binary (by decide +kernel) (by decide +kernel) add_named))
      (.assign (by decide +kernel) (by decide +kernel))
  have hts : ∀ t ∈ [4], t < accumulatedWindow.nodes.size := by decide +kernel
  let shown : Layout := ⟨⟨[2], [1], 1, none, false⟩, []⟩
  have hitems : ((Tensor.schedule [4] {}).run.run accumulatedWindow).1.toOption.map (·.items.map
      fun item => (item.output, item.filled.tree.stores, (item.filled.tree.node 0).op,
        (item.filled.tree.node 2).op, (item.filled.tree.node 3).op))
      = some [(0, [3], .load 0 shown, .binary .add 0 1, .store 0 shown 2)] := by
    decide +kernel
  have hmemory : (((Tensor.schedule [4] {}).run.run accumulatedWindow).2.memory.get? 0).map
      (·.isAllocated) = some true := by decide +kernel
  have hvalues : ((Tensor.schedule [4] {}).run.run accumulatedWindow).1.toOption.map (·.items.map
      fun item => (item.filled.run
        ((Tensor.schedule [4] {}).run.run accumulatedWindow).2.memory).bind (·.values 0))
      = some [some [.int 10, .int 25, .int 36, .int 40]] := by
    decide +kernel
  refine ⟨hreached, hts, ?_⟩
  obtain ⟨result, s', hrun, hmap⟩ := exists_of_toOption_map hitems
  rw [hrun] at hmemory hvalues
  simp only [List.map_eq_cons_iff, List.map_eq_nil_iff, Prod.mk.injEq] at hmap
  obtain ⟨item, -, hresult, ⟨houtput, hstores, hload, hadd, hstore⟩, rfl⟩ := hmap
  have hinplace := Tensor.schedule_in_place hreached hts hrun item (by
    rw [hresult]
    exact List.mem_singleton_self item)
  obtain ⟨j, x, store, hj, hop, -, hall⟩ := hinplace
  obtain rfl : 3 = j := List.singleton_inj.mp (hstores.symm.trans hj)
  obtain ⟨-, rfl, rfl⟩ := ExprOp.store.inj (hstore.symm.trans hop)
  have honce : shown.StoresOnce := by decide +kernel
  have hreads : ∀ c p, shown.index c = some p → item.filled.tree.Reads 0 2 c p := by
    intro c p hindex
    refine ⟨0, c, shown, .single ?_, hload, hindex⟩
    rw [Expr.demands, hadd]
    exact List.mem_cons_self
  obtain ⟨b, hb, hallocated⟩ := Option.map_eq_some_iff.mp hmemory
  have hallocate := Memory.allocate_eq_self hb hallocated
  rw [← houtput] at hallocate
  refine ⟨result, _, item, 2, shown, hrun, hresult, hstore, honce, hreads [0] 1 (by decide +kernel),
    hreads [1] 2 (by decide +kernel), ?_, ?_⟩
  · exact (hall honce).2 _ _ _ (by decide +kernel) hallocate
  · have hvalue := Option.some.inj hvalues
    dsimp only at hvalue
    rw [hresult] at hvalue
    exact List.singleton_inj.mp hvalue

end Window

end LazyTensor

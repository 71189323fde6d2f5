import LazyTensor.Proofs.Realize
import Mathlib.Data.List.Sort

/-!
# What a kernel is launched with

The slots of a kernel number its buffers: every buffer is used, each under one number, by nodes of its
type. So the arguments of the compiled kernel are the buffers of its item, one for one.
-/

namespace LazyTensor

def ExprOp.slot? : ExprOp → Option Nat
  | load slot _ | store slot _ _ => some slot
  | _ => none

def ExprOp.layout? : ExprOp → Option Layout
  | load _ l | const _ l | store _ l _ => some l
  | _ => none

/-! ### Arguments of a tree -/

namespace Lower

section UseArg

variable {slot : Nat} {t : DType} {written : Bool} {args : List GlobalArg}

theorem slots_useArg : (useArg slot t written args).map (·.slot)
    = insertElem compare slot (args.map (·.slot)) := by
  induction args with
  | nil => rfl
  | cons a args ih =>
    rw [useArg, List.map_cons, insertElem]
    rcases Nat.lt_trichotomy slot a.slot with hlt | heq | hgt
    · rw [if_pos hlt, Nat.compare_eq_lt.mpr hlt]
      rfl
    · rw [if_neg (by omega), if_pos heq, Nat.compare_eq_eq.mpr heq]
      rfl
    · rw [if_neg (by omega), if_neg (by omega), Nat.compare_eq_gt.mpr hgt, List.map_cons, ih]

theorem mem_slots_useArg {i : Nat} :
    i ∈ (useArg slot t written args).map (·.slot) ↔ i = slot ∨ i ∈ args.map (·.slot) := by
  rw [slots_useArg, mem_insertElem]

theorem pairwise_useArg (h : (args.map (·.slot)).Pairwise (· < ·)) :
    ((useArg slot t written args).map (·.slot)).Pairwise (· < ·) := by
  induction args with
  | nil => exact List.pairwise_singleton _ _
  | cons a args ih =>
    rw [List.map_cons, List.pairwise_cons] at h
    rw [useArg]
    split
    next hlt =>
      rw [List.map_cons, List.map_cons, List.pairwise_cons, List.pairwise_cons]
      refine ⟨?_, h⟩
      intro i hi
      rcases List.mem_cons.mp hi with rfl | hi
      · exact hlt
      · exact hlt.trans (h.1 i hi)
    next hge =>
      split
      next heq => exact List.pairwise_cons.mpr h
      next hne =>
        rw [List.map_cons, List.pairwise_cons]
        refine ⟨?_, ih h.2⟩
        intro i hi
        rcases mem_slots_useArg.mp hi with rfl | hi
        · omega
        · exact h.1 i hi

theorem mem_useArg (h : (args.map (·.slot)).Pairwise (· < ·)) {a : GlobalArg}
    (ha : a ∈ useArg slot t written args) :
    a ∈ args ∧ a.slot ≠ slot ∨ a = ⟨slot, t, written⟩ ∧ slot ∉ args.map (·.slot) ∨
      ∃ b ∈ args, b.slot = slot ∧ a = { b with written := b.written || written } := by
  induction args with
  | nil => exact .inr (.inl ⟨List.mem_singleton.mp ha, List.not_mem_nil⟩)
  | cons b args ih =>
    rw [List.map_cons, List.pairwise_cons] at h
    have hlater : ∀ c ∈ args, b.slot < c.slot := fun c hc => h.1 _ (List.mem_map_of_mem hc)
    rw [useArg] at ha
    split at ha
    next hlt =>
      rcases List.mem_cons.mp ha with rfl | ha
      · refine .inr (.inl ⟨rfl, ?_⟩)
        intro hslot
        rcases List.mem_cons.mp hslot with heq | hslot
        · exact absurd heq (Nat.ne_of_lt hlt)
        · have := h.1 _ hslot
          omega
      · refine .inl ⟨ha, ?_⟩
        rcases List.mem_cons.mp ha with rfl | ha
        · omega
        · have := hlater a ha
          omega
    next hge =>
      split at ha
      next heq =>
        rcases List.mem_cons.mp ha with rfl | ha
        · exact .inr (.inr ⟨b, List.mem_cons_self, heq.symm, rfl⟩)
        · refine .inl ⟨List.mem_cons_of_mem b ha, ?_⟩
          have := hlater a ha
          omega
      next hne =>
        rcases List.mem_cons.mp ha with rfl | ha
        · exact .inl ⟨List.mem_cons_self, fun heq => hne heq.symm⟩
        rcases ih h.2 ha with ⟨ha, hslot⟩ | ⟨rfl, hslot⟩ | ⟨c, hc, hslot⟩
        · exact .inl ⟨List.mem_cons_of_mem b ha, hslot⟩
        · refine .inr (.inl ⟨rfl, ?_⟩)
          rw [List.map_cons, List.mem_cons, not_or]
          exact ⟨hne, hslot⟩
        · exact .inr (.inr ⟨c, List.mem_cons_of_mem b hc, hslot⟩)

end UseArg

/-- The arguments of some nodes, in the order of their slots. -/
structure ArgsOf (nodes : List ExprNode) (args : List GlobalArg) : Prop where
  sorted : (args.map (·.slot)).Pairwise (· < ·)
  slots : ∀ slot, slot ∈ args.map (·.slot) ↔ ∃ n ∈ nodes, n.op.slot? = some slot
  dtype : ∀ a ∈ args, ∃ n ∈ nodes, n.op.slot? = some a.slot ∧ n.dtype = a.dtype
  written : ∀ a ∈ args, a.written = true ↔
    ∃ n ∈ nodes, n.op.isStore = true ∧ n.op.slot? = some a.slot

variable {nodes : List ExprNode} {args : List GlobalArg} {n : ExprNode}

theorem argsOf_nil : ArgsOf [] [] :=
  ⟨.nil, fun slot => by simp, nofun, nofun⟩

theorem ArgsOf.skip (h : ArgsOf nodes args) (hn : n.op.slot? = none) : ArgsOf (nodes ++ [n]) args := by
  have hmem : ∀ (P : ExprNode → Prop) slot, (∃ m ∈ nodes ++ [n], P m ∧ m.op.slot? = some slot) ↔
      ∃ m ∈ nodes, P m ∧ m.op.slot? = some slot := by
    intro P slot
    simp only [List.mem_append, List.mem_singleton, or_and_right, exists_or, exists_eq_left, hn]
    simp
  refine ⟨h.sorted, fun slot => ?_, fun a ha => ?_, fun a ha => ?_⟩
  · rw [h.slots]
    simpa using (hmem (fun _ => True) slot).symm
  · obtain ⟨m, hm, hslot⟩ := h.dtype a ha
    exact ⟨m, List.mem_append_left _ hm, hslot⟩
  · rw [h.written a ha, hmem]

theorem ArgsOf.use (h : ArgsOf nodes args) {slot : Nat} (hn : n.op.slot? = some slot) :
    ArgsOf (nodes ++ [n]) (useArg slot n.dtype n.op.isStore args) := by
  have hmem : ∀ (P : ExprNode → Prop) i, (∃ m ∈ nodes ++ [n], P m ∧ m.op.slot? = some i) ↔
      (∃ m ∈ nodes, P m ∧ m.op.slot? = some i) ∨ P n ∧ slot = i := by
    intro P i
    simp only [List.mem_append, List.mem_singleton, or_and_right, exists_or, exists_eq_left, hn,
      Option.some.injEq]
  refine ⟨pairwise_useArg h.sorted, fun i => ?_, fun a ha => ?_, fun a ha => ?_⟩
  · have hi := hmem (fun _ => True) i
    simp only [true_and] at hi
    rw [mem_slots_useArg, h.slots, hi, or_comm, eq_comm]
  · rcases mem_useArg h.sorted ha with ⟨ha, -⟩ | ⟨rfl, -⟩ | ⟨b, hb, -, rfl⟩
    · obtain ⟨m, hm, hslot⟩ := h.dtype a ha
      exact ⟨m, List.mem_append_left _ hm, hslot⟩
    · exact ⟨n, List.mem_append_right _ (List.mem_singleton_self n), hn, rfl⟩
    · obtain ⟨m, hm, hslot⟩ := h.dtype b hb
      exact ⟨m, List.mem_append_left _ hm, hslot⟩
  · rw [hmem]
    rcases mem_useArg h.sorted ha with ⟨ha, hne⟩ | ⟨rfl, hnew⟩ | ⟨b, hb, rfl, rfl⟩
    · rw [h.written a ha, or_iff_left fun hslot => hne hslot.2.symm]
    · -- No node had the slot before.
      rw [h.slots] at hnew
      have hnone : ¬ ∃ m ∈ nodes, m.op.isStore = true ∧ m.op.slot? = some slot := by
        rintro ⟨m, hm, -, hslot⟩
        exact hnew ⟨m, hm, hslot⟩
      rw [or_iff_right hnone, and_iff_left rfl]
    · rw [Bool.or_eq_true, h.written b hb, and_iff_left rfl]

theorem ArgsOf.collect (h : ArgsOf nodes args) (n : ExprNode) :
    ArgsOf (nodes ++ [n]) (collectArg args n) := by
  rw [collectArg]
  split
  next slot l hop =>
    have hslot : n.op.slot? = some slot := by
      rw [hop]
      rfl
    have hused := h.use hslot
    rwa [hop] at hused
  next slot l x hop =>
    have hslot : n.op.slot? = some slot := by
      rw [hop]
      rfl
    have hused := h.use hslot
    rwa [hop] at hused
  next hload hstore =>
    apply h.skip
    cases hop : n.op with
    | load slot l => exact absurd hop (hload slot l)
    | store slot l x => exact absurd hop (hstore slot l x)
    | _ => rfl

theorem argsOf_collectArgs (e : Expr) : ArgsOf e.nodes.toList (collectArgs e) := by
  have hfold : ∀ (later nodes : List ExprNode) args, ArgsOf nodes args →
      ArgsOf (nodes ++ later) (later.foldl collectArg args) := by
    intro later
    induction later with
    | nil =>
      intro nodes args h
      rw [List.append_nil]
      exact h
    | cons n later ih =>
      intro nodes args h
      have hrest := ih (nodes ++ [n]) _ (h.collect n)
      rwa [List.append_assoc, List.singleton_append] at hrest
  exact hfold e.nodes.toList [] [] argsOf_nil

end Lower

variable {e : Expr} {config : CompileConfig} {hash : NodeHash} {k : Kernel}

theorem lower_globals [Width] {k : LoweredKernel} (h : lower e config = .ok k) :
    k.globals = Lower.collectArgs e := by
  rw [lower] at h
  obtain ⟨⟨stores, output⟩, -, h⟩ := bind_eq_ok h
  obtain ⟨⟨full, axes⟩, -, h⟩ := bind_eq_ok h
  dsimp only at h
  obtain ⟨r, -, h⟩ := bind_eq_ok h
  cases h
  rfl

theorem Kernel.exists_of_compile [Width] (h : Kernel.compile e config hash = .ok k) :
    ∃ lowered g sink, lower e config = .ok lowered ∧
      simplified lowered config = .ok (g, sink) ∧ linearize g sink hash = .ok k.instrs ∧
        k.globals = lowered.globals := by
  rw [compile] at h
  obtain ⟨lowered, hlower, h⟩ := bind_eq_ok h
  obtain ⟨⟨g, sink⟩, hsimplified, h⟩ := bind_eq_ok h
  obtain ⟨instrs, hinstrs, h⟩ := bind_eq_ok h
  dsimp only at h
  refine ⟨lowered, g, sink, hlower, hsimplified, ?_⟩
  by_cases hverify : config.verify = true
  · rw [if_pos hverify] at h
    obtain ⟨u, -, h⟩ := bind_eq_ok h
    cases h
    exact ⟨hinstrs, rfl⟩
  · rw [if_neg hverify] at h
    cases h
    exact ⟨hinstrs, rfl⟩

theorem Kernel.compile_globals [Width] (h : Kernel.compile e config hash = .ok k) :
    k.globals = Lower.collectArgs e := by
  obtain ⟨lowered, g, sink, hlower, -, -, hglobals⟩ := exists_of_compile h
  rw [hglobals, lower_globals hlower]

/-! ### Trees -/

namespace Expr

/-- `j` stands below `i` in the tree. -/
def Below (e : Expr) : Nat → Nat → Prop :=
  Relation.ReflTransGen fun i j => ∃ n, e.nodes[i]? = some n ∧ j ∈ n.op.sources

variable {e e' : Expr} {n : ExprNode} {i j x : Nat}

theorem Below.grows (h : e.Below i j) (hgrows : e.Grows e') : e'.Below i j := by
  refine Relation.ReflTransGen.mono ?_ i j h
  rintro a b ⟨n, hn, hb⟩
  exact ⟨n, hgrows a n hn, hb⟩

theorem Adds.below (h : e.Adds n i e') (hx : x ∈ n.op.sources) (hj : e.Below x j) : e'.Below i j :=
  .head ⟨n, h.getElem?, hx⟩ (hj.grows h.grows)

theorem Adds.lt_or_eq (h : e.Adds n i e') (hj : j < e'.size) : j < e.size ∨ j = i := by
  by_cases hlt : j < e.size
  · exact .inl hlt
  · exact .inr (h.eq_of_size_le j (Nat.le_of_not_lt hlt) hj)

/-- The slots of a tree number the buffers, and no variable in it has a value. -/
structure Wired (e : Expr) (buffers : List BufferId) (m : Memory) : Prop where
  nodup : buffers.Nodup
  dtype : ∀ n ∈ e.nodes, ∀ slot, n.op.slot? = some slot →
    ∃ id b, buffers[slot]? = some id ∧ m.get? id = some b ∧ b.dtype = n.dtype
  free : ∀ n ∈ e.nodes, ∀ l, n.op.layout? = some l → ∀ v ∈ l.vars, v.value = none

end Expr

/-- What an item is launched with fits its tree. -/
structure ScheduleItem.Consistent (i : ScheduleItem) (m : Memory) : Prop
    extends i.tree.Wired i.buffers m where
  /-- The table holds nothing but the tree. -/
  below : ∀ j < i.tree.size, i.tree.Below i.tree.root j
  slots : ∀ slot, (∃ n ∈ i.tree.nodes, n.op.slot? = some slot) ↔ slot < i.buffers.length
  store : ∃ j, i.tree.stores = [j] ∧ (∃ l x, (i.tree.node j).op = .store 0 l x) ∧
    ∀ (k : Nat) n, i.tree.nodes[k]? = some n → n.op.isStore = true → k = j

namespace ScheduleItem.Consistent

variable {i : ScheduleItem} {m : Memory} (h : i.Consistent m)

include h

theorem collectArgs_eq : (Lower.collectArgs i.tree).map (·.slot) = List.range i.buffers.length := by
  have hargs := Lower.argsOf_collectArgs i.tree
  apply hargs.sorted.eq_of_mem_iff List.pairwise_lt_range
  intro slot
  rw [hargs.slots, List.mem_range, ← h.slots]
  simp only [Array.mem_toList_iff]

theorem length_collectArgs : (Lower.collectArgs i.tree).length = i.buffers.length := by
  rw [← List.length_map (·.slot), h.collectArgs_eq, List.length_range]

theorem arg {slot : Nat} {a : GlobalArg} (ha : (Lower.collectArgs i.tree)[slot]? = some a) :
    a.slot = slot ∧ (a.written = true ↔ slot = 0) ∧
      ∃ id b, i.buffers[slot]? = some id ∧ m.get? id = some b ∧ b.dtype = a.dtype := by
  have hargs := Lower.argsOf_collectArgs i.tree
  have hmem := List.mem_of_getElem? ha
  have hslot : a.slot = slot := by
    have hget : ((Lower.collectArgs i.tree).map (·.slot))[slot]? = some a.slot := by
      rw [List.getElem?_map, ha, Option.map_some]
    rw [h.collectArgs_eq] at hget
    obtain ⟨hlt, hget⟩ := List.getElem?_eq_some_iff.mp hget
    rw [← hget, List.getElem_range]
  refine ⟨hslot, ?_, ?_⟩
  · obtain ⟨j, hstores, ⟨l, x, hop⟩, honly⟩ := h.store
    rw [hargs.written a hmem, hslot]
    constructor
    · rintro ⟨n, hn, hstore, hn'⟩
      obtain ⟨k, hk⟩ := Array.mem_iff_getElem?.mp (Array.mem_toList_iff.mp hn)
      obtain rfl := honly k n hk hstore
      rw [Expr.node_of_getElem? hk] at hop
      rw [hop] at hn'
      exact (Option.some.inj hn').symm
    · rintro rfl
      have hj : j < i.tree.size := Expr.lt_size_of_op hop (by simp)
      refine ⟨i.tree.node j, ?_, ?_, ?_⟩
      · exact Array.mem_toList_iff.mpr
          (Array.mem_iff_getElem?.mpr ⟨j, Expr.getElem?_eq_some_node hj⟩)
      · rw [hop]
        rfl
      · rw [hop]
        rfl
  · obtain ⟨n, hn, hn', htype⟩ := hargs.dtype a hmem
    rw [hslot] at hn'
    obtain ⟨id, b, hid, hb, hdtype⟩ := h.dtype n (Array.mem_toList_iff.mp hn) slot hn'
    exact ⟨id, b, hid, hb, hdtype.trans htype⟩

theorem isArgument_of_run [Width] (hk : Kernel.compile i.tree config hash = .ok k)
    {vars : List (String × Int)} {m' : Memory}
    (hm : ∀ id ∈ i.buffers, (m'.get? id).map (·.dtype) = (m.get? id).map (·.dtype))
    {e : MachineError} (he : ((k.run i.buffers vars).run.run { memory := m' }).1 = .error e) :
    e.isArgument = false := by
  have hglobals := Kernel.compile_globals hk
  apply Kernel.isArgument_of_run _ _ he
  · rw [hglobals, h.length_collectArgs]
  · intro a id hmem b hb
    rw [hglobals] at hmem
    obtain ⟨slot, hslot⟩ := List.mem_iff_getElem?.mp hmem
    obtain ⟨ha, hid⟩ := List.getElem?_zip_eq_some.mp hslot
    obtain ⟨-, -, id', b', hid', hb', htype⟩ := h.arg ha
    obtain rfl : id = id' := Option.some.inj (hid.symm.trans hid')
    have hdtype := hm id (List.mem_of_getElem? hid)
    rw [hb, hb'] at hdtype
    exact (Option.some.inj hdtype).trans htype

end ScheduleItem.Consistent

/-! ### Drafts -/

section Takes

variable {d d' : Draft} {output id : BufferId} {slot : Nat}

theorem Draft.Takes.nodup (h : d.Takes output id slot d') (hnodup : (output :: d.inputs).Nodup) :
    (output :: d'.inputs).Nodup := by
  rcases h.inputs with hsame | ⟨hnew, hid⟩
  · rw [hsame]
    exact hnodup
  · rw [hnew, ← List.cons_append, ← List.concat_eq_append]
    exact hnodup.concat hid

theorem Draft.Takes.slot_of_new (h : d.Takes output id slot d') (hnodup : (output :: d.inputs).Nodup)
    {k : Nat} (hle : d.inputs.length ≤ k) (hk : k < d'.inputs.length) : slot = k + 1 := by
  have hnodup' := h.nodup hnodup
  have hslot := h.slot_eq
  rcases h.inputs with hsame | ⟨hnew, -⟩
  · rw [hsame] at hk
    exact absurd hk (Nat.not_lt_of_le hle)
  · have hlast : (output :: d'.inputs)[k + 1]? = some id := by
      rw [hnew, List.length_append, List.length_singleton] at hk
      obtain rfl : k = d.inputs.length := Nat.le_antisymm (Nat.le_of_lt_succ hk) hle
      rw [hnew, List.getElem?_cons_succ, List.getElem?_concat_length]
    apply (List.getElem?_inj (List.getElem?_eq_some_iff.mp hslot).1 hnodup').mp
    rw [hslot, hlast]

end Takes

namespace Fusion

variable {f : Fusion} {d d' d₁ : Draft} {v : Visit} {i j : Nat} {n : ExprNode} {tree : Expr}

/-- The draft of a kernel without its store. -/
structure Kept (f : Fusion) (d : Draft) : Prop
    extends d.tree.Wired (f.output :: d.inputs) f.session.memory where
  used : ∀ slot < d.inputs.length, ∃ n ∈ d.tree.nodes, n.op.slot? = some (slot + 1)
  inner : ∀ n ∈ d.tree.nodes, n.op.isStore = false ∧ ∀ parts, n.op ≠ .sink parts
  visited : ∀ v i, (v, i) ∈ d.visited →
    i < d.tree.size ∧ (d.tree.node i).dtype = f.session.dtype v.node

theorem kept_empty : f.Kept {} := by
  have hnone : ∀ n, n ∉ ({} : Draft).tree.nodes := fun n => Array.not_mem_empty n
  exact ⟨⟨List.nodup_singleton _, fun n hn => absurd hn (hnone n), fun n hn => absurd hn (hnone n)⟩,
    fun slot hslot => absurd hslot (Nat.not_lt_zero slot), fun n hn => absurd hn (hnone n),
    nofun⟩

theorem Kept.congr (h : f.Kept d) (hinputs : d'.inputs = d.inputs) (htree : d'.tree = d.tree)
    (hvisited : d'.visited = d.visited) : f.Kept d' := by
  obtain ⟨⟨hnodup, hdtype, hfree⟩, hused, hinner, hplaces⟩ := h
  rw [← hinputs, ← htree] at hdtype hused
  rw [← htree] at hfree hinner hplaces
  rw [← hinputs] at hnodup
  rw [← hvisited] at hplaces
  exact ⟨⟨hnodup, hdtype, hfree⟩, hused, hinner, hplaces⟩

theorem Kept.place (h : f.Kept d) (hextends : d.Extends d₁) (htree : d₁.tree = d.tree)
    (hvisited : d₁.visited = d.visited) (hnodup : (f.output :: d₁.inputs).Nodup)
    (hused : ∀ slot < d₁.inputs.length, slot < d.inputs.length ∨ n.op.slot? = some (slot + 1))
    (hadds : d₁.tree.Adds n i tree) (htype : n.dtype = f.session.dtype v.node)
    (hinner : n.op.isStore = false ∧ ∀ parts, n.op ≠ .sink parts)
    (hdtype : ∀ slot, n.op.slot? = some slot → ∃ id b, (f.output :: d₁.inputs)[slot]? = some id ∧
      f.session.memory.get? id = some b ∧ b.dtype = n.dtype)
    (hfree : ∀ l, n.op.layout? = some l → ∀ v ∈ l.vars, v.value = none) :
    f.Kept (d₁.place v i tree) := by
  rw [htree] at hadds
  refine ⟨⟨hnodup, fun m hm slot hslot => ?_, fun m hm => ?_⟩, fun slot hslot => ?_, fun m hm => ?_,
    fun w k hw => ?_⟩
  · rcases hadds.mem_nodes.mp hm with hm | rfl
    · obtain ⟨id, b, hid, hb⟩ := h.dtype m hm slot hslot
      exact ⟨id, b, hextends.slot hid, hb⟩
    · exact hdtype slot hslot
  · rcases hadds.mem_nodes.mp hm with hm | rfl
    · exact h.free m hm
    · exact hfree
  · rcases hused slot hslot with hold | hnew
    · obtain ⟨m, hm, hm'⟩ := h.used slot hold
      exact ⟨m, hadds.mem_nodes.mpr (.inl hm), hm'⟩
    · exact ⟨n, hadds.mem_nodes.mpr (.inr rfl), hnew⟩
  · rcases hadds.mem_nodes.mp hm with hm | rfl
    · exact h.inner m hm
    · exact hinner
  · rcases List.mem_cons.mp hw with heq | hw
    · cases heq
      exact ⟨hadds.lt_size, (congrArg ExprNode.dtype hadds.node_eq).trans htype⟩
    · rw [hvisited] at hw
      obtain ⟨hlt, hold⟩ := h.visited w k hw
      exact ⟨hadds.grows.lt_size hlt, (congrArg ExprNode.dtype (hadds.grows.node_eq hlt)).trans hold⟩

theorem Kept.place_inner (h : f.Kept d) (hadds : d.tree.Adds n i tree)
    (htype : n.dtype = f.session.dtype v.node)
    (hinner : n.op.isStore = false ∧ ∀ parts, n.op ≠ .sink parts)
    (hslot : n.op.slot? = none) (hlayout : n.op.layout? = none) : f.Kept (d.place v i tree) := by
  refine h.place (.refl d) rfl rfl h.nodup (fun slot hslot => .inl hslot) hadds htype hinner ?_ ?_
  · intro slot hsome
    rw [hslot] at hsome
    cases hsome
  · intro l hsome
    rw [hlayout] at hsome
    cases hsome

variable [Width] {l : Layout}

theorem Kept.place_load (h : f.Kept d) {id : BufferId} {slot : Nat}
    (htakes : d.Takes f.output id slot d₁)
    (hadds : d₁.tree.Adds ⟨.load slot l.unbind.1, f.session.dtype v.node, l.unbind.1.shape⟩ i tree)
    (hb : ∃ b, f.session.memory.get? id = some b ∧ b.dtype = f.session.dtype v.node) :
    f.Kept (d₁.place v i tree) := by
  obtain ⟨b, hb, htype⟩ := hb
  refine h.place htakes.extends htakes.tree_eq htakes.visited_eq (htakes.nodup h.nodup) ?_ hadds rfl
    ⟨rfl, nofun⟩ ?_ ?_
  · intro k hk
    by_cases hold : k < d.inputs.length
    · exact .inl hold
    · exact .inr (congrArg some (htakes.slot_of_new h.nodup (Nat.le_of_not_lt hold) hk))
  · intro k hk
    obtain rfl := Option.some.inj hk
    exact ⟨id, b, htakes.slot_eq, hb, htype⟩
  · intro l' hl' w hw
    obtain rfl := Option.some.inj hl'
    exact Layout.value_of_mem_unbind hw

theorem Fuses.mem_visited (h : f.Fuses d v i d') : (v, i) ∈ d'.visited := by
  cases h with
  | known hknown => exact hknown
  | _ => exact List.mem_cons_self

theorem Kept.operand (h : f.Kept d₁) (hs : f.session.Coherent) {a : Tensor} {r : Bool} {x : Nat}
    (ha : a < f.session.nodes.size) (hx : f.Fuses d (visit f.session a l r) x d₁) :
    x < d₁.tree.size ∧ (d₁.tree.node x).dtype = f.session.dtype a := by
  obtain ⟨hlt, htype⟩ := h.visited _ _ hx.mem_visited
  rw [visit_node, hs.dtype_base ha] at htype
  exact ⟨hlt, htype⟩

/-- Every node that is read has a buffer of its type. -/
def Furnished (f : Fusion) : Prop :=
  ∀ v id l, v.node < f.session.nodes.size → f.source v = .ok (id, l) →
    ∃ b, f.session.memory.get? id = some b ∧ b.dtype = f.session.dtype v.node

theorem Fuses.kept (hs : f.session.Coherent) (hf : f.Furnished) (h : f.Fuses d v i d')
    (hv : v.node < f.session.nodes.size) (hd : f.Kept d) : f.Kept d' := by
  have hbase : ∀ {t a : Tensor} {l : Layout} {r : Bool} {o : TensorOp}, t < f.session.nodes.size →
      f.session.op t = o → a ∈ o.sources →
        a < f.session.nodes.size ∧ (visit f.session a l r).node < f.session.nodes.size := by
    intro t a l r o ht hop ha
    have hlt := hs.source_lt ht hop ha
    rw [visit_node]
    exact ⟨hlt, hs.base_lt hlt⟩
  induction h with
  | known _ => exact hd
  | @const d d₁ v i tree value hop hnotes hadds =>
    have hkept := hd.congr hnotes.inputs_eq hnotes.tree_eq hnotes.visited_eq
    refine hkept.place (.refl _) rfl rfl hkept.nodup (fun slot hslot => .inl hslot) hadds rfl
      ⟨rfl, by simp⟩ (by rintro _ ⟨⟩) ?_
    intro l hl w hw
    obtain rfl := Option.some.inj hl
    exact Layout.value_of_mem_unbind hw
  | @load d d₁ v i slot tree id l hloaded hsource htakes hclear hadds =>
    have hkept : f.Kept (f.noteLoad v.node id d) :=
      hd.congr (noteLoad_inputs ..) (noteLoad_tree ..) (noteLoad_visited ..)
    exact hkept.place_load htakes hadds (hf v id l hv hsource)
  | @unary d d₁ v i x tree op a hop hx hadds ih =>
    obtain ⟨ha, hvisit⟩ := hbase hv hop (.head _)
    have hkept := ih hvisit hd
    have hagrees := hs.agrees v.node hv
    rw [Session.Agrees, hop] at hagrees
    exact hkept.place_inner hadds ((hkept.operand hs ha hx).2.trans hagrees.2)
      ⟨rfl, by simp⟩ rfl rfl
  | @cast d d₁ v i x tree a hop hx hadds ih =>
    obtain ⟨ha, hvisit⟩ := hbase hv hop (.head _)
    exact (ih hvisit hd).place_inner hadds rfl ⟨rfl, by simp⟩ rfl rfl
  | @binary d d₁ d₂ v i x y tree op a b hop hx hy hshape hadds iha ihb =>
    obtain ⟨ha, hvisit⟩ := hbase hv hop (.head _)
    obtain ⟨-, hvisit'⟩ := hbase hv hop (.tail _ (.head _))
    have hfirst := iha hvisit hd
    obtain ⟨hlt, htype⟩ := hfirst.operand hs ha hx
    have hagrees := hs.agrees v.node hv
    rw [Session.Agrees, hop] at hagrees
    refine (ihb hvisit' hfirst).place_inner hadds ?_ ⟨rfl, by simp⟩ rfl rfl
    rw [hagrees.2.2, hy.extends.tree.node_eq hlt, htype]
  | @ternary d d₁ d₂ d₃ v i x y z tree op a b c hop hx hy hz hshapes hadds iha ihb ihc =>
    obtain ⟨-, hvisit⟩ := hbase hv hop (.head _)
    obtain ⟨hb, hvisit'⟩ := hbase hv hop (.tail _ (.head _))
    obtain ⟨-, hvisit''⟩ := hbase hv hop (.tail _ (.tail _ (.head _)))
    have hsecond := ihb hvisit' (iha hvisit hd)
    obtain ⟨hlt, htype⟩ := hsecond.operand hs hb hy
    have hagrees := hs.agrees v.node hv
    rw [Session.Agrees, hop] at hagrees
    refine (ihc hvisit'' hsecond).place_inner hadds ?_ ⟨rfl, by simp⟩ rfl rfl
    rw [hz.extends.tree.node_eq hlt, htype, hagrees.2.1]
  | @reduce d d₁ d₂ v i x tree op axes a hop hcontiguous hshape hnotes hx hadds ih =>
    obtain ⟨ha, hvisit⟩ := hbase hv hop (.head _)
    have hkept := ih hvisit (hd.congr hnotes.inputs_eq hnotes.tree_eq hnotes.visited_eq)
    have hagrees := hs.agrees v.node hv
    rw [Session.Agrees, hop] at hagrees
    exact hkept.place_inner hadds ((hkept.operand hs ha hx).2.trans hagrees.2.1)
      ⟨rfl, by simp⟩ rfl rfl

theorem Fuses.stands_below (h : f.Fuses d v i d') (hj : j < d'.tree.size) :
    j < d.tree.size ∨ d'.tree.Below i j := by
  induction h with
  | known _ => exact .inl hj
  | const _ hnotes hadds =>
    rcases hadds.lt_or_eq hj with hold | rfl
    · exact .inl (hnotes.tree_eq ▸ hold)
    · exact .inr .refl
  | load _ _ htakes _ hadds =>
    rcases hadds.lt_or_eq hj with hold | rfl
    · rw [htakes.tree_eq, noteLoad_tree] at hold
      exact .inl hold
    · exact .inr .refl
  | unary _ _ hadds ih | cast _ _ hadds ih =>
    rcases hadds.lt_or_eq hj with hold | rfl
    · exact (ih hold).imp_right fun hbelow => hadds.below (List.mem_singleton_self _) hbelow
    · exact .inr .refl
  | binary _ _ hy _ hadds iha ihb =>
    rcases hadds.lt_or_eq hj with hold | rfl
    · rcases ihb hold with hold | hbelow
      · exact (iha hold).imp_right fun hbelow =>
          hadds.below List.mem_cons_self (hbelow.grows hy.extends.tree)
      · exact .inr (hadds.below (List.mem_cons_of_mem _ (List.mem_singleton_self _)) hbelow)
    · exact .inr .refl
  | ternary _ _ hy hz _ hadds iha ihb ihc =>
    rcases hadds.lt_or_eq hj with hold | rfl
    · rcases ihc hold with hold | hbelow
      · rcases ihb hold with hold | hbelow
        · exact (iha hold).imp_right fun hbelow => hadds.below List.mem_cons_self
            (hbelow.grows (hy.extends.trans hz.extends).tree)
        · exact .inr (hadds.below (List.mem_cons_of_mem _ List.mem_cons_self)
            (hbelow.grows hz.extends.tree))
      · exact .inr (hadds.below (List.mem_cons_of_mem _ (List.mem_cons_of_mem _
          (List.mem_singleton_self _))) hbelow)
    · exact .inr .refl
  | reduce _ _ _ hnotes _ hadds ih =>
    rcases hadds.lt_or_eq hj with hold | rfl
    · exact (ih hold).imp (fun hold => hnotes.tree_eq ▸ hold) fun hbelow =>
        hadds.below (List.mem_singleton_self _) hbelow
    · exact .inr .refl

/-! ### Kernels -/

/-- What a kernel is launched with fits its tree, if the buffers for its nodes fit them. -/
theorem consistent_sink (hs : f.session.Coherent) (hf : f.Furnished) {value : Tensor} {shape : Shape}
    {u : Unit} (hvalue : value < f.session.nodes.size)
    (houtput : ∃ b, f.session.memory.get? f.output = some b ∧ b.dtype = f.session.dtype value)
    (h : (f.sink value shape).run {} = .ok (u, d)) {item : ScheduleItem} (htree : item.tree = d.tree)
    (hbuffers : item.buffers = f.output :: d.inputs) : item.Consistent f.session.memory := by
  obtain ⟨top, x, d₁, d₂, e, j, k, -, hfuses, hnotes, -, hadds, hsink, hd⟩ := sink_ok h
  have hvisit : (visit f.session value top false).node < f.session.nodes.size := by
    rw [visit_node]
    exact hs.base_lt hvalue
  have hfirst := hfuses.kept hs hf hvisit kept_empty
  have hkept := hfirst.congr hnotes.inputs_eq hnotes.tree_eq hnotes.visited_eq
  have htype : (d₂.tree.node x).dtype = f.session.dtype value := by
    rw [hnotes.tree_eq]
    exact (hfirst.operand hs hvalue hfuses).2
  have hinputs : d.inputs = d₂.inputs := by rw [hd]
  rw [hinputs] at hbuffers
  have hmem : ∀ m, m ∈ item.tree.nodes → m ∈ d₂.tree.nodes ∨
      m = ⟨.store 0 f.store.unbind.1 x, (d₂.tree.node x).dtype, (d₂.tree.node x).shape⟩ ∨
      m = ⟨.sink [j], .void, []⟩ := by
    intro m hm
    rw [htree] at hm
    rcases hsink.mem_nodes.mp hm with hm | hm
    · rcases hadds.mem_nodes.mp hm with hm | hm
      · exact .inl hm
      · exact .inr (.inl hm)
    · exact .inr (.inr hm)
  have hgrows : d₂.tree.Grows item.tree := by
    rw [htree]
    exact hadds.grows.trans hsink.grows
  have hstored : item.tree.nodes[j]?
      = some ⟨.store 0 f.store.unbind.1 x, (d₂.tree.node x).dtype, (d₂.tree.node x).shape⟩ := by
    rw [htree]
    exact hsink.grows j _ hadds.getElem?
  have hlast : k + 1 = item.tree.size := by
    rw [htree]
    apply hsink.last
    intro a ha
    rcases hadds.mem_nodes.mp (Array.mem_iff_getElem?.mpr ⟨a, ha⟩) with hold | hnew
    · exact (hkept.inner _ hold).2 [j] rfl
    · cases hnew
  refine ⟨⟨?_, ?_, ?_⟩, ?_, ?_, ?_⟩
  · rw [hbuffers]
    exact hkept.nodup
  · intro m hm slot hslot
    rw [hbuffers]
    rcases hmem m hm with hm | rfl | rfl
    · exact hkept.dtype m hm slot hslot
    · obtain rfl := Option.some.inj hslot
      obtain ⟨b, hb, hdtype⟩ := houtput
      exact ⟨f.output, b, rfl, hb, hdtype.trans htype.symm⟩
    · cases hslot
  · intro m hm l hl
    rcases hmem m hm with hm | rfl | rfl
    · exact hkept.free m hm l hl
    · obtain rfl := Option.some.inj hl
      exact fun v hv => Layout.value_of_mem_unbind hv
    · cases hl
  · intro a ha
    have hroot : item.tree.root = k := by rw [Expr.root, ← hlast, Nat.add_sub_cancel]
    rw [hroot]
    rw [htree] at ha ⊢
    -- The sink stands over the store, and the store over all that was built before.
    have hstore : ∀ b, e.Below j b → d.tree.Below k b := fun b hb =>
      hsink.below (List.mem_singleton_self j) hb
    rcases hsink.lt_or_eq ha with ha | rfl
    · rcases hadds.lt_or_eq ha with ha | rfl
      · rw [hnotes.tree_eq] at ha
        rcases hfuses.stands_below ha with hnone | hbelow
        · exact absurd hnone (Nat.not_lt_zero a)
        · rw [← hnotes.tree_eq] at hbelow
          exact hstore a (hadds.below (List.mem_singleton_self x) hbelow)
      · exact hstore a .refl
    · exact .refl
  · intro slot
    constructor
    · rintro ⟨m, hm, hslot⟩
      rw [hbuffers]
      rcases hmem m hm with hm | rfl | rfl
      · obtain ⟨id, -, hid, -⟩ := hkept.dtype m hm slot hslot
        exact (List.getElem?_eq_some_iff.mp hid).1
      · obtain rfl := Option.some.inj hslot
        exact Nat.zero_lt_succ _
      · cases hslot
    · intro hlt
      cases slot with
      | zero => exact ⟨_, Array.mem_iff_getElem?.mpr ⟨j, hstored⟩, rfl⟩
      | succ slot =>
        rw [hbuffers, List.length_cons] at hlt
        obtain ⟨m, hm, hslot⟩ := hkept.used slot (Nat.lt_of_succ_lt_succ hlt)
        obtain ⟨a, ha⟩ := Array.mem_iff_getElem?.mp hm
        exact ⟨m, Array.mem_iff_getElem?.mpr ⟨a, hgrows a m ha⟩, hslot⟩
  · refine ⟨j, ?_, ⟨f.store.unbind.1, x, ?_⟩, ?_⟩
    · rw [htree] at hlast ⊢
      exact Expr.stores_eq hadds rfl hsink hlast
    · rw [Expr.node_of_getElem? hstored]
    · intro a m ha hstore
      rw [htree] at ha
      have hnone : ∀ b : Nat, d₂.tree.nodes[b]? ≠ some m := by
        intro b hb
        rw [(hkept.inner m (Array.mem_iff_getElem?.mpr ⟨b, hb⟩)).1] at hstore
        cases hstore
      rcases hsink.old_or_new a m ha with hold | ⟨-, rfl⟩
      · rcases hadds.lt_or_eq (Expr.lt_size_of_getElem? hold) with hlt | heq
        · rw [hadds.grows a _ (Expr.getElem?_eq_some_node hlt)] at hold
          exact absurd ((Expr.getElem?_eq_some_node hlt).trans hold) (hnone a)
        · exact heq
      · cases hstore

end Fusion

section Schedules

variable [Width] {s s' : Session} {f : Fusion} {ts : List Tensor} {result : Schedule}

theorem Session.Stocked.furnished (h : s.Stocked f.session f.storage) (hs : f.session.Proper) :
    f.Furnished := by
  intro v id l hv hsource
  rw [Fusion.source] at hsource
  split at hsource
  next target value hop =>
    split at hsource
    next id' hid =>
      cases hsource
      exact hs.typed_target hv hop hid
    next => cases hsource
  next hop =>
    split at hsource
    next id' hid =>
      cases hsource
      rcases (Option.orElse_eq_some _ _ _).mp hid with hstored | ⟨-, hgiven⟩
      · exact hs.typed _ _ hstored
      · -- A buffer was made for the node.
        have hnode : s.node v.node = f.session.node v.node := by
          rw [Session.node, Session.node, h.nodes_eq]
        refine ⟨_, ((h.given _ _ hgiven).of_not_assign ?_).2, ?_⟩
        · rw [Session.op, hnode]
          exact hop
        · rw [Session.freshBuffer, Session.dtype, hnode, Session.dtype]
    next => cases hsource

theorem Session.Coherent.dtype_storeTask (hs : s.Coherent) {root : Tensor} {output : BufferId}
    {task : StoreTask} (hroot : root < s.nodes.size) (h : s.storeTask root output = .ok task) :
    task.value < s.nodes.size ∧ s.dtype task.value = s.dtype root := by
  have hagrees := hs.agrees root hroot
  rcases storeTask_ok h with ⟨target, value, hop, -, htype, rfl⟩ | ⟨a, hop, rfl⟩ | ⟨-, -, rfl⟩
  · rw [Agrees, hop] at hagrees
    exact ⟨hs.source_lt hroot hop (.tail _ (.head _)), htype.trans hagrees.2.2⟩
  · rw [Agrees, hop] at hagrees
    exact ⟨hs.source_lt hroot hop (.head _), hagrees.2⟩
  · exact ⟨hroot, rfl⟩

theorem Tensor.consistent_of_schedule {config : ScheduleConfig} (hs : s.Proper)
    (hts : ∀ t ∈ ts, t < s.nodes.size) (hrun : (schedule ts config).run.run s = (.ok result, s'))
    {item : ScheduleItem} (hitem : item ∈ result.items) : item.Consistent s'.memory := by
  have hs' : s'.Proper := by
    have hrefills := allocates_schedule ts config s
    rw [hrun] at hrefills
    exact hs.refills hrefills
  obtain ⟨b, hb, htype⟩ := exists_dtype_output hs hts hrun hitem
  obtain ⟨p, kernels, ordered, k, h, hk, rfl⟩ := of_item hs.coherent hts hrun hitem
  obtain ⟨hpending, hbuild⟩ := h.buildKernel_eq hk
  have hnodes := h.rounds.stocked.nodes_eq
  have hroot : k.root < s'.nodes.size := by
    rw [hnodes]
    exact (hs.coherent.toCompute_pending hts).lt k.root hpending
  have hdtype : s'.dtype k.root = s.dtype k.root := by
    rw [Session.dtype, Session.node, hnodes, Session.dtype, Session.node]
  obtain ⟨output, task, store, t, rescoped, u, d, -, htask, -, hsink, hkernel, -⟩ :=
    Session.buildKernel_ok hbuild
  obtain ⟨hvalue, htask⟩ := hs'.coherent.dtype_storeTask hroot htask
  refine Fusion.consistent_sink (f := s'.fusion p config.maxViews k.root output store rescoped)
    hs'.coherent (h.rounds.stocked.furnished hs') hvalue ⟨b, ?_, ?_⟩ hsink
    (congrArg (·.item.tree) hkernel) (congrArg (·.item.buffers) hkernel)
  · rw [← show k.item.output = output from congrArg (·.item.output) hkernel]
    exact hb
  · exact htype.trans (hdtype.symm.trans htask.symm)

/-- An item is launched with different buffers, which its slots number from 0 on, with the one store in
slot 0 and each node of the type of its buffer. So the compiled kernel asks for these buffers, and
does not complain about their number or types. -/
theorem Tensor.schedule_interface {ts : List Tensor} {config : ScheduleConfig} {result : Schedule}
    (hs : s.Reached) (hts : ∀ t ∈ ts, t < s.nodes.size)
    (hrun : (schedule ts config).run.run s = (.ok result, s')) :
    ∀ item ∈ result.items, item.Consistent s'.memory ∧
      (∀ (options : CompileConfig) (k : LoweredKernel), lower item.tree options = .ok k →
        k.globals.length = item.buffers.length ∧
        ∀ (slot : Nat) (a : GlobalArg), k.globals[slot]? = some a →
          a.slot = slot ∧ (a.written = true ↔ slot = 0) ∧
          ∃ id b, item.buffers[slot]? = some id ∧ s'.memory.get? id = some b ∧ b.dtype = a.dtype) ∧
      ∀ options hash k, Kernel.compile item.tree options hash = .ok k →
        ∀ (vars : List (String × Int)) (m : Memory),
          (∀ id ∈ item.buffers, (m.get? id).map (·.dtype) = (s'.memory.get? id).map (·.dtype)) →
          ∀ e, ((k.run item.buffers vars).run.run { memory := m }).1 = .error e →
            e.isArgument = false := by
  intro item hitem
  have hconsistent := consistent_of_schedule hs.proper hts hrun hitem
  refine ⟨hconsistent, ?_, ?_⟩
  · intro options k hk
    rw [lower_globals hk]
    exact ⟨hconsistent.length_collectArgs, fun slot a ha => hconsistent.arg ha⟩
  · intro options hash k hk vars m hm e he
    exact hconsistent.isArgument_of_run hk hm he

end Schedules

section Accumulated

/-- Two numbers to which two others are added in place. -/
def accumulated : Session :=
  letI := Width.word64
  Session.after (Session.after (Session.after
    (Session.after {} (Tensor.ofValues .int32 [.int 1, .int 2]))
    (Tensor.ofValues .int32 [.int 10, .int 20])) (Tensor.add 0 1)) (Tensor.assign 0 2)

/-- The buffer that is written is read as well, under the same number. -/
theorem Tensor.schedule_interface_accumulated :
    @Session.Reached .word64 accumulated ∧ (∀ t ∈ [3], t < accumulated.nodes.size) ∧
      ∃ result s', (@Tensor.schedule .word64 [3] {}).run.run accumulated = (.ok result, s') ∧
        result.items.map (·.buffers) = [[0, 1]] ∧
        ∀ item ∈ result.items, item.Consistent s'.memory ∧
          ∃ k, @Kernel.compile .word64 item.tree {} (fun _ _ => 0) = .ok k ∧
            ∀ e, ((k.run item.buffers []).run.run { memory := s'.memory }).1 = .error e →
              e.isArgument = false := by
  let := Width.word64
  have hreached : accumulated.Reached :=
    .call (.call (.call (.call .empty (.values _ _)) (.values _ _))
      (.binary (by decide +kernel) (by decide +kernel) add_named))
      (.assign (by decide +kernel) (by decide +kernel))
  have hts : ∀ t ∈ [3], t < accumulated.nodes.size := by decide +kernel
  have hitems : ((Tensor.schedule [3] {}).run.run accumulated).1.toOption.map (·.items.map fun item =>
      (item.buffers, (Kernel.compile item.tree {}).toOption.isSome)) = some [([0, 1], true)] := by
    decide +kernel
  refine ⟨hreached, hts, ?_⟩
  obtain ⟨result, s', hrun, hmap⟩ := exists_of_toOption_map hitems
  simp only [List.map_eq_cons_iff, List.map_eq_nil_iff, Prod.mk.injEq] at hmap
  obtain ⟨item, -, hresult, ⟨hbuffers, hcompiles⟩, rfl⟩ := hmap
  have hinterface := Tensor.schedule_interface hreached hts hrun
  rw [hresult] at hinterface
  refine ⟨result, _, hrun, ?_, ?_⟩
  · rw [hresult, List.map_singleton, hbuffers]
  · rw [hresult]
    intro other hother
    obtain rfl := List.mem_singleton.mp hother
    obtain ⟨hconsistent, -, hruns⟩ := hinterface other hother
    refine ⟨hconsistent, ?_⟩
    rcases hk : Kernel.compile other.tree {} with _ | k
    · rw [hk] at hcompiles
      cases hcompiles
    · exact ⟨k, rfl, hruns {} _ k hk [] _ fun _ _ => rfl⟩

end Accumulated

end LazyTensor

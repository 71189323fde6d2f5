import LazyTensor.Proofs.Lower.Arguments
import LazyTensor.Proofs.Schedule.Reuse

/-!
# Tensors that were computed keep their values

A kernel changes its output buffer and nothing else. The buffer that a session keeps for a tensor is
the output of no later kernel, unless it is assigned to, so the tensor keeps the contents that its own
kernel stored, whatever becomes of the buffers that it was computed from.
-/

namespace LazyTensor

/-! ### Items -/

variable {m : Memory} {id : BufferId} {data : Array UInt8}

theorem ScheduleItem.Consistent.head?_of_mayWrite [Width] {i : ScheduleItem} (h : i.Consistent m)
    {config : CompileConfig} {hash : NodeHash} {k : Kernel}
    (hk : Kernel.compile i.tree config hash = .ok k) {buffers : List BufferId}
    (hid : k.MayWrite buffers id) : buffers.head? = some id := by
  obtain ⟨slot, ⟨a, ha, rfl, hwritten⟩, hslot⟩ := Kernel.isWritten_of_mayWrite hk hid
  obtain ⟨j, hj⟩ := List.mem_iff_getElem?.mp ha
  obtain ⟨hslot', hzero, -⟩ := h.arg hj
  obtain rfl := hzero.mp hwritten
  have hmem := mem_of_lookup hslot
  rw [hslot', Kernel.slots, Kernel.compile_globals hk, List.mem_reverse, List.mem_map] at hmem
  obtain ⟨⟨a', id'⟩, hzip, hpair⟩ := hmem
  obtain ⟨hslot₀, rfl⟩ := Prod.mk.inj hpair
  -- slots number the buffers, so the one in slot 0 is the first
  obtain ⟨l, hl⟩ := List.mem_iff_getElem?.mp hzip
  obtain ⟨ha', hid'⟩ := List.getElem?_zip_eq_some.mp hl
  obtain rfl : l = 0 := (h.arg ha').1.symm.trans hslot₀
  rwa [List.head?_eq_getElem?]

/-! ### Caches -/

/-- Every kernel of the cache was compiled from the tree that it stands for. -/
def Runner.Honest [Width] (r : Runner) : Prop :=
  ∀ x ∈ r.cache.kernels, ∃ config hash, Kernel.compile x.1.1 config hash = .ok x.2

namespace Runner

variable [Width] {r r' : Runner} {s s' : Session} {i : ScheduleItem} {config : CompileConfig}
  {hash : NodeHash} {e : Expr} {k : Kernel}

theorem compile_of_compileTree (h : compileTree config hash e = .ok k) :
    Kernel.compile e config hash = .ok k := by
  rw [compileTree] at h
  obtain ⟨k', hk, h⟩ := bind_eq_ok h
  obtain ⟨p, -, h⟩ := bind_eq_ok h
  cases h
  cases hcompile : Kernel.compile e config hash with
  | error err =>
    rw [hcompile] at hk
    cases hk
  | ok k' =>
    rw [hcompile] at hk
    cases hk
    rfl

/-- Whether found or compiled, the kernel comes from the tree, and the cache stays honest. -/
theorem getOrCompile_ok {cache : KernelCache} {device : String} (hr : r.Honest)
    (h : r.cache.getOrCompile e device (compileTree config hash e) = (.ok k, cache)) :
    { r with cache }.Honest ∧ ∃ config hash, Kernel.compile e config hash = .ok k := by
  unfold KernelCache.getOrCompile at h
  cases hlookup : r.cache.kernels.lookup (e, device) with
  | some k' =>
    rw [hlookup] at h
    cases h
    exact ⟨hr, hr ((e, device), k) (mem_of_lookup hlookup)⟩
  | none =>
    rw [hlookup] at h
    cases hcompile : compileTree config hash e with
    | error err =>
      rw [hcompile] at h
      cases h
    | ok k' =>
      rw [hcompile] at h
      cases h
      have hk := compile_of_compileTree hcompile
      exact ⟨List.forall_mem_cons.mpr ⟨⟨_, _, hk⟩, hr⟩, _, _, hk⟩

omit [Width] in
theorem ok_of_bind {α β : Type} {act : RealizeM α} {f : α → RealizeM β} {b : β}
    (h : ((act >>= f).run.run r).run s = ((.ok b, r'), s')) :
    ∃ a r₁ s₁, (act.run.run r).run s = ((.ok a, r₁), s₁) ∧
      ((f a).run.run r₁).run s₁ = ((.ok b, r'), s') := by
  rw [run_bind] at h
  generalize (act.run.run r).run s = result at h ⊢
  obtain ⟨⟨_ | a, r₁⟩, s₁⟩ := result
  · cases h
  · exact ⟨a, r₁, s₁, rfl, h⟩

theorem kernelFor_ok (hr : r.Honest) (h : ((kernelFor i).run.run r).run s = ((.ok k, r'), s')) :
    s' = s ∧ r'.Honest ∧ ∃ config hash, Kernel.compile i.tree config hash = .ok k := by
  rw [kernelFor, run_get_bind, run_getSession_bind] at h
  generalize ((s.memory.get? i.output).map (·.device.text)).getD "" = device at h
  rcases hget : r.cache.getOrCompile i.tree device (compileTree r.compile r.hash i.tree)
    with ⟨_ | k', cache⟩
  · simp only [hget] at h
    cases h
  · simp only [hget] at h
    cases h
    exact ⟨rfl, getOrCompile_ok hr hget⟩

end Runner

/-- An item that fits its tree, whose buffers may have been replaced by others. -/
def ScheduleItem.Placed (i : ScheduleItem) : Prop :=
  ∃ (j : ScheduleItem) (m : Memory), j.Consistent m ∧ i.tree = j.tree ∧
    i.buffers.length = j.buffers.length

namespace Runner

variable [Width] {r r' : Runner} {s s' : Session} {i : ScheduleItem} {u : Unit}

theorem runItem_ok (hr : r.Honest) (hi : i.Placed)
    (h : ((runItem i).run.run r).run s = ((.ok u, r'), s')) :
    r'.Honest ∧ s'.nodes = s.nodes ∧ s.memory.Alters (· = i.output) s'.memory ∧
      ∃ b, s'.memory.get? i.output = some b ∧ b.isAllocated = true := by
  obtain ⟨k, r₁, s₁, hkernel, hlaunch⟩ := ok_of_bind h
  obtain ⟨rfl, hr₁, config, hash, hk⟩ := kernelFor_ok hr hkernel
  obtain ⟨j, m, hj, htree, hlength⟩ := hi
  rw [htree] at hk
  rw [run_getSession_bind] at hlaunch
  have halters := k.alters_run i.buffers i.vars s₁.memory
  rcases hrun : (k.run i.buffers i.vars).run.run { memory := s₁.memory } with ⟨_ | v, state⟩
  all_goals
    rw [hrun] at halters
    change (k.run i.buffers i.vars).run { memory := s₁.memory } = _ at hrun
    rw [hrun] at hlaunch
    cases hlaunch
  have hcount : i.buffers.length = k.globals.length := by
    rw [Kernel.compile_globals hk, hj.length_collectArgs, hlength]
  refine ⟨hr₁, rfl, halters.mono fun id hid => ?_, ?_⟩
  · exact (Option.some.inj (hj.head?_of_mayWrite hk hid)).symm
  · exact Kernel.allocated_of_run hcount hrun List.mem_cons_self

theorem forM_runItem_ok (hr : r.Honest) {items : List ScheduleItem} (hi : ∀ i ∈ items, i.Placed)
    (h : ((items.forM runItem).run.run r).run s = ((.ok u, r'), s')) :
    r'.Honest ∧ s'.nodes = s.nodes ∧
      s.memory.Alters (fun id => ∃ i ∈ items, i.output = id) s'.memory := by
  induction items generalizing r s with
  | nil =>
    cases h
    exact ⟨hr, rfl, .refl _ _⟩
  | cons i items ih =>
    obtain ⟨v, r₁, s₁, hfirst, hrest⟩ := ok_of_bind h
    obtain ⟨hi, hitems⟩ := List.forall_mem_cons.mp hi
    obtain ⟨hr₁, hnodes₁, halters₁, -⟩ := runItem_ok hr hi hfirst
    obtain ⟨hr', hnodes, halters⟩ := ih hr₁ hitems hrest
    refine ⟨hr', hnodes.trans hnodes₁, ?_⟩
    refine (halters₁.mono ?_).trans (halters.mono ?_)
    · exact fun id hid => ⟨i, List.mem_cons_self, hid.symm⟩
    · exact fun id ⟨j, hj, hid⟩ => ⟨j, List.mem_cons_of_mem i hj, hid⟩

end Runner

/-! ### Planned schedules -/

theorem Schedule.home_eq_iff {schedule : Schedule} {x : BufferId} (hid : ¬ schedule.Plans m id) :
    (schedule.planMemory m).home x = id ↔ x = id := by
  by_cases hx : schedule.Plans m x
  · have hne : x ≠ id := fun heq => hid (heq ▸ hx)
    have hhome : (schedule.planMemory m).home x ≠ id := fun heq => hid (heq ▸ plans_home hx)
    exact iff_of_false hhome hne
  · rw [home_of_not_plans hx]

namespace Runner

variable {r r' : Runner} {schedule : Schedule} {m : Memory} {id : BufferId}

/-- The schedule that is run, with buffers replaced as configured. -/
def plan (r : Runner) (schedule : Schedule) (m : Memory) : Schedule :=
  if r.schedule.reuseBuffers then schedule.replaceBuffers (schedule.planMemory m) else schedule

/-- Where a buffer of the schedule is kept. -/
def home (r : Runner) (schedule : Schedule) (m : Memory) (id : BufferId) : BufferId :=
  if r.schedule.reuseBuffers then (schedule.planMemory m).home id else id

/-- A buffer that stays where it is. -/
def Fixes (r : Runner) (schedule : Schedule) (m : Memory) (id : BufferId) : Prop :=
  r.schedule.reuseBuffers = true → ¬ schedule.Plans m id

theorem Fixes.home_eq_iff (h : r.Fixes schedule m id) {x : BufferId} :
    r.home schedule m x = id ↔ x = id := by
  rw [home]
  by_cases hreuse : r.schedule.reuseBuffers = true
  · rw [if_pos hreuse]
    exact Schedule.home_eq_iff (h hreuse)
  · rw [if_neg hreuse]

theorem items_plan (r : Runner) (schedule : Schedule) (m : Memory) :
    (r.plan schedule m).items = schedule.items.map fun i =>
      { i with output := r.home schedule m i.output
               inputs := i.inputs.map (r.home schedule m) } := by
  rw [plan]
  by_cases hreuse : r.schedule.reuseBuffers = true
  · have hhome : r.home schedule m = (schedule.planMemory m).home := by
      funext id
      rw [home, if_pos hreuse]
    rw [if_pos hreuse, hhome]
    rfl
  · have hhome : r.home schedule m = id := by
      funext id
      rw [home, if_neg hreuse, id_eq]
    rw [if_neg hreuse, hhome]
    simp

theorem outputs_plan (r : Runner) (schedule : Schedule) (m : Memory) :
    (r.plan schedule m).outputs = schedule.outputs := by
  rw [plan]
  split
  · rfl
  · rfl

theorem fixes_of_isAllocated {b : Buffer} (hb : m.get? id = some b) (halloc : b.isAllocated = true) :
    r.Fixes schedule m id := by
  intro _ hplans
  have hfree := hplans.not_allocated
  rw [Memory.isAllocated, hb, Option.any_some, halloc] at hfree
  cases hfree

theorem fixes_of_mem_outputs (hid : id ∈ schedule.outputs) : r.Fixes schedule m id :=
  fun _ hplans => hplans.not_output hid

end Runner

/-! ### Where tensors are kept -/

namespace Session

variable {s s' s'' : Session} {id : BufferId} {i : ScheduleItem}

/-- Nodes stay what they are, and what is stored stays where it is. -/
structure Persists (s s' : Session) : Prop where
  size_le : s.nodes.size ≤ s'.nodes.size
  op_eq : ∀ t < s.nodes.size, s'.op t = s.op t
  storage_eq : ∀ t id, s.storage t = some id → s'.storage t = some id

theorem Persists.refl (s : Session) : s.Persists s := ⟨le_rfl, fun _ _ => rfl, fun _ _ h => h⟩

theorem Persists.trans (h : s.Persists s') (h' : s'.Persists s'') : s.Persists s'' where
  size_le := h.size_le.trans h'.size_le
  op_eq t ht := (h'.op_eq t (ht.trans_le h.size_le)).trans (h.op_eq t ht)
  storage_eq t id hid := h'.storage_eq t id (h.storage_eq t id hid)

theorem Persists.of_nodes_eq (h : s'.nodes = s.nodes) : s.Persists s' := by
  obtain ⟨nodes, m⟩ := s'
  obtain rfl : nodes = s.nodes := h
  exact ⟨le_rfl, fun _ _ => rfl, fun _ _ h => h⟩

theorem Grows.persists (h : s.Grows s') : s.Persists s' where
  size_le := h.size_le
  op_eq _ ht := h.op_eq ht
  storage_eq _ _ hid := (h.storage_eq (lt_of_storage hid)).trans hid

/-- The item assigns to the buffer. -/
def Overwrites (s : Session) (id : BufferId) (i : ScheduleItem) : Prop :=
  (s.op i.root).isAssign = true ∧ i.output = id

instance (s : Session) (id : BufferId) (i : ScheduleItem) : Decidable (s.Overwrites id i) :=
  inferInstanceAs (Decidable (_ ∧ _))

theorem Persists.overwrites (h : s.Persists s') (hi : s.Overwrites id i) : s'.Overwrites id i := by
  obtain ⟨hassign, houtput⟩ := hi
  have hlt : i.root < s.nodes.size := by
    apply lt_of_op rfl
    intro hop
    rw [hop] at hassign
    cases hassign
  exact ⟨by rw [h.op_eq _ hlt, hassign], houtput⟩

end Session

/-! ### Commits -/

namespace Session

variable {s : Session} {t : Tensor} {keep : ScheduleItem → Bool} {items : List ScheduleItem}

def note (keep : ScheduleItem → Bool) (s : Session) (i : ScheduleItem) : Session :=
  if keep i then s.setStorage i.root i.output else s

theorem storage_setStorage_eq (s : Session) (t : Tensor) (id : BufferId) (u : Tensor) :
    (s.setStorage t id).storage u = if u = t ∧ u < s.nodes.size then some id else s.storage u := by
  rw [storage]
  change (Session.node { s.setStorage t id with memory := s.memory } u).storage = _
  rw [node_setStorage]
  split
  · rfl
  · rfl

theorem note_spec (keep : ScheduleItem → Bool) (s : Session) (i : ScheduleItem) :
    (s.note keep i).nodes.size = s.nodes.size ∧ (s.note keep i).memory = s.memory ∧
      ∀ t < s.nodes.size, (s.note keep i).op t = s.op t := by
  rw [note]
  split
  · have hkeeps := keeps_setStorage s i.root i.output s.memory
    exact ⟨Array.size_modify, rfl, hkeeps.op_eq⟩
  · exact ⟨rfl, rfl, fun _ _ => rfl⟩

theorem foldl_note_spec (keep : ScheduleItem → Bool) (items : List ScheduleItem) (s : Session) :
    (items.foldl (note keep) s).nodes.size = s.nodes.size ∧
      (items.foldl (note keep) s).memory = s.memory ∧
      ∀ t < s.nodes.size, (items.foldl (note keep) s).op t = s.op t := by
  induction items generalizing s with
  | nil => exact ⟨rfl, rfl, fun _ _ => rfl⟩
  | cons i items ih =>
    obtain ⟨hsize, hmemory, hop⟩ := note_spec keep s i
    obtain ⟨hsize', hmemory', hop'⟩ := ih (s.note keep i)
    refine ⟨hsize'.trans hsize, hmemory'.trans hmemory, fun t ht => ?_⟩
    exact (hop' t (hsize ▸ ht)).trans (hop t ht)

theorem storage_foldl_note_of_forall (h : ∀ i ∈ items, i.root = t → keep i = false) :
    (items.foldl (note keep) s).storage t = s.storage t := by
  induction items generalizing s with
  | nil => rfl
  | cons i items ih =>
    obtain ⟨hi, hitems⟩ := List.forall_mem_cons.mp h
    rw [List.foldl_cons, ih hitems, note]
    split
    next hkeep =>
      rw [storage_setStorage_eq, if_neg]
      rintro ⟨rfl, -⟩
      rw [hi rfl] at hkeep
      cases hkeep
    next => rfl

theorem storage_foldl_note_of_mem (hnodup : (items.map (·.root)).Nodup) {i : ScheduleItem}
    (hi : i ∈ items) (hkeep : keep i = true) (hlt : i.root < s.nodes.size) :
    (items.foldl (note keep) s).storage i.root = some i.output := by
  induction items generalizing s with
  | nil => cases hi
  | cons j items ih =>
    rw [List.map_cons, List.nodup_cons] at hnodup
    rw [List.foldl_cons]
    rcases List.mem_cons.mp hi with rfl | hi
    · rw [storage_foldl_note_of_forall, note, if_pos hkeep, storage_setStorage_eq,
        if_pos ⟨rfl, hlt⟩]
      intro k hk hroot
      exact absurd (hroot ▸ List.mem_map_of_mem hk) hnodup.1
    · exact ih hnodup.2 hi ((note_spec keep s j).1 ▸ hlt)

end Session

theorem Runner.memory_commit (schedule : Schedule) (keepAll : Bool) (s : Session) :
    (commit schedule keepAll s).memory = s.memory :=
  (Session.foldl_note_spec _ _ _).2.1

/-! ### Reading what is stored -/

namespace Fusion

variable [Width] {f : Fusion} {d d' : Draft} {v : Visit} {n a : Tensor} {id : BufferId} {i : Nat}

/-- Wherever the node was visited, the tree loads it from the buffer, as the visit sees it. -/
def Loads (f : Fusion) (n : Tensor) (id : BufferId) (d : Draft) : Prop :=
  ∀ v k, (v, k) ∈ d.visited → v.node = n → ∃ m slot, d.tree.nodes[k]? = some m ∧
    m.op = .load slot v.layout.unbind.1 ∧ (f.output :: d.inputs)[slot]? = some id

theorem source_of_storage (hop : ∀ target value, f.session.op n ≠ .assign target value)
    (hid : f.session.storage n = some id) (hv : v.node = n) : f.source v = .ok (id, v.layout) := by
  rw [source]
  subst hv
  rw [hid]
  split
  next target value hassign => exact absurd hassign (hop target value)
  next => rfl

theorem Loads.extends (h : f.Loads n id d) (hextends : d.Extends d')
    (hvisited : d'.visited = d.visited) :
    f.Loads n id d' := by
  intro v k hv hn
  obtain ⟨m, slot, hm, hop, hslot⟩ := h v k (hvisited ▸ hv) hn
  exact ⟨m, slot, hextends.tree k m hm, hop, hextends.slot hslot⟩

theorem Loads.place (h : f.Loads n id d) {tree : Expr} (hgrows : d.tree.Grows tree)
    (hv : v.node = n → ∃ m slot, tree.nodes[i]? = some m ∧ m.op = .load slot v.layout.unbind.1 ∧
      (f.output :: d.inputs)[slot]? = some id) : f.Loads n id (d.place v i tree) := by
  intro w k hw hn
  rcases List.mem_cons.mp hw with heq | hw
  · cases heq
    exact hv hn
  · obtain ⟨m, slot, hm, hop, hslot⟩ := h w k hw hn
    exact ⟨m, slot, hgrows k m hm, hop, hslot⟩

/-- A copy that is stored is not computed again, so it can only be loaded. -/
theorem Fuses.loads (hop : f.session.op n = .contiguous a) (hid : f.session.storage n = some id)
    (h : f.Fuses d v i d') (hd : f.Loads n id d) : f.Loads n id d' := by
  have hother : ∀ {v : Visit} {o : TensorOp} {P : Prop}, f.session.op v.node = o →
      o ≠ .contiguous a → v.node = n → P := fun ho hne hv => absurd (ho ▸ hv ▸ hop) hne
  induction h with
  | known _ => exact hd
  | const ho hnotes hadds =>
    exact (hd.extends hnotes.extends hnotes.visited_eq).place hadds.grows (hother ho nofun)
  | @load d d₁ v i slot tree id' l _ hsource htakes _ hadds =>
    have hextends := (extends_noteLoad ..).trans htakes.extends
    have hvisited : d₁.visited = d.visited := htakes.visited_eq.trans (noteLoad_visited ..)
    refine (hd.extends hextends hvisited).place hadds.grows fun hv => ?_
    rw [source_of_storage (fun _ _ h => by rw [hop] at h; cases h) hid hv] at hsource
    cases hsource
    exact ⟨_, slot, hadds.getElem?, rfl, htakes.slot_eq⟩
  | unary ho _ hadds ih | cast ho _ hadds ih => exact (ih hd).place hadds.grows (hother ho nofun)
  | binary ho _ _ _ hadds iha ihb => exact (ihb (iha hd)).place hadds.grows (hother ho nofun)
  | ternary ho _ _ _ _ hadds iha ihb ihc =>
    exact (ihc (ihb (iha hd))).place hadds.grows (hother ho nofun)
  | reduce ho _ _ hnotes _ hadds ih =>
    exact (ih (hd.extends hnotes.extends hnotes.visited_eq)).place hadds.grows (hother ho nofun)

theorem loads_of_sink (hop : f.session.op n = .contiguous a) (hid : f.session.storage n = some id)
    {value : Tensor} {shape : Shape} {u : Unit} (h : (f.sink value shape).run {} = .ok (u, d)) :
    f.Loads n id d := by
  obtain ⟨top, x, d₁, d₂, e, j, k, -, hfuses, hnotes, -, hadds, hsink, hd⟩ := sink_ok h
  have hempty : f.Loads n id {} := nofun
  have hd₂ := (hfuses.loads hop hid hempty).extends hnotes.extends hnotes.visited_eq
  have hextends : d₂.Extends { d₂ with tree := d.tree } :=
    ⟨List.prefix_rfl, fun _ ht => ht, hadds.grows.trans hsink.grows⟩
  rw [hd]
  exact hd₂.extends hextends rfl

end Fusion

/-- Wherever the kernel of an item comes upon the node, it loads it from the buffer. -/
def ScheduleItem.LoadsFrom [Width] (i : ScheduleItem) (s : Session) (n : Tensor) (id : BufferId) :
    Prop :=
  ∃ (f : Fusion) (value : Tensor) (shape : Shape) (d : Draft), f.session.nodes = s.nodes ∧
    f.root = i.root ∧ (f.sink value shape).run {} = .ok ((), d) ∧ i.tree = d.tree ∧
    ∀ v k, (v, k) ∈ d.visited → v.node = n → ∃ m slot, i.tree.nodes[k]? = some m ∧
      m.op = .load slot v.layout.unbind.1 ∧ i.buffers[slot]? = some id

/-! ### Realizing tensors -/

namespace Runner

variable [Width] {r r' : Runner} {s s' : Session} {ts : List Tensor} {done todo : List ScheduleItem}

/-- The items that are run to realize some tensors. -/
def planned (r : Runner) (s : Session) (ts : List Tensor) : List ScheduleItem :=
  let y := (Tensor.schedule ts r.schedule).run.run s
  y.1.toOption.elim [] fun schedule => (r.plan schedule y.2.memory).items

theorem planned_eq {schedule : Schedule} {s₀ : Session}
    (h : (Tensor.schedule ts r.schedule).run.run s = (.ok schedule, s₀)) :
    r.planned s ts = (r.plan schedule s₀.memory).items := by
  rw [planned, h]
  rfl

/-- A state while some tensors are realized, after some of the kernels have been run. -/
def Realizing (r : Runner) (s : Session) (ts : List Tensor) (done todo : List ScheduleItem)
    (r' : Runner) (s' : Session) : Prop :=
  ∃ schedule s₀, (Tensor.schedule ts r.schedule).run.run s = (.ok schedule, s₀) ∧
    (r.plan schedule s₀.memory).items = done ++ todo ∧
    ((done.forM runItem).run.run r).run s₀ = ((.ok (), r'), s')

theorem realize_ok {u : Unit} (h : ((realize ts).run.run r).run s = ((.ok u, r'), s')) :
    ∃ schedule s₀ s₁, (Tensor.schedule ts r.schedule).run.run s = (.ok schedule, s₀) ∧
      (((r.plan schedule s₀.memory).items.forM runItem).run.run r).run s₀ = ((.ok (), r'), s₁) ∧
      s' = commit (r.plan schedule s₀.memory) (!r.schedule.reuseBuffers) s₁ := by
  rw [realize, run_get_bind] at h
  obtain ⟨schedule, r₁, s₀, hschedule, hrest⟩ := ok_of_bind h
  rw [run_liftTensor, Prod.mk.injEq, Prod.mk.injEq] at hschedule
  obtain ⟨⟨hok, rfl⟩, hs₀⟩ := hschedule
  by_cases hempty : schedule.items.isEmpty = true
  · rw [if_pos hempty] at hrest
    cases hrest
    have hitems : (r.plan schedule s'.memory).items = [] := by
      rw [items_plan, List.isEmpty_iff.mp hempty, List.map_nil]
    refine ⟨schedule, s', s', Prod.ext hok hs₀, ?_, ?_⟩
    · rw [hitems]
      rfl
    · rw [commit, hitems]
      rfl
  · rw [if_neg hempty, run_getSession_bind] at hrest
    obtain ⟨v, r₂, s₁, hitems, hcommit⟩ := ok_of_bind hrest
    rw [run_getSession_bind] at hcommit
    cases hcommit
    exact ⟨schedule, s₀, s₁, Prod.ext hok hs₀, hitems, rfl⟩

/-! ### Schedules of proper sessions -/

section Schedules

variable {schedule : Schedule} {s₀ : Session} {config : ScheduleConfig} {i j : ScheduleItem}
  {id : BufferId}

omit [Width] in
theorem exists_of_mem_plan (hi : i ∈ (r.plan schedule m).items) :
    ∃ j ∈ schedule.items, i.root = j.root ∧ i.tree = j.tree ∧
      i.buffers = j.buffers.map (r.home schedule m) := by
  rw [items_plan] at hi
  obtain ⟨j, hj, rfl⟩ := List.mem_map.mp hi
  exact ⟨j, hj, rfl, rfl, rfl⟩

variable (hs : s.Proper) (hts : ∀ t ∈ ts, t < s.nodes.size)
  (hrun : (Tensor.schedule ts config).run.run s = (.ok schedule, s₀))

include hs hts hrun

theorem memory_schedule :
    s₀.nodes = s.nodes ∧ ∀ id b, s.memory.get? id = some b → s₀.memory.get? id = some b := by
  obtain ⟨p, kernels, ordered, h⟩ := Tensor.of_schedule hs.coherent hts hrun
  exact ⟨h.rounds.stocked.nodes_eq, h.rounds.stocked.kept⟩

theorem item_spec (hj : j ∈ schedule.items) :
    s.storage j.root = none ∧ j.root < s.nodes.size ∧ j.Consistent s₀.memory ∧
      (s.memory.buffers.size ≤ j.output ∨ (s.op j.root).isAssign = true) := by
  have hconsistent := Tensor.consistent_of_schedule hs hts hrun hj
  obtain ⟨p, kernels, ordered, k, h, hk, rfl⟩ := Tensor.of_item hs.coherent hts hrun hj
  have hpending := (h.buildKernel_eq hk).1
  have hcompute := hs.coherent.toCompute_pending hts
  have hstored : s.isStored k.root = false := hcompute.isStored k.root hpending
  refine ⟨?_, hcompute.lt k.root hpending, hconsistent, ?_⟩
  · exact Option.not_isSome_iff_eq_none.mp (Bool.eq_false_iff.mp hstored)
  obtain ⟨-, hgiven, ⟨⟨target, value, hop⟩, -⟩ | ⟨hop, -⟩⟩ := h.output_given hk
  · have hassign : (s.op k.root).isAssign = true := by
      rw [hop]
      rfl
    exact .inr hassign
  · exact .inl (hgiven.of_not_assign hop).1

theorem nodup_roots (m : Memory) : ((r.plan schedule m).items.map (·.root)).Nodup := by
  obtain ⟨p, kernels, ordered, h⟩ := Tensor.of_schedule hs.coherent hts hrun
  rw [items_plan, h.items_eq, List.map_map, List.map_map, List.Nodup, List.pairwise_map]
  exact (FusedKernel.pairwise_orderFrom h.orderFrom_eq).2.imp fun hne => hne.1.symm

theorem root_eq_of_output (hi : i ∈ schedule.items) (hj : j ∈ schedule.items)
    (hop : ∀ target value, s.op i.root ≠ .assign target value)
    (houtput : j.output = i.output) : j.root = i.root := by
  obtain ⟨p, kernels, ordered, h⟩ := Tensor.of_schedule hs.coherent hts hrun
  rw [h.items_eq] at hi hj
  obtain ⟨k, hk, rfl⟩ := List.mem_map.mp hi
  obtain ⟨l, hl, rfl⟩ := List.mem_map.mp hj
  have hlookup := (h.output_given hl).1
  rw [houtput] at hlookup
  exact (h.rounds.stocked.apart _ _ _ (h.output_given hk).1 hlookup hop).symm

theorem output_mem_outputs (hi : i ∈ schedule.items) (hroot : i.root ∈ ts.map s.base) :
    i.output ∈ schedule.outputs := by
  obtain ⟨p, kernels, ordered, k, h, hk, rfl⟩ := Tensor.of_item hs.coherent hts hrun hi
  obtain ⟨t, ht, hbase⟩ := List.mem_map.mp hroot
  have hlookup := (h.output_given hk).1
  rw [h.outputs_eq, mem_insertElems, List.mem_append, List.mem_filterMap]
  exact .inl (.inl ⟨t, ht, by rw [hbase]; exact hlookup⟩)

theorem placed_of_mem_plan (hi : i ∈ (r.plan schedule m).items) : i.Placed := by
  obtain ⟨j, hj, -, htree, hbuffers⟩ := exists_of_mem_plan hi
  obtain ⟨-, -, hconsistent, -⟩ := item_spec hs hts hrun hj
  exact ⟨j, _, hconsistent, htree, by rw [hbuffers, List.length_map]⟩

theorem loadsFrom_of_mem_plan {n a : Tensor} (hop : s.op n = .contiguous a)
    (hid : s.storage n = some id) (hfixes : r.Fixes schedule m id)
    (hi : i ∈ (r.plan schedule m).items) : i.LoadsFrom s n id := by
  obtain ⟨j, hj, hroot, htree, hbuffers⟩ := exists_of_mem_plan hi
  obtain ⟨p, kernels, ordered, k, h, hk, rfl⟩ := Tensor.of_item hs.coherent hts hrun hj
  have hnodes := h.rounds.stocked.nodes_eq
  obtain ⟨output, task, store, t, rescoped, u, d, -, -, -, hsink, hkernel, -⟩ :=
    Session.buildKernel_ok (h.buildKernel_eq hk).2
  have hktree : k.item.tree = d.tree := congrArg (·.item.tree) hkernel
  have hkslot (slot : Nat) : k.item.buffers[slot]? = (output :: d.inputs)[slot]? :=
    congrArg (·.item.buffers[slot]?) hkernel
  have hnode : s₀.node n = s.node n := by rw [Session.node, hnodes, Session.node]
  have hloads : (s₀.fusion p config.maxViews k.root output store rescoped).Loads n id d := by
    apply Fusion.loads_of_sink _ _ hsink
    · exact a
    · exact (congrArg TensorNode.op hnode).trans hop
    · exact (congrArg TensorNode.storage hnode).trans hid
  refine ⟨_, task.value, _, d, hnodes, hroot.symm, hsink, htree.trans hktree, fun v l hv hn => ?_⟩
  obtain ⟨node, slot, hnode, hload, hslot⟩ := hloads v l hv hn
  refine ⟨node, slot, ?_, hload, ?_⟩
  · rw [htree, hktree]
    exact hnode
  · rw [hbuffers, List.getElem?_map, (hkslot slot).trans hslot, Option.map_some,
      hfixes.home_eq_iff.mpr rfl]

end Schedules

/-! ### Buffers that are not assigned to -/

section Untouched

variable {b : Buffer} {id : BufferId} (hs : s.Proper) (hts : ∀ t ∈ ts, t < s.nodes.size)

include hs hts

section Realizing

variable (h : Realizing r s ts done todo r' s') (hb : s.memory.get? id = some b)
  (halloc : b.isAllocated = true)

include h hb halloc

theorem Realizing.overwrites : ∀ i ∈ done ++ todo, i.output = id → s.Overwrites id i := by
  obtain ⟨schedule, s₀, hschedule, hitems, -⟩ := h
  have hb₀ := (memory_schedule hs hts hschedule).2 id b hb
  rw [← hitems]
  intro i hi heq
  refine ⟨?_, heq⟩
  obtain ⟨j, hj, hroot, -, hbuffers⟩ := exists_of_mem_plan hi
  have hhome : r.home schedule s₀.memory j.output = id := (List.cons.inj hbuffers).1 ▸ heq
  rw [(fixes_of_isAllocated hb₀ halloc).home_eq_iff] at hhome
  obtain ⟨-, -, -, hnew | hassign⟩ := item_spec hs hts hschedule hj
  · have hold : id < s.memory.buffers.size := (Array.getElem?_eq_some_iff.mp hb).1
    exact absurd hold (Nat.not_lt_of_le (hhome ▸ hnew))
  · rw [hroot, hassign]

theorem Realizing.kept (hr : r.Honest) (hid : ∀ i ∈ done, ¬ s.Overwrites id i) :
    s'.memory.get? id = some b := by
  have hoverwrites := h.overwrites hs hts hb halloc
  obtain ⟨schedule, s₀, hschedule, hitems, hrun⟩ := h
  have hb₀ := (memory_schedule hs hts hschedule).2 id b hb
  have hplaced : ∀ i ∈ done, i.Placed := fun i hi =>
    placed_of_mem_plan hs hts hschedule (hitems ▸ List.mem_append_left todo hi)
  obtain ⟨-, -, halters⟩ := forM_runItem_ok hr hplaced hrun
  refine halters.kept id b ?_ hb₀ halloc
  rintro ⟨i, hi, heq⟩
  exact hid i hi (hoverwrites i (List.mem_append_left todo hi) heq)

theorem Realizing.loads {n a : Tensor} (hop : s.op n = .contiguous a) (hid : s.storage n = some id) :
    ∀ i ∈ done ++ todo, i.root ≠ n ∧ i.LoadsFrom s n id := by
  obtain ⟨schedule, s₀, hschedule, hitems, -⟩ := h
  have hb₀ := (memory_schedule hs hts hschedule).2 id b hb
  rw [← hitems]
  refine fun i hi => ⟨?_, loadsFrom_of_mem_plan hs hts hschedule hop hid
    (fixes_of_isAllocated hb₀ halloc) hi⟩
  rintro rfl
  obtain ⟨j, hj, hroot, -⟩ := exists_of_mem_plan hi
  have hnone := (item_spec hs hts hschedule hj).1
  rw [← hroot, hid] at hnone
  cases hnone

end Realizing

/-- Realizing tensors keeps the cache honest, what is stored, and the contents of what is not
assigned to. -/
theorem realize_spec (hr : r.Honest) {u : Unit}
    (h : ((realize ts).run.run r).run s = ((.ok u, r'), s')) :
    r'.Honest ∧ s.Persists s' ∧ ∀ id b, s.memory.get? id = some b → b.isAllocated = true →
      (∀ i ∈ r.planned s ts, ¬ s.Overwrites id i) → s'.memory.get? id = some b := by
  obtain ⟨schedule, s₀, s₁, hschedule, hrun, rfl⟩ := realize_ok h
  have hplaced : ∀ i ∈ (r.plan schedule s₀.memory).items, i.Placed := fun i hi =>
    placed_of_mem_plan hs hts hschedule hi
  obtain ⟨hr', hnodes, -⟩ := forM_runItem_ok hr hplaced hrun
  have hnodes₁ := hnodes.trans (memory_schedule hs hts hschedule).1
  obtain ⟨hsize, hmemory, hop⟩ := Session.foldl_note_spec
    (fun i => !r.schedule.reuseBuffers || (r.plan schedule s₀.memory).outputs.contains i.output)
    (r.plan schedule s₀.memory).items s₁
  refine ⟨hr', (Session.Persists.of_nodes_eq hnodes₁).trans ⟨hsize.ge, hop, fun t id hid => ?_⟩,
    fun id b hb halloc hno => ?_⟩
  · refine (Session.storage_foldl_note_of_forall fun i hi hroot => ?_).trans hid
    -- only what is not stored is computed
    obtain ⟨j, hj, hjroot, -⟩ := exists_of_mem_plan hi
    have hnone := (item_spec hs hts hschedule hj).1
    rw [Session.storage, Session.node, hnodes₁] at hid
    rw [← hjroot, hroot, Session.storage, Session.node, hid] at hnone
    cases hnone
  · have hrealizing : Realizing r s ts (r.plan schedule s₀.memory).items [] r' s₁ :=
      ⟨schedule, s₀, hschedule, (List.append_nil _).symm, hrun⟩
    rw [planned_eq hschedule] at hno
    exact hmemory ▸ hrealizing.kept hs hts hb halloc hr hno

end Untouched

/-! ### Sequences of operations -/

/-- One operation of a program, and the items that are run for it: a call on tensors, or tensors are
realized, or a new runner is made. -/
inductive Step : Runner × Session → List ScheduleItem → Runner × Session → Prop
  | call {r : Runner} {s : Session} {act : TensorM Tensor} : Tensor.Call (fun _ => True) s act →
      Step (r, s) [] (r, (act.run.run s).2)
  | realized {r r' : Runner} {s s' : Session} {ts : List Tensor} : (∀ t ∈ ts, t < s.nodes.size) →
      ((realize ts).run.run r).run s = ((.ok (), r'), s') → Step (r, s) (r.planned s ts) (r', s')
  | renewed {r : Runner} {s : Session} (r' : Runner) : r'.cache.kernels = [] →
      Step (r, s) [] (r', s)

/-- What some operations lead to, and the items that are run for them. -/
inductive Leads (x : Runner × Session) : List ScheduleItem → Runner × Session → Prop
  | refl : Leads x [] x
  | tail {y z : Runner × Session} {items ran : List ScheduleItem} : Leads x items y →
      Step y ran z → Leads x (items ++ ran) z

structure Live (x : Runner × Session) : Prop where
  honest : x.1.Honest
  reached : x.2.Reached

theorem honest_of_isEmpty (h : r.cache.kernels = []) : r.Honest := by
  intro x hx
  rw [h] at hx
  cases hx

variable {x y : Runner × Session} {items : List ScheduleItem}

theorem Step.spec (h : Step x items y) (hx : Live x) :
    Live y ∧ x.2.Persists y.2 ∧ ∀ id b, x.2.memory.get? id = some b → b.isAllocated = true →
      (∀ i ∈ items, ¬ x.2.Overwrites id i) → y.2.memory.get? id = some b := by
  cases h with
  | @call r s act hcall =>
    have hsteps := (hcall.makes Tensor.natural_true hx.reached.proper.coherent _ _ rfl).1
    have hgrows := Session.Steps.grows hsteps
    exact ⟨⟨hx.honest, hx.reached.call hcall⟩, hgrows.persists,
      fun id b hb _ _ => hgrows.memory id b hb⟩
  | @realized r r' s s' ts hts hrun =>
    obtain ⟨hr, hpersists, hkept⟩ := realize_spec hx.reached.proper hts hx.honest hrun
    have hreached := hx.reached.realized r hts
    rw [hrun] at hreached
    exact ⟨⟨hr, hreached⟩, hpersists, hkept⟩
  | renewed r' hcache =>
    exact ⟨⟨honest_of_isEmpty hcache, hx.reached⟩, .refl _, fun id b hb _ _ => hb⟩

theorem Leads.spec (h : Leads x items y) (hx : Live x) : Live y ∧ x.2.Persists y.2 := by
  induction h with
  | refl => exact ⟨hx, .refl _⟩
  | tail _ hstep ih =>
    obtain ⟨hy, hpersists⟩ := ih
    obtain ⟨hz, hpersists', -⟩ := hstep.spec hy
    exact ⟨hz, hpersists.trans hpersists'⟩

theorem Leads.kept (h : Leads x items y) (hx : Live x) {b : Buffer}
    (hb : x.2.memory.get? id = some b) (halloc : b.isAllocated = true)
    (hid : ∀ i ∈ items, ¬ y.2.Overwrites id i) : y.2.memory.get? id = some b := by
  induction h with
  | refl => exact hb
  | tail hleads hstep ih =>
    obtain ⟨hy, -⟩ := Leads.spec hleads hx
    obtain ⟨-, hpersists, hkept⟩ := hstep.spec hy
    -- what assigns before the last operation assigns after it
    have hid' := fun i hi hoverwrites => hid i hi (hpersists.overwrites hoverwrites)
    obtain ⟨hitems, hran⟩ := List.forall_mem_append.mp hid'
    exact hkept id b (ih hitems) halloc hran

/-! ### The kernel of a copy -/

section Copies

variable {r₁ : Runner} {s₁ : Session} {i : ScheduleItem} {b : Buffer} {a : Tensor} {u : Unit}

theorem ok_of_forM_append
    (h : (((done ++ todo).forM runItem).run.run r).run s = ((.ok u, r'), s')) :
    ∃ r₁ s₁, ((done.forM runItem).run.run r).run s = ((.ok (), r₁), s₁) ∧
      ((todo.forM runItem).run.run r₁).run s₁ = ((.ok (), r'), s') := by
  induction done generalizing r s with
  | nil => exact ⟨r, s, rfl, h⟩
  | cons i done ih =>
    obtain ⟨v, r₁, s₁, hfirst, hrest⟩ := ok_of_bind h
    obtain ⟨r₂, s₂, hdone, htodo⟩ := ih hrest
    refine ⟨r₂, s₂, ?_, htodo⟩
    change ((runItem i >>= fun _ => done.forM runItem).run.run r).run s = _
    rw [run_bind, hfirst]
    exact hdone

section Planned

variable {schedule : Schedule} {s₀ s₂ : Session} {m : Memory} {config : ScheduleConfig} (hs : s.Proper)
  (hts : ∀ t ∈ ts, t < s.nodes.size) (hrun : (Tensor.schedule ts config).run.run s = (.ok schedule, s₀))

include hs hts hrun

variable (hi : i ∈ (r.plan schedule m).items)

include hi

theorem eq_of_output (hop : ∀ target value, s.op i.root ≠ .assign target value)
    (hfixes : r.Fixes schedule m i.output) {k : ScheduleItem} (hk : k ∈ (r.plan schedule m).items)
    (houtput : k.output = i.output) : k = i := by
  apply List.inj_on_of_nodup_map (nodup_roots hs hts hrun m) hk hi
  obtain ⟨j, hj, hroot, -, hbuffers⟩ := exists_of_mem_plan hi
  obtain ⟨l, hl, hroot', -, hbuffers'⟩ := exists_of_mem_plan hk
  have hhome := hfixes.home_eq_iff.mp (List.cons.inj hbuffers).1.symm
  have hhome' := hfixes.home_eq_iff.mp ((List.cons.inj hbuffers').1.symm.trans houtput)
  rw [hroot] at hop
  rw [hroot, hroot']
  exact root_eq_of_output hs hts hrun hj hl hop (hhome'.trans hhome.symm)

theorem storage_commit_of_asked (hnodes : s₂.nodes = s.nodes) (hasked : i.root ∈ ts.map s.base) :
    (commit (r.plan schedule m) (!r.schedule.reuseBuffers) s₂).storage i.root = some i.output := by
  obtain ⟨j, hj, hroot, -, hbuffers⟩ := exists_of_mem_plan hi
  have hmem : j.output ∈ schedule.outputs :=
    output_mem_outputs hs hts hrun hj (hroot ▸ hasked)
  have houtput : i.output = j.output := by
    rw [(List.cons.inj hbuffers).1]
    exact (fixes_of_mem_outputs hmem).home_eq_iff.mpr rfl
  refine Session.storage_foldl_note_of_mem (nodup_roots hs hts hrun m) hi ?_ ?_
  · rw [outputs_plan, houtput, List.contains_iff_mem.mpr hmem, Bool.or_true]
  · rw [hnodes, hroot]
    exact (item_spec hs hts hrun hj).2.1

theorem fixes_of_storage_commit (hnodes : s₂.nodes = s.nodes)
    (hstored : (commit (r.plan schedule m) (!r.schedule.reuseBuffers) s₂).isStored i.root = true) :
    r.Fixes schedule m i.output := by
  intro hreuse hplans
  have hsame : (commit (r.plan schedule m) (!r.schedule.reuseBuffers) s₂).storage i.root
      = s₂.storage i.root := by
    refine Session.storage_foldl_note_of_forall fun k hk hroot => ?_
    rw [List.inj_on_of_nodup_map (nodup_roots hs hts hrun m) hk hi hroot, outputs_plan, hreuse, Bool.not_true,
      Bool.false_or]
    exact Bool.eq_false_iff.mpr fun hmem => hplans.not_output (List.contains_iff_mem.mp hmem)
  obtain ⟨j, hj, hroot, -⟩ := exists_of_mem_plan hi
  have hnone := (item_spec hs hts hrun hj).1
  rw [← hroot] at hnone
  rw [Session.isStored, hsame, Session.storage, Session.node, hnodes] at hstored
  rw [Session.storage, Session.node] at hnone
  rw [hnone] at hstored
  cases hstored

end Planned

theorem allocated_of_last (hr : r.Honest) (hplaced : ∀ j ∈ done ++ [i], j.Placed)
    (h : (((done ++ [i]).forM runItem).run.run r).run s = ((.ok u, r'), s')) :
    ∃ b, s'.memory.get? i.output = some b ∧ b.isAllocated = true := by
  obtain ⟨r₁, s₁, hbefore, hlast⟩ := ok_of_forM_append h
  obtain ⟨hdone, hi⟩ := List.forall_mem_append.mp hplaced
  obtain ⟨hr₁, -⟩ := forM_runItem_ok hr hdone hbefore
  obtain ⟨v, r₂, s₂, hrun, hrest⟩ := ok_of_bind hlast
  cases hrest
  exact (runItem_ok hr₁ (List.forall_mem_singleton.mp hi) hrun).2.2.2

/-- A kernel that does not assign leaves contents in its output. If the session keeps the output for
the node, as it does for what was asked for, the contents are still there when all kernels have
run. -/
theorem Realizing.stored (hr : r.Honest) (hs : s.Proper) (hts : ∀ t ∈ ts, t < s.nodes.size)
    (h : Realizing r s ts (done ++ [i]) todo r' s')
    (hop : ∀ target value, s.op i.root ≠ .assign target value)
    (hrealize : ((realize ts).run.run r).run s = ((.ok u, r₁), s₁)) :
    ∃ b, s'.memory.get? i.output = some b ∧ b.isAllocated = true ∧
      (i.root ∈ ts.map s.base → s₁.storage i.root = some i.output) ∧
      (s₁.storage i.root = some i.output → s₁.memory.get? i.output = some b) := by
  obtain ⟨schedule, s₀, hschedule, hitems, hrun⟩ := h
  obtain ⟨schedule', s₀', s₂, hschedule', hall, rfl⟩ := realize_ok hrealize
  rw [hschedule] at hschedule'
  cases hschedule'
  have hplaced : ∀ j ∈ (done ++ [i]) ++ todo, j.Placed := fun j hj =>
    placed_of_mem_plan hs hts hschedule (hitems ▸ hj)
  obtain ⟨hdone, htodo⟩ := List.forall_mem_append.mp hplaced
  have hi : i ∈ (r.plan schedule s₀.memory).items := by
    rw [hitems]
    simp
  obtain ⟨-, hnodes, -⟩ := forM_runItem_ok hr (hitems ▸ hplaced) hall
  have hnodes₂ := hnodes.trans (memory_schedule hs hts hschedule).1
  obtain ⟨b, hb, halloc⟩ := allocated_of_last hr hdone hrun
  refine ⟨b, hb, halloc, storage_commit_of_asked hs hts hschedule hi hnodes₂, fun hstored => ?_⟩
  have hfixes := fixes_of_storage_commit hs hts hschedule hi hnodes₂
    (by rw [Session.isStored, hstored]; rfl)
  rw [hitems] at hall
  obtain ⟨r₂, s₃, hfirst, hrest⟩ := ok_of_forM_append hall
  rw [hrun] at hfirst
  cases hfirst
  obtain ⟨hr', -⟩ := forM_runItem_ok hr hdone hrun
  obtain ⟨-, -, halters⟩ := forM_runItem_ok hr' htodo hrest
  rw [memory_commit]
  refine halters.kept i.output b ?_ hb halloc
  rintro ⟨k, hk, houtput⟩
  -- the items are different, so the one of the buffer is not among those that follow it
  have hnodup := nodup_roots (r := r) hs hts hschedule s₀.memory
  rw [hitems] at hnodup
  have hki := eq_of_output hs hts hschedule hi hop hfixes
    (hitems ▸ List.mem_append_right (done ++ [i]) hk) houtput
  exact List.disjoint_of_nodup_append hnodup.of_map (by simp) (hki ▸ hk)

end Copies

end Runner

/-! ### Contents -/

theorem Memory.run_bytes {b : Buffer} (hb : m.get? id = some b) (hdata : b.data = some data) :
    (Memory.bytes id).run.run m = (.ok data, m) := by
  rw [bytes, ExceptT.run_bind, StateT.run_bind, Machine.run_fetch, hb]
  change StateT.run (ExceptT.run _) m = _
  simp only [hdata]
  rfl

theorem Tensor.run_toValues [Width] {s : Session} {n a : Tensor} (hop : s.op n = .contiguous a)
    (hid : s.storage n = some id)
    (hdata : (Memory.bytes id).run.run s.memory = (.ok data, s.memory)) (env : Environment)
    (as : ScalarType) : (toValues env n as).run.run s = (.ok (Value.decodeAll as data), s) := by
  have hpartial : isPartial s n = false := by
    rw [isPartial, hop]
    rfl
  have hstored : s.isStored n = true := by rw [Session.isStored, hid]; rfl
  unfold toValues
  rw [TensorM.run_get_bind, if_neg (by rw [hpartial]; decide), pure_bind, TensorM.run_get_bind,
    if_pos hstored]
  dsimp only
  change (Memory.bytes id).run s.memory = _ at hdata
  rw [TensorM.run_get_bind, hid]
  dsimp only
  rw [hdata]
  rfl

namespace Runner

variable [Width] {x : Runner × Session} {ts : List Tensor}

/-- Once the kernel of a copy has run in a call that keeps its buffer, as every call does that asks
for the copy, the contents that the kernel left stay, whatever is computed and assigned afterwards,
until an item is run that assigns to the copy's own buffer. Reading the copy gives these contents. No
later call computes the copy again, and only an assignment writes to its buffer: up to there the
contents are found at every point of the call, and every kernel that comes upon the copy, through
views or in a fused computation, loads them. -/
theorem copy_keeps_contents {r₀ r r' r₁ : Runner} {s s' s₁ : Session} {ts : List Tensor}
    {before done todo : List ScheduleItem} {i : ScheduleItem} {a : Tensor}
    (hcache : r₀.cache.kernels = []) (hstart : Leads (r₀, {}) before (r, s))
    (hts : ∀ t ∈ ts, t < s.nodes.size)
    (hexecuted : Realizing r s ts (done ++ [i]) todo r' s') (hop : s.op i.root = .contiguous a)
    (hrealize : ((realize ts).run.run r).run s = ((.ok (), r₁), s₁)) :
    ∃ data, (Memory.bytes i.output).run.run s'.memory = (.ok data, s'.memory) ∧
      (i.root ∈ ts.map s.base → s₁.storage i.root = some i.output) ∧
      (s₁.storage i.root = some i.output → ∀ between r₂ s₂, Leads (r₁, s₁) between (r₂, s₂) →
        (∀ j ∈ between, ¬ s₂.Overwrites i.output j) →
        s₂.storage i.root = some i.output ∧
        (∀ env as, (Tensor.toValues env i.root as).run.run s₂ = (.ok (Value.decodeAll as data), s₂)) ∧
        ∀ ts' done' todo' r₃ s₃, (∀ t ∈ ts', t < s₂.nodes.size) →
          Realizing r₂ s₂ ts' done' todo' r₃ s₃ →
          (∀ j ∈ done' ++ todo', j.root ≠ i.root ∧ j.LoadsFrom s₂ i.root i.output ∧
            (j.output = i.output → s₂.Overwrites i.output j)) ∧
          ((∀ j ∈ done', ¬ s₂.Overwrites i.output j) →
            (Memory.bytes i.output).run.run s₃.memory = (.ok data, s₃.memory))) := by
  obtain ⟨hlive, -⟩ := hstart.spec ⟨honest_of_isEmpty hcache, .empty⟩
  have hs := hlive.reached.proper
  have hassign : ∀ target value, s.op i.root ≠ .assign target value :=
    fun target value h => by rw [hop] at h; cases h
  obtain ⟨b, hb, halloc, hasked, hkept⟩ := hexecuted.stored hlive.honest hs hts hassign hrealize
  obtain ⟨data, hdata⟩ := Option.isSome_iff_exists.mp halloc
  refine ⟨data, Memory.run_bytes hb hdata, hasked, fun hstored between r₂ s₂ hleads hno => ?_⟩
  have hstep : Step (r, s) (r.planned s ts) (r₁, s₁) := .realized hts hrealize
  obtain ⟨hlive₁, hpersists₁, -⟩ := hstep.spec hlive
  obtain ⟨hlive₂, hpersists₂⟩ := hleads.spec hlive₁
  have hb₂ := hleads.kept hlive₁ (hkept hstored) halloc hno
  have hid₂ := hpersists₂.storage_eq _ _ hstored
  have hop₂ : s₂.op i.root = .contiguous a := by
    have hlt : i.root < s.nodes.size := Session.lt_of_op hop nofun
    rw [(hpersists₁.trans hpersists₂).op_eq _ hlt, hop]
  refine ⟨hid₂, Tensor.run_toValues hop₂ hid₂ (Memory.run_bytes hb₂ hdata), ?_⟩
  intro ts' done' todo' r₃ s₃ hts' hrealizing
  have hs₂ := hlive₂.reached.proper
  refine ⟨fun j hj => ?_, fun hno' => ?_⟩
  · obtain ⟨hroot, hloads⟩ := hrealizing.loads hs₂ hts' hb₂ halloc hop₂ hid₂ j hj
    exact ⟨hroot, hloads, hrealizing.overwrites hs₂ hts' hb₂ halloc j hj⟩
  · exact Memory.run_bytes (hrealizing.kept hs₂ hts' hb₂ halloc hlive₂.honest hno') hdata

def called (x : Runner × Session) (act : TensorM Tensor) : Runner × Session :=
  (x.1, (act.run.run x.2).2)

theorem step_called {act : TensorM Tensor} (h : Tensor.Call (fun _ => True) x.2 act) :
    Step x [] (called x act) :=
  .call h

def realized (x : Runner × Session) (ts : List Tensor) : Runner × Session :=
  let y := ((realize ts).run.run x.1).run x.2
  (y.1.2, y.2)

theorem run_realized (h : (((realize ts).run.run x.1).run x.2).1.1.isOk = true) :
    ((realize ts).run.run x.1).run x.2 = ((.ok (), (realized x ts).1), (realized x ts).2) := by
  rw [realized]
  generalize ((realize ts).run.run x.1).run x.2 = y at h ⊢
  obtain ⟨⟨_ | u, r⟩, s⟩ := y
  · cases h
  · rfl

/-- The tensors asked for are in the session, and they are computed without an error. -/
def Succeeds (x : Runner × Session) (ts : List Tensor) : Prop :=
  (∀ t ∈ ts, t < x.2.nodes.size) ∧ (((realize ts).run.run x.1).run x.2).1.1.isOk = true

instance (x : Runner × Session) (ts : List Tensor) : Decidable (Succeeds x ts) :=
  inferInstanceAs (Decidable (_ ∧ _))

theorem step_realized (h : Succeeds x ts) : Step x (x.1.planned x.2 ts) (realized x ts) :=
  .realized h.1 (run_realized h.2)

theorem leads_realized {y : Runner × Session} (h : Leads x [] y) (hy : Succeeds y ts) :
    Leads x (y.1.planned y.2 ts) (realized y ts) := by
  have hleads := h.tail (step_realized hy)
  rwa [List.nil_append] at hleads

/-- Other numbers, which become tensor `b`, are assigned to the first tensor. -/
def assigned (x : Runner × Session) (b : Tensor) : Runner × Session :=
  called (called x (Tensor.ofValues .int32 [.int 10, .int 20])) (Tensor.assign 0 b)

theorem leads_assigned {b : Tensor}
    (hb : b < (called x (Tensor.ofValues .int32 [.int 10, .int 20])).2.nodes.size) :
    Leads x [] (assigned x b) := by
  have hvalues : Leads x [] (called x (Tensor.ofValues .int32 [.int 10, .int 20])) :=
    .tail .refl (step_called (.values _ _))
  exact hvalues.tail (step_called (.assign (Nat.zero_lt_of_lt hb) hb))

end Runner

section Overwritten

open Runner

attribute [local instance] Width.word64

/-- Two numbers and a copy of them. -/
def copied : Runner × Session :=
  called (called ({}, {}) (Tensor.ofValues .int32 [.int 1, .int 2])) (Tensor.contiguous 0)

theorem leads_copied : Leads ({}, {}) [] copied := by
  have hvalues : Leads ({}, {}) [] (called ({}, {}) (Tensor.ofValues .int32 [.int 1, .int 2])) :=
    .tail .refl (step_called (.values _ _))
  have hnamed : Tensor.shapeNamed? "contiguous" [] = some Tensor.contiguous := rfl
  exact hvalues.tail (step_called (.shape (by decide +kernel) hnamed))

/-- The copy has been computed, and then other numbers are assigned to those that were copied. -/
def overwriting : Runner × Session := assigned (realized copied [1]) 2

/-- The other numbers have taken the place of those that were copied. -/
def overwritten : Runner × Session := realized overwriting [3]

/-- The copy keeps the numbers that were copied when others have taken their place. -/
theorem copy_keeps_contents_overwritten :
    ∃ i r' s' data, Realizing copied.1 copied.2 [1] ([] ++ [i]) [] r' s' ∧
      copied.2.op i.root = .contiguous 0 ∧
      (Memory.bytes i.output).run.run s'.memory = (.ok data, s'.memory) ∧
      (∀ j ∈ overwriting.1.planned overwriting.2 [3], ¬ overwritten.2.Overwrites i.output j) ∧
      ((Tensor.toValues [] 0 .int32).run.run overwritten.2).1.toOption = some [.int 10, .int 20] ∧
      ∀ env as, (Tensor.toValues env i.root as).run.run overwritten.2
        = (.ok (Value.decodeAll as data), overwritten.2) := by
  have hcopy : copied.2.op 1 = .contiguous 0 ∧
      (copied.1.planned copied.2 [1]).map (fun i => (i.root, i.output)) = [(1, 1)] ∧
      Succeeds copied [1] := by
    decide +kernel
  have hlater : 2 < (called (realized copied [1])
        (Tensor.ofValues .int32 [.int 10, .int 20])).2.nodes.size ∧ Succeeds overwriting [3] ∧
      (∀ j ∈ overwriting.1.planned overwriting.2 [3], ¬ overwritten.2.Overwrites 1 j) ∧
      ((Tensor.toValues [] 0 .int32).run.run overwritten.2).1.toOption
        = some [.int 10, .int 20] := by
    decide +kernel
  obtain ⟨hop, hplanned, hts, hok⟩ := hcopy
  obtain ⟨hb, hsucceeds, hno, hread⟩ := hlater
  have hrealize := run_realized hok
  obtain ⟨schedule, s₀, s₁, hschedule, hrun, -⟩ := realize_ok hrealize
  rw [planned_eq hschedule] at hplanned
  obtain ⟨i, rest, hitems, hi, hrest⟩ := List.map_eq_cons_iff.mp hplanned
  obtain ⟨hroot, houtput⟩ := Prod.mk.inj hi
  obtain rfl := List.map_eq_nil_iff.mp hrest
  have hexecuted : Realizing copied.1 copied.2 [1] ([] ++ [i]) [] (realized copied [1]).1 s₁ :=
    ⟨schedule, s₀, hschedule, hitems, hitems ▸ hrun⟩
  rw [← hroot] at hop
  rw [← houtput] at hno
  have hstart : Leads ({}, {}) [] (copied.1, copied.2) := by
    rw [Prod.mk.eta]
    exact leads_copied
  have hleads : Leads ((realized copied [1]).1, (realized copied [1]).2)
      (overwriting.1.planned overwriting.2 [3]) (overwritten.1, overwritten.2) := by
    rw [Prod.mk.eta, Prod.mk.eta]
    exact leads_realized (leads_assigned hb) hsucceeds
  obtain ⟨data, hdata, hasked, hkept⟩ := copy_keeps_contents rfl hstart hts hexecuted hop hrealize
  have hstored := hasked (by rw [hroot]; exact List.mem_singleton_self 1)
  exact ⟨i, _, s₁, data, hexecuted, hop, hdata, hno, hread, (hkept hstored _ _ _ hleads hno).2.1⟩

/-- The negation of the copy. -/
def negatedCopy : Runner × Session :=
  called copied (Tensor.neg 1)

/-- The negation has been computed, and then other numbers are assigned to those that were copied. -/
def replacing : Runner × Session := assigned (realized negatedCopy [2]) 3

/-- The other numbers have taken the place of those that were copied and negated. -/
def replaced : Runner × Session := realized replacing [4]

/-- A copy that is computed on the way to its negation, and was not asked for, is forgotten: read
after the numbers have been overwritten, it is computed again from the new ones. -/
theorem copy_not_asked_for_forgotten :
    Leads ({}, {}) [] negatedCopy ∧
      (negatedCopy.1.planned negatedCopy.2 [2]).map (fun i => (i.root, i.output)) = [(1, 1), (2, 2)] ∧
      Step negatedCopy (negatedCopy.1.planned negatedCopy.2 [2]) (realized negatedCopy [2]) ∧
      ((Memory.bytes 1).run.run (realized negatedCopy [2]).2.memory).1.toOption.map
        (Value.decodeAll .int32) = some [.int 1, .int 2] ∧
      Leads (realized negatedCopy [2]) (replacing.1.planned replacing.2 [4]) replaced ∧
      (∀ j ∈ replacing.1.planned replacing.2 [4], ¬ replaced.2.Overwrites 1 j) ∧
      ((Tensor.toValues [] 1 .int32).run.run replaced.2).1.toOption
        = some [.int 10, .int 20] := by
  have hcopy : (negatedCopy.1.planned negatedCopy.2 [2]).map (fun i => (i.root, i.output))
        = [(1, 1), (2, 2)] ∧ Succeeds negatedCopy [2] ∧
      ((Memory.bytes 1).run.run (realized negatedCopy [2]).2.memory).1.toOption.map
        (Value.decodeAll .int32) = some [.int 1, .int 2] := by
    decide +kernel
  have hlater : 3 < (called (realized negatedCopy [2])
        (Tensor.ofValues .int32 [.int 10, .int 20])).2.nodes.size ∧ Succeeds replacing [4] ∧
      (∀ j ∈ replacing.1.planned replacing.2 [4], ¬ replaced.2.Overwrites 1 j) ∧
      ((Tensor.toValues [] 1 .int32).run.run replaced.2).1.toOption = some [.int 10, .int 20] := by
    decide +kernel
  have hnamed : Tensor.unaryNamed? "neg" = some Tensor.neg := rfl
  have hstart : Leads ({}, {}) [] negatedCopy :=
    leads_copied.tail (step_called (.unary (by decide +kernel) hnamed))
  obtain ⟨hplanned, hsucceeds, hdata⟩ := hcopy
  obtain ⟨hb, hreplaced, hno, hread⟩ := hlater
  have hleads : Leads (realized negatedCopy [2]) (replacing.1.planned replacing.2 [4]) replaced :=
    leads_realized (leads_assigned hb) hreplaced
  exact ⟨hstart, hplanned, step_realized hsucceeds, hdata, hleads, hno, hread⟩

end Overwritten

end LazyTensor

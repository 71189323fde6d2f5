import LazyTensor.Proofs.Machine.Outcome
import LazyTensor.Proofs.Schedule.Overwrite
import LazyTensor.Proofs.Schedule.Packing

/-!
# Sessions that can be reached

Sessions come from operations on tensors, from making schedules and from realizing tensors, whether
these succeed or not. In all of them the buffer of a stored tensor is there and has its type.
-/

namespace LazyTensor

/-! ### Stored tensors -/

namespace Session

/-- Every stored tensor has a buffer of its type. -/
structure Proper (s : Session) : Prop where
  coherent : s.Coherent
  typed : ∀ t id, s.storage t = some id → ∃ b, s.memory.get? id = some b ∧ b.dtype = s.dtype t

variable {s s' s'' : Session} {t : Tensor} {id : BufferId}

theorem proper_empty : ({} : Session).Proper :=
  ⟨coherent_empty, fun t _ h => absurd (lt_of_storage h) (Nat.not_lt_zero t)⟩

section Steps

variable [Width] {kinds : Movement → Prop}

theorem Proper.step (hs : s.Proper) (h : Step kinds s s') : s'.Proper := by
  refine ⟨hs.coherent.step h, fun t id hid => ?_⟩
  have hold : t < s.nodes.size → ∃ b, s'.memory.get? id = some b ∧ b.dtype = s'.dtype t := by
    intro ht
    rw [h.grows.storage_eq ht] at hid
    obtain ⟨b, hb, htype⟩ := hs.typed t id hid
    exact ⟨b, h.grows.memory id b hb, htype.trans (h.grows.dtype_eq ht).symm⟩
  have hlt := lt_of_storage hid
  cases h with
  | @node n _ _ hnone =>
    rw [Array.size_push] at hlt
    rcases Nat.lt_or_eq_of_le (Nat.le_of_lt_succ hlt) with ht | rfl
    · exact hold ht
    · rw [storage, node_push_self, hnone] at hid
      cases hid
  | values type vs =>
    rw [Array.size_push] at hlt
    rcases Nat.lt_or_eq_of_le (Nat.le_of_lt_succ hlt) with ht | rfl
    · exact hold ht
    · rw [storage, node_push_self] at hid
      cases hid
      refine ⟨Buffer.ofValues type vs, Memory.get?_insert_self _ _, ?_⟩
      rw [dtype, node_push_self]
      rfl

theorem Proper.steps (hs : s.Proper) (h : Steps kinds s s') : s'.Proper := by
  induction h with
  | refl => exact hs
  | tail _ hstep ih => exact ih.step hstep

end Steps

/-! ### Memory -/

/-- Only memory changes: buffers may be added, and filled. -/
structure Refills (s s' : Session) : Prop where
  nodes_eq : s'.nodes = s.nodes
  frames : ∀ id b, s.memory.get? id = some b →
    ∃ b', s'.memory.get? id = some b' ∧ b'.frame = b.frame

theorem Refills.refl (s : Session) : s.Refills s := ⟨rfl, fun _ b hb => ⟨b, hb, rfl⟩⟩

theorem Refills.trans (h : s.Refills s') (h' : s'.Refills s'') : s.Refills s'' := by
  refine ⟨h'.nodes_eq.trans h.nodes_eq, fun id b hb => ?_⟩
  obtain ⟨b₁, hb₁, hframe⟩ := h.frames id b hb
  obtain ⟨b₂, hb₂, hframe'⟩ := h'.frames id b₁ hb₁
  exact ⟨b₂, hb₂, hframe'.trans hframe⟩

theorem refills_of_sameFrames {m : Memory} (h : s.memory.SameFrames m) :
    s.Refills { s with memory := m } :=
  ⟨rfl, fun _ _ hb => h.exists_frame hb⟩

theorem Refills.exists_dtype (h : s.Refills s') {type : DType}
    (hb : ∃ b, s.memory.get? id = some b ∧ b.dtype = type) :
    ∃ b, s'.memory.get? id = some b ∧ b.dtype = type := by
  obtain ⟨b, hb, rfl⟩ := hb
  obtain ⟨b', hb', hframe⟩ := h.frames id b hb
  exact ⟨b', hb', Buffer.dtype_eq_of_frame hframe⟩

theorem Proper.refills (hs : s.Proper) (h : s.Refills s') : s'.Proper := by
  have hexists := fun t id hid => h.exists_dtype (hs.typed t id hid)
  obtain ⟨nodes, m⟩ := s'
  obtain rfl : nodes = s.nodes := h.nodes_eq
  refine ⟨⟨hs.coherent.sources_lt, hs.coherent.agrees, hs.coherent.device_eq, ?_⟩, hexists⟩
  intro t _ id hid
  obtain ⟨b, hb, -⟩ := hexists t id hid
  exact (Array.getElem?_eq_some_iff.mp hb).1

theorem Proper.typed_target (hs : s.Proper) {target value : Tensor} (ht : t < s.nodes.size)
    (hop : s.op t = .assign target value) (hid : s.storage (s.base target) = some id) :
    ∃ b, s.memory.get? id = some b ∧ b.dtype = s.dtype t := by
  have hagrees := hs.coherent.agrees t ht
  rw [Agrees, hop] at hagrees
  have htarget := hs.coherent.source_lt ht hop (.head _)
  obtain ⟨b, hb, htype⟩ := hs.typed _ _ hid
  refine ⟨b, hb, ?_⟩
  rw [htype, hs.coherent.dtype_base htarget]
  exact hagrees.2.2

theorem dtype_setStorage (s : Session) (t : Tensor) (id : BufferId) (u : Tensor) :
    (s.setStorage t id).dtype u = s.dtype u := by
  rw [dtype]
  change (Session.node { s.setStorage t id with memory := s.memory } u).dtype = _
  rw [node_setStorage]
  split
  · rfl
  · rfl

theorem Proper.setStorage (hs : s.Proper)
    (h : ∃ b, s.memory.get? id = some b ∧ b.dtype = s.dtype t) : (s.setStorage t id).Proper := by
  obtain ⟨b, hb, htype⟩ := h
  refine ⟨hs.coherent.setStorage le_rfl (Array.getElem?_eq_some_iff.mp hb).1, fun u other hu => ?_⟩
  rw [dtype_setStorage]
  rw [storage] at hu
  change (Session.node { s.setStorage t id with memory := s.memory } u).storage = _ at hu
  rw [node_setStorage] at hu
  split at hu
  next heq =>
    cases hu
    obtain rfl := heq.1
    exact ⟨b, hb, htype⟩
  next => exact hs.typed u other hu

end Session

/-! ### Schedules -/

namespace TensorM

variable {α β : Type}

/-- The action only makes buffers. -/
def Allocates (act : TensorM α) : Prop := ∀ s : Session, s.Refills (act.run.run s).2

theorem allocates_pure (a : α) : Allocates (pure a) := Session.Refills.refl

theorem allocates_throw (e : TensorError) : Allocates (throw e : TensorM α) := Session.Refills.refl

theorem allocates_bind {act : TensorM α} {f : α → TensorM β} (hact : Allocates act)
    (hf : ∀ a, Allocates (f a)) : Allocates (act >>= f) := by
  intro s
  have hfirst := hact s
  rw [run_bind]
  generalize act.run.run s = result at hfirst ⊢
  obtain ⟨_ | a, s'⟩ := result
  · exact hfirst
  · exact hfirst.trans (hf a s')

theorem allocates_get_bind {f : Session → TensorM β} (hf : ∀ s, Allocates (f s)) :
    Allocates (get >>= f) :=
  fun s => hf s s

theorem allocates_lift (e : Except TensorError α) : Allocates (liftM e : TensorM α) := by
  cases e with
  | error e => exact allocates_throw e
  | ok a => exact allocates_pure a

theorem allocates_foldlM {γ : Type} {f : α → γ → TensorM α} (hf : ∀ a c, Allocates (f a c))
    (l : List γ) (a : α) : Allocates (l.foldlM f a) := by
  induction l generalizing a with
  | nil => exact allocates_pure a
  | cons c l ih =>
    rw [List.foldlM_cons]
    exact allocates_bind (hf a c) ih

end TensorM

namespace Tensor

open TensorM

variable [Width]

theorem allocates_outputBuffer (t : Tensor) : Allocates (outputBuffer t) := by
  intro s
  rw [outputBuffer, run_get_bind]
  split
  · split
    · exact .refl s
    · exact .refl s
  · exact ⟨rfl, fun id b hb => ⟨b, Memory.get?_insert_of_some hb, rfl⟩⟩

theorem allocates_provideStorage (roots : List Tensor) (storage : List (Tensor × BufferId)) :
    Allocates (provideStorage roots storage) := by
  apply allocates_foldlM
  intro storage t
  split
  · exact allocates_pure storage
  · exact allocates_bind (allocates_outputBuffer t) fun id => allocates_pure _

theorem allocates_buildKernels (maxViews : Nat) (order : List Tensor) (fuel : Nat)
    (p : Session.Partition) : Allocates (buildKernels maxViews order fuel p) := by
  induction fuel generalizing p with
  | zero => exact allocates_throw _
  | succ fuel ih =>
    rw [buildKernels]
    apply allocates_bind (allocates_provideStorage _ _)
    intro storage
    apply allocates_get_bind
    intro s
    split
    · exact allocates_pure _
    · exact ih _
    · exact ih _
    · exact allocates_throw _

theorem allocates_schedule (ts : List Tensor) (config : ScheduleConfig) :
    Allocates (schedule ts config) := by
  apply allocates_get_bind
  intro s
  apply allocates_bind (allocates_buildKernels _ _ _ _)
  intro kernels
  apply allocates_bind (allocates_lift _)
  intro _
  apply allocates_bind (allocates_lift _)
  intro ordered
  exact allocates_pure _

theorem exists_dtype_output {s s' : Session} {ts : List Tensor} {config : ScheduleConfig}
    {result : Schedule} (hs : s.Proper) (hts : ∀ t ∈ ts, t < s.nodes.size)
    (hrun : (schedule ts config).run.run s = (.ok result, s')) {i : ScheduleItem}
    (hi : i ∈ result.items) : ∃ b, s'.memory.get? i.output = some b ∧ b.dtype = s.dtype i.root := by
  obtain ⟨p, kernels, ordered, k, h, hk, rfl⟩ := of_item hs.coherent hts hrun hi
  obtain ⟨-, hgiven, ⟨⟨target, value, hop⟩, -⟩ | ⟨hop, -⟩⟩ := h.output_given hk
  · have hroot := (hs.coherent.toCompute_pending hts).lt k.root (h.buildKernel_eq hk).1
    obtain ⟨b, hb, htype⟩ := hs.typed_target hroot hop (hgiven.of_assign hop)
    exact ⟨b, h.rounds.stocked.kept _ b hb, htype⟩
  · exact ⟨_, (hgiven.of_not_assign hop).2, rfl⟩

end Tensor

/-! ### Runs -/

namespace Runner

variable {α β : Type} {s s' : Session}

theorem run_bind (act : RealizeM α) (f : α → RealizeM β) (r : Runner) (s : Session) :
    ((act >>= f).run.run r).run s = match (act.run.run r).run s with
      | ((.ok a, r'), s') => ((f a).run.run r').run s'
      | ((.error e, r'), s') => ((.error e, r'), s') := by
  rw [ExceptT.run_bind, StateT.run_bind, StateT.run_bind]
  rcases (act.run.run r).run s with ⟨⟨_ | a, r'⟩, s'⟩ <;> rfl

theorem run_liftTensor (act : TensorM α) (r : Runner) (s : Session) :
    ((liftTensor act).run.run r).run s = (((act.run.run s).1, r), (act.run.run s).2) := by
  have hlift : ((liftM (act.run : StateM Session (Except TensorError α)) :
      RealizeM (Except TensorError α)).run.run r).run s
        = ((.ok (act.run.run s).1, r), (act.run.run s).2) := rfl
  rw [liftTensor, run_bind, hlift]
  rcases act.run.run s with ⟨_ | a, s'⟩ <;> rfl

theorem run_get_bind (f : Runner → RealizeM β) (r : Runner) (s : Session) :
    (((liftM (get : StateT Runner (StateM Session) Runner) : RealizeM Runner) >>= f).run.run r).run s
      = ((f r).run.run r).run s := rfl

theorem run_getSession_bind (f : Session → RealizeM β) (r : Runner) (s : Session) :
    ((getSession >>= f).run.run r).run s = ((f s).run.run r).run s := rfl

/-- The action only fills buffers, whatever the runner. -/
def Fills (act : RealizeM α) : Prop :=
  ∀ (r : Runner) (s : Session), s.Refills ((act.run.run r).run s).2

theorem fills_bind {act : RealizeM α} {f : α → RealizeM β} (hact : Fills act)
    (hf : ∀ a, Fills (f a)) : Fills (act >>= f) := by
  intro r s
  have hfirst := hact r s
  rw [run_bind]
  generalize (act.run.run r).run s = result at hfirst ⊢
  obtain ⟨⟨_ | a, r'⟩, s'⟩ := result
  · exact hfirst
  · exact hfirst.trans (hf a r' s')

variable [Width] {schedule : Schedule}

theorem fills_kernelFor (i : ScheduleItem) : Fills (kernelFor i) := by
  intro r s
  exact Session.Refills.refl s

theorem fills_runItem (i : ScheduleItem) : Fills (runItem i) := by
  apply fills_bind (fills_kernelFor i)
  intro k r s
  have hframes : s.Refills
      { s with memory := ((k.run i.buffers i.vars).run { memory := s.memory }).2.memory } :=
    Session.refills_of_sameFrames (k.alters_run i.buffers i.vars s.memory).sameFrames
  rw [run_getSession_bind]
  generalize (k.run i.buffers i.vars).run { memory := s.memory } = outcome at hframes ⊢
  obtain ⟨_ | u, state⟩ := outcome
  · exact hframes
  · exact hframes

theorem fills_forM_runItem (items : List ScheduleItem) : Fills (items.forM runItem) := by
  induction items with
  | nil => exact fun _ s => .refl s
  | cons i items ih => exact fills_bind (fills_runItem i) fun _ => ih

omit [Width] in
theorem proper_commit (keepAll : Bool) (hs : s.Proper)
    (h : ∀ i ∈ schedule.items, ∃ b, s.memory.get? i.output = some b ∧ b.dtype = s.dtype i.root) :
    (commit schedule keepAll s).Proper := by
  have hfold : ∀ (items : List ScheduleItem) (s : Session), s.Proper →
      (∀ i ∈ items, ∃ b, s.memory.get? i.output = some b ∧ b.dtype = s.dtype i.root) →
      (items.foldl (fun s i => if keepAll || schedule.outputs.contains i.output then
        s.setStorage i.root i.output else s) s).Proper := by
    intro items
    induction items with
    | nil => exact fun s hs _ => hs
    | cons i items ih =>
      intro s hs h
      rw [List.forall_mem_cons] at h
      rw [List.foldl_cons]
      split
      · refine ih _ (hs.setStorage h.1) fun j hj => ?_
        obtain ⟨b, hb, htype⟩ := h.2 j hj
        exact ⟨b, hb, htype.trans (Session.dtype_setStorage s _ _ _).symm⟩
      · exact ih s hs h.2
  exact hfold _ s hs h

omit [Width] in
theorem exists_dtype_replaceBuffers {m : Memory} {i : ScheduleItem}
    (hi : i ∈ (schedule.replaceBuffers (schedule.planMemory m)).items) {typeOf : Tensor → DType}
    (h : ∀ i ∈ schedule.items, ∃ b, m.get? i.output = some b ∧ b.dtype = typeOf i.root) :
    ∃ b, m.get? i.output = some b ∧ b.dtype = typeOf i.root := by
  obtain ⟨j, hj, rfl⟩ := List.mem_map.mp hi
  obtain ⟨b, hb, htype⟩ := h j hj
  show ∃ b, m.get? ((schedule.planMemory m).home j.output) = some b ∧ b.dtype = typeOf j.root
  rw [MemoryPlan.home]
  cases hhome : (schedule.planMemory m).replacements.lookup j.output with
  | none => exact ⟨b, hb, htype⟩
  | some host =>
    -- Only buffers of one type share storage.
    obtain ⟨-, -, -, hfits⟩ := Schedule.plans_of_mem_replacements (mem_of_lookup hhome)
    obtain ⟨k, b', hb', hk, -, hsame, -⟩ := Memory.fits_iff.mp hfits
    rw [hb] at hb'
    cases hb'
    exact ⟨k, hk, hsame.trans htype⟩

theorem proper_realize (hs : s.Proper) {ts : List Tensor} (hts : ∀ t ∈ ts, t < s.nodes.size)
    (r : Runner) : (((realize ts).run.run r).run s).2.Proper := by
  have hallocates := Tensor.allocates_schedule ts r.schedule s
  rw [realize, run_get_bind, run_bind, run_liftTensor]
  rcases hrun : (Tensor.schedule ts r.schedule).run.run s with ⟨e | schedule, s₁⟩
  · rw [hrun] at hallocates
    exact hs.refills hallocates
  · rw [hrun] at hallocates
    dsimp only
    split
    · exact hs.refills hallocates
    · rw [run_getSession_bind]
      generalize hplanned : (if r.schedule.reuseBuffers then
        schedule.replaceBuffers (schedule.planMemory s₁.memory) else schedule) = planned
      have hfills := fills_forM_runItem planned.items r s₁
      rw [run_bind]
      generalize ((planned.items.forM runItem).run.run r).run s₁ = result at hfills ⊢
      obtain ⟨⟨_ | u, r'⟩, s₂⟩ := result
      · exact (hs.refills hallocates).refills hfills
      · dsimp only
        rw [run_getSession_bind]
        show (commit planned (!r.schedule.reuseBuffers) s₂).Proper
        have hrefills := hallocates.trans hfills
        apply proper_commit _ (hs.refills hrefills)
        intro i hi
        have hdtype : s₂.dtype i.root = s.dtype i.root := by
          rw [Session.dtype, Session.node, hrefills.nodes_eq, Session.dtype, Session.node]
        rw [hdtype]
        apply hfills.exists_dtype
        have houtput := fun j hj => Tensor.exists_dtype_output hs hts hrun (i := j) hj
        by_cases hreuse : r.schedule.reuseBuffers = true
        · rw [if_pos hreuse] at hplanned
          subst hplanned
          exact exists_dtype_replaceBuffers hi houtput
        · rw [if_neg hreuse] at hplanned
          subst hplanned
          exact houtput i hi

end Runner

/-! ### Reaching sessions -/

namespace Session

variable [Width]

/-- The sessions that operations on tensors, schedules and realizing lead to. -/
inductive Reached : Session → Prop
  | empty : Reached {}
  | call {s : Session} {act : TensorM Tensor} : Reached s → Tensor.Call (fun _ => True) s act →
      Reached (act.run.run s).2
  | scheduled {s : Session} {ts : List Tensor} (config : ScheduleConfig) : Reached s →
      (∀ t ∈ ts, t < s.nodes.size) → Reached ((Tensor.schedule ts config).run.run s).2
  | realized {s : Session} {ts : List Tensor} (r : Runner) : Reached s →
      (∀ t ∈ ts, t < s.nodes.size) → Reached (((Runner.realize ts).run.run r).run s).2

theorem Reached.proper {s : Session} (h : s.Reached) : s.Proper := by
  induction h with
  | empty => exact proper_empty
  | call _ hcall ih =>
    exact ih.steps (hcall.makes Tensor.natural_true ih.coherent _ _ rfl).1
  | scheduled config _ _ ih => exact ih.refills (Tensor.allocates_schedule _ config _)
  | realized r _ hts ih => exact Runner.proper_realize ih hts r

end Session

end LazyTensor

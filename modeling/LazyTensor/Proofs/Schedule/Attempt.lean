import LazyTensor.Proofs.Schedule.Stop

/-!
# Attempts at a kernel

A kernel is tried in the shape of its node and perhaps once more in the shape of a reduction. Either
it is there then, and reads kernels of earlier nodes only, or it names a node that is to be computed
and has no kernel of its own so far, or it fails as it may.
-/

namespace LazyTensor

variable [Width] {shape : Shape} {root : Tensor} {output : BufferId}

theorem View.reshape_self (v : View) : v.reshape v.shape = .ok (some v) := if_pos rfl

theorem Layout.reshape_self (l : Layout) : l.reshape l.shape = .ok (settle l.top l.below) := by
  rw [reshape, Layout.shape, View.reshape_self]
  rfl

theorem Layout.reshape_ofShape_self (shape : Shape) :
    (Layout.ofShape shape).reshape shape = .ok (.ofShape shape) := by
  have hself := (Layout.ofShape shape).reshape_self
  rw [Layout.shape_ofShape] at hself
  exact hself

theorem View.exists_reshape {v w : View} (hshape : v.shape = w.shape) {r : Option View}
    (h : v.reshape shape = .ok r) : ∃ r', w.reshape shape = .ok r' := by
  rw [reshape, size, hshape] at h
  rw [reshape, size]
  split at h
  next hsame => exact ⟨_, if_pos hsame⟩
  next hsame =>
    rw [if_neg hsame]
    split at h
    next => cases h
    next hneg =>
      rw [if_neg hneg]
      dsimp only at h ⊢
      generalize (!(SymInt.prod w.shape == SymInt.prod shape || _)) = clash at h ⊢
      cases clash with
      | true =>
        rw [if_pos rfl] at h
        split at h <;> cases h
      | false =>
        rw [if_neg Bool.false_ne_true]
        split <;> exact ⟨_, rfl⟩

theorem Layout.exists_reshape {l l' m : Layout} (hshape : l.shape = l'.shape)
    (h : l.reshape shape = .ok m) : ∃ m', l'.reshape shape = .ok m' := by
  obtain ⟨r, htop, -⟩ := bind_eq_ok h
  obtain ⟨r', hr'⟩ := View.exists_reshape hshape htop
  rw [reshape, hr']
  cases r' with
  | none | some v => exact ⟨_, rfl⟩

variable {s : Session} {order : List Tensor} {known : SymVar × Int → Prop}

/-- Every node that needs a kernel of its own has one, and buffers are shared by assignments only. -/
structure Session.Partition.Supplies (p : Partition) (s : Session) (order : List Tensor) : Prop where
  alone : ∀ t ∈ order, (∃ a, s.op t = .contiguous a) ∨
    (∃ target value, s.op t = .assign target value) → t ∈ p.realize
  covered : ∀ t ∈ order, t ∈ p.realize → ∃ id, p.storage.lookup t = some id
  distinct : ¬ s.HasAssign → ∀ t u id, p.storage.lookup t = some id →
    (s.storage u <|> p.storage.lookup u) = some id → u = t

/-- What is stored for a node has its shape. -/
structure StoreTask.Suits (s : Session) (known : SymVar × Int → Prop) (root : Tensor)
    (task : StoreTask) : Prop where
  shape_value : s.shape task.value = s.shape root
  shape_layout : task.layout.shape = s.shape root
  binds : task.layout.BindsIn known
  overwrites : ¬ s.HasAssign → task.overwrites = none

theorem Session.Coherent.suits_storeTask (hs : s.Coherent) (hcovers : s.Covers known)
    (hroot : root < s.nodes.size) {task : StoreTask} (h : s.storeTask root output = .ok task) :
    task.Suits s known root := by
  have hagrees := hs.agrees root hroot
  have hown := hcovers.shapes root hroot
  rw [Agrees] at hagrees
  rcases storeTask_ok h with ⟨target, value, hop, hshape, -, rfl⟩ | ⟨a, hop, rfl⟩ | ⟨-, -, rfl⟩
  · rw [hop] at hagrees
    have htarget := hs.source_lt hroot hop (.head _)
    exact ⟨hshape.trans hagrees.2.1, (hs.shape_layout htarget).trans hagrees.2.1,
      hcovers.layouts target htarget, fun hnone => absurd ⟨root, hroot, target, value, hop⟩ hnone⟩
  · rw [hop] at hagrees
    exact ⟨hagrees.1, Layout.shape_ofShape _, hown, fun _ => rfl⟩
  · exact ⟨rfl, Layout.shape_ofShape _, hown, fun _ => rfl⟩

theorem Session.allowed_of_storeTask (hroot : root < s.nodes.size) {e : TensorError}
    (h : s.storeTask root output = .error e) : e.Allowed known s.HasAssign := by
  rw [storeTask] at h
  split at h
  next target value hop =>
    split at h
    · cases h
      exact ⟨root, hroot, target, value, hop⟩
    · split at h
      · cases h
        exact ⟨root, hroot, target, value, hop⟩
      · cases h
  next => cases h
  next => cases h

namespace Fusion

variable {f : Fusion} {task : StoreTask}

theorem enters_task (hf : f.Prepared order known)
    (htask : f.session.storeTask f.root f.output = .ok task) {top : Layout}
    (hbinds : top.BindsIn known) (hwhole : (f.session.op f.root).isReduce = true →
      top.isContiguous = true ∧ top.shape = f.session.shape f.root) :
    f.Enters order known (visit f.session task.value top false) := by
  rcases Session.storeTask_ok htask with
    ⟨target, value, hop, -, -, rfl⟩ | ⟨a, hop, rfl⟩ | ⟨hassign, hcontiguous, rfl⟩
  · refine (hf.enters_visit hf.root_mem le_rfl ?_ hbinds fun _ => ?_).1
    · rw [hop]
      exact List.mem_cons_of_mem target (List.mem_singleton_self value)
    · rw [hop]
      rfl
  · refine (hf.enters_visit hf.root_mem le_rfl ?_ hbinds fun _ => ?_).1
    · rw [hop]
      exact List.mem_singleton_self a
    · rw [hop]
      rfl
  · have hview := hf.pending.isView f.root hf.root_mem
    have hvisit : visit f.session f.root top false = ⟨f.root, top, false⟩ := by
      rw [visit]
      split
      next base l hop =>
        rw [Session.isView, hop] at hview
        cases hview
      next => rfl
    rw [hvisit]
    exact ⟨hf.pending.lt f.root hf.root_mem, hview, le_rfl, fun _ => hf.root_mem, hbinds,
      fun _ => ⟨hcontiguous, hassign⟩, fun _ hreduce => ⟨rfl, hwhole hreduce⟩, fun _ => .inl rfl⟩

end Fusion

/-- A kernel of a node, which reads kernels of earlier nodes only. -/
structure FusedKernel.IsFor (s : Session) (root : Tensor) (k : FusedKernel) : Prop where
  root_eq : k.root = root
  deps_lt : ∀ t ∈ k.deps, t < root
  overwrites : ¬ s.HasAssign → k.overwrites = none

/-- How an attempt to build the kernel of a node may end. -/
def Kernelled (s : Session) (p : Session.Partition) (order : List Tensor)
    (known : SymVar × Int → Prop) (root : Tensor) : Except Stop FusedKernel → Prop
  | .ok k => k.IsFor s root
  | .error (.realize t) => Apart s order p.realize t
  | .error (.rescope ..) => False
  | .error (.fail e) => root ∈ p.realize → p.Supplies s order → e.Allowed known s.HasAssign

section BuildKernel

variable (hs : s.Coherent) (hpending : Fusion.ToCompute s order) (hcovers : s.Covers known)
  {root : Tensor} (hroot : root ∈ order) {output : BufferId} (p : Session.Partition)

omit [Width] in
theorem Session.Partition.Supplies.supplied {p : Session.Partition} (hp : p.Supplies s order)
    (houtput : p.storage.lookup root = some output) (maxViews : Nat) (store : Layout)
    (rescoped : Bool) :
    (s.fusion p maxViews root output store rescoped).Supplied order where
  alone := hp.alone
  covered := hp.covered
  distinct hnone t ht id hid heq := by
    subst heq
    exact ht (hp.distinct hnone root t _ houtput hid)

include hs hpending hcovers hroot

theorem Session.buildKernelIn_ends (maxViews : Nat) {task : StoreTask}
    (htask : s.storeTask root output = .ok task) {store : Layout}
    (hstore : task.layout.reshape shape = .ok store) {t : Tensor} (ht : t < s.nodes.size)
    (hshape : shape = s.shape t) (hwhole : (s.op root).isReduce = true → shape = s.shape root)
    (rescoped : Bool) :
    match s.buildKernelIn p maxViews root output task shape rescoped with
    | .ok k => Kernelled s p order known root (.ok k)
    | .error e => (s.fusion p maxViews root output store rescoped).Stops order known e := by
  have hlt := hpending.lt root hroot
  have hsuits := hs.suits_storeTask hcovers hlt htask
  have hprepared : (s.fusion p maxViews root output store rescoped).Prepared order known :=
    ⟨hs, hpending, hroot, hcovers⟩
  obtain ⟨top, htop⟩ : ∃ top, (Layout.ofShape (s.shape task.value)).reshape shape = .ok top := by
    refine Layout.exists_reshape ?_ hstore
    rw [hsuits.shape_layout, Layout.shape_ofShape, hsuits.shape_value]
  have hown : (Layout.ofShape (s.shape task.value)).BindsIn known := by
    rw [hsuits.shape_value]
    exact hcovers.shapes root hlt
  have hbinds : top.BindsIn known := hcovers.reshape t ht _ _ hown (hshape ▸ htop)
  have hbinds' : store.BindsIn known := hcovers.reshape t ht _ _ hsuits.binds (hshape ▸ hstore)
  have henters := Fusion.enters_task hprepared htask hbinds fun hreduce => by
    rw [hsuits.shape_value, hwhole hreduce, Layout.reshape_ofShape_self] at htop
    cases htop
    exact ⟨Layout.isContiguous_ofShape _, Layout.shape_ofShape _⟩
  have hends := Fusion.sink_ends hprepared hbinds' (Layout.shape_reshape hstore) htop henters
  rw [buildKernelIn_eq hstore]
  rw [Ends] at hends
  generalize StateT.run (Fusion.sink _ _ _) _ = result at hends ⊢
  cases result with
  | error e => exact hends
  | ok r => exact ⟨rfl, hends.deps, hsuits.overwrites⟩

/-- The kernel of a node stops at a node that has none yet, or fails as it may. -/
theorem Session.kernelled_buildKernel (maxViews : Nat) :
    Kernelled s p order known root (s.buildKernel p maxViews root) := by
  have hlt := hpending.lt root hroot
  rw [buildKernel]
  cases houtput : p.storage.lookup root with
  | none =>
    intro hmem hp
    obtain ⟨id, hid⟩ := hp.covered root hroot hmem
    rw [houtput] at hid
    cases hid
  | some output =>
  dsimp only
  split
  next e he => exact fun _ _ => allowed_of_storeTask hlt he
  next task htask =>
    have hsuits := hs.suits_storeTask hcovers hlt htask
    have hself := task.layout.reshape_self
    rw [hsuits.shape_layout] at hself
    have hfirst := buildKernelIn_ends hs hpending hcovers hroot p maxViews htask hself hlt rfl
      (fun _ => rfl) false
    split
    next t shape hrescope =>
      rw [hrescope] at hfirst
      obtain ⟨hapart, hshape, -, hreduce⟩ := hfirst
      split
      next store hstore =>
        -- The second attempt does not ask for a third.
        have hsecond := buildKernelIn_ends hs hpending hcovers hroot p maxViews htask hstore
          (hpending.lt t hapart.mem) hshape (fun h => absurd (h.symm.trans hreduce) (by decide)) true
        generalize s.buildKernelIn p maxViews root output task shape true = result at hsecond ⊢
        cases result with
        | ok k => exact hsecond
        | error e =>
          cases e with
          | realize u => exact hsecond
          | rescope u shape => cases hsecond.2.2.1
          | fail e => exact fun _ hp => hsecond (hp.supplied houtput maxViews store true)
      next => exact hapart
    next hnot =>
      generalize s.buildKernelIn p maxViews root output task (s.shape root) false = result
        at hfirst hnot ⊢
      cases result with
      | ok k => exact hfirst
      | error e =>
        cases e with
        | realize u => exact hfirst
        | rescope u shape => exact absurd rfl (hnot u shape)
        | fail e => exact fun _ hp => hfirst (hp.supplied houtput maxViews _ false)

end BuildKernel

end LazyTensor

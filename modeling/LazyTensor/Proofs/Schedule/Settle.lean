import LazyTensor.Proofs.Schedule.Precedence
import LazyTensor.Proofs.Schedule.Rounds
import LazyTensor.Proofs.Tensor.FrontEnd

/-!
# Schedules settle

The kernels of the last round read kernels of earlier nodes only, so without assignments they can be
put in order. What is left to fail are then variables that contradict each other.
-/

namespace LazyTensor

/-! ### Order -/

namespace FusedKernel

variable {kernels : List FusedKernel}

theorem isFor_of_forall₂ {s : Session} {roots : List Tensor}
    (h : List.Forall₂ (IsFor s) roots kernels) :
    kernels.map root = roots ∧ ∀ k ∈ kernels, k.IsFor s k.root := by
  induction h with
  | nil => exact ⟨rfl, nofun⟩
  | @cons r k roots kernels hk _ ih =>
    obtain rfl := hk.root_eq
    exact ⟨congrArg (k.root :: ·) ih.1, List.forall_mem_cons.mpr ⟨hk, ih.2⟩⟩

theorem root_lt_of_precedes {p k : FusedKernel} (hdeps : ∀ t ∈ k.deps, t < k.root)
    (hnone : k.overwrites = none) (h : p.precedes k = true) : p.root < k.root := by
  rw [precedes, hnone, Bool.and_eq_true] at h
  rw [Option.any_none, Bool.or_false, List.contains_iff_mem] at h
  exact hdeps p.root h.2

theorem acyclic_of_deps_lt (hdeps : ∀ k ∈ kernels, ∀ t ∈ k.deps, t < k.root)
    (hnone : ∀ k ∈ kernels, k.overwrites = none) : Acyclic kernels := by
  have hlt : ∀ p k, Relation.TransGen (Step kernels) p k → p.root < k.root := by
    intro p k hpath
    refine Relation.TransGen.trans_induction_on hpath (fun hstep => ?_) fun _ _ => Nat.lt_trans
    exact root_lt_of_precedes (hdeps _ hstep.2.1) (hnone _ hstep.2.1) (before_iff.mp hstep.2.2)
  exact fun k hpath => lt_irrefl _ (hlt k k hpath)

theorem checkAssigns_cases (kernels : List FusedKernel) :
    (∃ target first second, checkAssigns kernels = .error (.storeShape target first second)) ∧
        (∃ k ∈ kernels, k.overwrites ≠ none) ∨ checkAssigns kernels = .ok () := by
  have hforM : ∀ ks : List FusedKernel,
      (∃ target first second, ks.forM (checkAssign kernels) = .error (.storeShape target first second)) ∧
        (∃ k ∈ ks, k.overwrites ≠ none) ∨ ks.forM (checkAssign kernels) = .ok () := by
    intro ks
    induction ks with
    | nil => exact .inr rfl
    | cons k ks ih =>
      show (∃ target first second, (checkAssign kernels k >>= fun _ => ks.forM (checkAssign kernels))
        = .error (.storeShape target first second)) ∧ _ ∨
        (checkAssign kernels k >>= fun _ => ks.forM (checkAssign kernels)) = .ok ()
      have hmem : (∃ k' ∈ ks, k'.overwrites ≠ none) → ∃ k' ∈ k :: ks, k'.overwrites ≠ none :=
        fun ⟨k', hk', hne⟩ => ⟨k', List.mem_cons_of_mem k hk', hne⟩
      have hrest := ih.imp_left (And.imp_right hmem)
      cases hover : k.overwrites with
      | none =>
        rw [checkAssign, hover]
        exact hrest
      | some target =>
        have hsome : ∃ k' ∈ k :: ks, k'.overwrites ≠ none :=
          ⟨k, List.mem_cons_self, by rw [hover]; exact Option.some_ne_none target⟩
        rw [checkAssign, hover]
        dsimp only
        split
        · exact hrest
        · split
          · exact hrest
          · exact .inl ⟨⟨_, _, _, rfl⟩, hsome⟩
  exact hforM kernels

end FusedKernel

/-! ### Schedules -/

section Schedule

variable [Width] {s : Session} {ts : List Tensor} {known : SymVar × Int → Prop}

/-- The nodes with a kernel of their own from the start. -/
def Session.startAlone (s : Session) (ts : List Tensor) : Partition where
  realize := (s.pending ts).filter (s.standsAlone ts (s.pending ts))

omit [Width] in
theorem unrealized_lt_succ (order realize : List Tensor) :
    unrealized order realize < order.length + 1 :=
  Nat.lt_succ_of_le (List.length_filter_le _ _)

theorem Session.rounds_start (s : Session) (ts : List Tensor) :
    s.Rounds (s.pending ts) s (s.startAlone ts) := by
  refine ⟨s.stocked_nil, fun t ht hop => List.mem_filter.mpr ⟨ht, ?_⟩, nofun⟩
  rw [standsAlone]
  rcases hop with ⟨a, hop⟩ | ⟨target, value, hop⟩
  · rw [hop]
    exact Bool.or_true _
  · rw [hop]
    exact Bool.or_true _

/-- A schedule is made of the kernels of the last round. -/
structure Schedule.Of (s : Session) (ts : List Tensor) (config : ScheduleConfig) (s' : Session)
    (schedule : Schedule) (p : Session.Partition) (kernels ordered : List FusedKernel) : Prop where
  built : (Tensor.buildKernels config.maxViews (s.pending ts) ((s.pending ts).length + 1)
    (s.startAlone ts)).run.run s = (.ok (kernels, p), s')
  rounds : s.Rounds (s.pending ts) s' p
  supplies : p.Supplies s (s.pending ts)
  start : ∀ t ∈ (s.startAlone ts).realize, t ∈ p.realize
  kernels_eq : ((s.pending ts).filter p.realize.contains).mapM (s'.buildKernel p config.maxViews)
    = .ok kernels
  order_eq : FusedKernel.order kernels = .ok ordered
  orderFrom_eq : FusedKernel.orderFrom kernels.length kernels = .ok ordered
  items_eq : schedule.items = ordered.map (·.item)
  outputs_eq : schedule.outputs = insertElems compare
    ((ts.filterMap fun t => p.storage.lookup (s.base t)) ++ ordered.filterMap (·.overwrites)) []

theorem Tensor.schedule_ends (hs : s.Coherent) (hts : ∀ t ∈ ts, t < s.nodes.size)
    (hcovers : s.Covers known) (config : ScheduleConfig) :
    ∃ p s', s.Rounds (s.pending ts) s' p ∧
      ((∃ result kernels ordered, (schedule ts config).run.run s = (.ok result, s') ∧
        Schedule.Of s ts config s' result p kernels ordered) ∨
      ∃ e, (schedule ts config).run.run s = (.error e, s') ∧ e.Allowed known s.HasAssign) := by
  have hpending := hs.toCompute_pending hts
  obtain ⟨p, s', -, hrounds, hsupplies, hstart, houtcome⟩ :=
    exists_roundsEnd hs hpending hcovers config.maxViews (s.rounds_start ts)
  have hbuilt := houtcome _ (unrealized_lt_succ _ _)
  refine ⟨p, s', hrounds, ?_⟩
  rw [schedule, TensorM.run_get_bind]
  dsimp only
  rw [TensorM.run_bind, ← Session.startAlone]
  split at hbuilt
  next kernels hmapM =>
    rw [hbuilt]
    have hends := hrounds.ends hs hpending hcovers hsupplies config.maxViews
    rw [hmapM] at hends
    obtain ⟨hroots, hkernels⟩ := FusedKernel.isFor_of_forall₂ hends
    have hnodup : (kernels.map FusedKernel.root).Nodup := by
      rw [hroots]
      exact (s.nodup_pending ts).filter _
    dsimp only
    rcases FusedKernel.checkAssigns_cases kernels with
      ⟨⟨target, first, second, hcheck⟩, k, hk, hover⟩ | hcheck
    · rw [hcheck]
      refine .inr ⟨_, rfl, ?_⟩
      by_contra hno
      exact hover ((hkernels k hk).overwrites hno)
    · rw [hcheck]
      cases hordered : FusedKernel.order kernels with
      | ok ordered =>
        exact .inl ⟨_, kernels, ordered, rfl, hbuilt, hrounds, hsupplies, hstart, hmapM, hordered,
          (FusedKernel.order_eq_orderFrom hnodup).symm.trans hordered, rfl, rfl⟩
      | error e =>
        refine .inr ⟨_, rfl, ?_⟩
        obtain ⟨left, rfl⟩ := FusedKernel.order_error hordered
        by_contra hno
        obtain ⟨ordered, hok⟩ := (FusedKernel.acyclic_of_deps_lt (fun k hk => (hkernels k hk).deps_lt)
          fun k hk => (hkernels k hk).overwrites hno).exists_order hnodup
        rw [hok] at hordered
        cases hordered
  next =>
    obtain ⟨e, -, hallowed, hbuilt⟩ := hbuilt
    rw [hbuilt]
    exact .inr ⟨e, rfl, hallowed⟩

/-- A view of some tensor binds a variable to a value. -/
def Session.Binds (s : Session) (b : SymVar × Int) : Prop :=
  ∃ t < s.nodes.size, ∃ v ∈ (s.layout t).top :: (s.layout t).below, b ∈ v.unbind.2

/-- All sizes are numbers. -/
def Session.Concrete (s : Session) : Prop :=
  ∀ t < s.nodes.size, ∀ d ∈ s.shape t, d.isConst = true

omit [Width] in
theorem Session.Concrete.exists_dims (h : s.Concrete) {t : Tensor} (ht : t < s.nodes.size) :
    ∃ dims : List Int, s.shape t = dims.map .const := by
  have hdims : ∀ shape : Shape, (∀ d ∈ shape, d.isConst = true) →
      ∃ dims : List Int, shape = dims.map .const := by
    intro shape
    induction shape with
    | nil => exact fun _ => ⟨[], rfl⟩
    | cons d shape ih =>
      intro hconst
      rw [List.forall_mem_cons] at hconst
      obtain ⟨dims, rfl⟩ := ih hconst.2
      cases d with
      | const c => exact ⟨c :: dims, rfl⟩
      | poly terms => cases hconst.1
  exact hdims (s.shape t) (h t ht)

theorem Session.covers_true (s : Session) : s.Covers fun _ => True :=
  ⟨fun _ _ _ _ _ _ => trivial, fun _ _ _ _ _ _ => trivial, fun _ _ _ _ _ _ _ _ _ _ => trivial⟩

section Inversion

variable (hs : s.Coherent) (hts : ∀ t ∈ ts, t < s.nodes.size) {config : ScheduleConfig}
  {result : Schedule} {s' : Session} (hrun : (Tensor.schedule ts config).run.run s = (.ok result, s'))

include hs hts hrun

theorem Tensor.of_schedule :
    ∃ p kernels ordered, Schedule.Of s ts config s' result p kernels ordered := by
  obtain ⟨p, s'', -, ⟨result', kernels, ordered, hrun', h⟩ | ⟨e, hrun', -⟩⟩ :=
    schedule_ends hs hts s.covers_true config
  · rw [hrun] at hrun'
    cases hrun'
    exact ⟨p, kernels, ordered, h⟩
  · rw [hrun] at hrun'
    cases hrun'

theorem Tensor.of_item {item : ScheduleItem} (hitem : item ∈ result.items) : ∃ p kernels ordered k,
    Schedule.Of s ts config s' result p kernels ordered ∧ k ∈ ordered ∧ k.item = item := by
  obtain ⟨p, kernels, ordered, h⟩ := of_schedule hs hts hrun
  rw [h.items_eq] at hitem
  obtain ⟨k, hk, hkitem⟩ := List.mem_map.mp hitem
  exact ⟨p, kernels, ordered, k, h, hk, hkitem⟩

end Inversion

theorem Session.Concrete.covers (h : s.Concrete) : s.Covers s.Binds where
  layouts t ht v hv b hb := ⟨t, ht, v, hv, hb⟩
  shapes t ht := by
    obtain ⟨dims, hdims⟩ := h.exists_dims ht
    rw [hdims]
    exact Layout.bindsIn_ofShape dims
  reshape t ht l l' hl hreshape := by
    obtain ⟨dims, hdims⟩ := h.exists_dims ht
    rw [hdims] at hreshape
    exact hl.reshape hreshape

/-- Every kernel that stops names a node to be computed that has no kernel of its own yet, so that
building kernels over and over settles. Where sizes are numbers and nothing is assigned to, there is
a schedule unless two views bind one name to different values. -/
theorem Tensor.schedule_settles (hs : s.Built (fun _ => True) fun _ _ _ _ => True)
    (hts : ∀ t ∈ ts, t < s.nodes.size) (config : ScheduleConfig) :
    (∀ (p : Session.Partition), ∀ root ∈ s.pending ts, ∀ stop,
      s.buildKernel p config.maxViews root = .error stop →
        (∃ t, stop = .realize t ∧ t ∈ s.pending ts ∧ s.isStored t = false ∧ t ∉ p.realize) ∨
          ∃ e, stop = .fail e) ∧
    (∀ fuel, (s.pending ts).length < fuel →
      (buildKernels config.maxViews (s.pending ts) fuel (s.startAlone ts)).run.run s
        = (buildKernels config.maxViews (s.pending ts) ((s.pending ts).length + 1)
            (s.startAlone ts)).run.run s) ∧
    (∀ e, ((schedule ts config).run.run s).1 = .error e →
      e.Allowed (fun _ => True) s.HasAssign) ∧
    (s.Concrete → ¬ s.HasAssign →
      (∃ result, ((schedule ts config).run.run s).1 = .ok result) ∨
        ∃ name first second, ((schedule ts config).run.run s).1
            = .error (.conflictingBinding name first second) ∧
          first ≠ second ∧ Named s.Binds name first ∧ Named s.Binds name second) := by
  have hcoherent := hs.coherent Tensor.natural_true
  have hpending := hcoherent.toCompute_pending hts
  refine ⟨fun p root hroot stop hstop => ?_, fun fuel hfuel => ?_, fun e he => ?_,
    fun hconcrete hnone => ?_⟩
  · have hkernelled := Session.kernelled_buildKernel hcoherent hpending s.covers_true hroot p
      config.maxViews
    rw [hstop] at hkernelled
    cases stop with
    | realize t => exact .inl ⟨t, rfl, hkernelled.mem, hkernelled.not_stored, hkernelled.not_mem⟩
    | rescope t shape => exact hkernelled.elim
    | fail e => exact .inr ⟨e, rfl⟩
  · exact buildKernels_congr hcoherent hpending s.covers_true config.maxViews
      (Nat.lt_of_le_of_lt (List.length_filter_le _ _) hfuel) (unrealized_lt_succ _ _)
      (s.rounds_start ts)
  · obtain ⟨p, s', -, ⟨result, -, -, hrun, -⟩ | ⟨e', hrun, hallowed⟩⟩ :=
      schedule_ends hcoherent hts s.covers_true config
    · rw [hrun] at he
      cases he
    · rw [hrun] at he
      cases he
      exact hallowed
  · obtain ⟨p, s', -, ⟨result, -, -, hrun, -⟩ | ⟨e, hrun, hallowed⟩⟩ :=
      schedule_ends hcoherent hts hconcrete.covers config
    · exact .inl ⟨result, by rw [hrun]⟩
    · rw [hrun]
      refine .inr ?_
      cases e with
      | conflictingBinding name first second => exact ⟨name, first, second, rfl, hallowed⟩
      | assignAliasing id => exact absurd hallowed hnone
      | storeShape id expected actual => exact absurd hallowed hnone
      | storeType id expected actual => exact absurd hallowed hnone
      | cyclicSchedule left => exact absurd hallowed hnone
      | _ => exact hallowed.elim

end Schedule

/-! ### Two windows -/

section Windows

def TensorOp.isAssign : TensorOp → Bool
  | assign .. => true
  | _ => false

theorem Session.hasAssign_iff (s : Session) :
    s.HasAssign ↔ ∃ t < s.nodes.size, (s.op t).isAssign = true := by
  constructor
  · rintro ⟨t, ht, target, value, hop⟩
    exact ⟨t, ht, by rw [hop]; rfl⟩
  · rintro ⟨t, ht, hop⟩
    cases hop' : s.op t with
    | assign target value => exact ⟨t, ht, target, value, hop'⟩
    | _ =>
      rw [hop'] at hop
      cases hop

instance (s : Session) : Decidable s.HasAssign := decidable_of_iff _ s.hasAssign_iff.symm

instance (s : Session) : Decidable s.Concrete :=
  inferInstanceAs (Decidable (∀ t < s.nodes.size, ∀ d ∈ s.shape t, d.isConst = true))

def Session.after (s : Session) (act : TensorM Tensor) : Session := (act.run.run s).2

/-- The window of one element that starts where a variable is bound. -/
def window (value : Int) : Movement :=
  let v : SymVar := ⟨"i", 0, 3, some value⟩
  .shrink [(.poly [([v], 1)], .poly [([], 1), ([v], 1)])]

/-- Four numbers, and the sum of two of them that are seen through windows. -/
def twoWindows (first second : Int) : Session :=
  letI := Width.word64
  Session.after (Session.after (Session.after (Session.after {}
    (Tensor.ofValues .int32 [.int 10, .int 20, .int 30, .int 40]))
    (Tensor.move 0 (window first))) (Tensor.move 0 (window second))) (Tensor.add 1 2)

theorem add_named [Width] : Tensor.binaryNamed? "add" = some Tensor.add := rfl

/-- Windows at two places bind one name to two values. -/
theorem Tensor.schedule_conflict_twoWindows :
    @Session.Built .word64 (fun _ => True) (fun _ _ _ _ => True) (twoWindows 1 2) ∧
      (∀ t ∈ [3], t < (twoWindows 1 2).nodes.size) ∧ (twoWindows 1 2).Concrete ∧
      ¬ (twoWindows 1 2).HasAssign ∧
      ((@Tensor.schedule .word64 [3] {}).run.run (twoWindows 1 2)).1
        = .error (.conflictingBinding "i" 1 2) := by
  refine ⟨?_, by decide +kernel, by decide +kernel, by decide +kernel, rfl⟩
  let := Width.word64
  exact .call (.call (.call (.call .empty (.values _ _)) (.move (by decide +kernel) trivial))
    (.move (by decide +kernel) trivial)) (.binary (by decide +kernel) (by decide +kernel) add_named)

/-- Windows at one place agree, and the sum of what they show has a schedule. -/
theorem Tensor.schedule_settles_twoWindows :
    @Session.Built .word64 (fun _ => True) (fun _ _ _ _ => True) (twoWindows 2 2) ∧
      (∀ t ∈ [3], t < (twoWindows 2 2).nodes.size) ∧ (twoWindows 2 2).Concrete ∧
      ¬ (twoWindows 2 2).HasAssign ∧
      ∃ result, ((@Tensor.schedule .word64 [3] {}).run.run (twoWindows 2 2)).1 = .ok result := by
  have hconcrete : (twoWindows 2 2).Concrete := by decide +kernel
  have hnone : ¬ (twoWindows 2 2).HasAssign := by decide +kernel
  have hbuilt : @Session.Built .word64 (fun _ => True) (fun _ _ _ _ => True) (twoWindows 2 2) := by
    let := Width.word64
    exact .call (.call (.call (.call .empty (.values _ _)) (.move (by decide +kernel) trivial))
      (.move (by decide +kernel) trivial)) (.binary (by decide +kernel) (by decide +kernel) add_named)
  have hts : ∀ t ∈ [3], t < (twoWindows 2 2).nodes.size := by decide +kernel
  refine ⟨hbuilt, hts, hconcrete, hnone, ?_⟩
  rcases (@Tensor.schedule_settles .word64 _ _ hbuilt hts {}).2.2.2 hconcrete hnone with
    hok | ⟨name, first, second, herror, -⟩
  · exact hok
  · have hisOk : ((@Tensor.schedule .word64 [3] {}).run.run (twoWindows 2 2)).1.isOk = true := by
      decide +kernel
    rw [herror] at hisOk
    cases hisOk

end Windows

end LazyTensor

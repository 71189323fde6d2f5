import LazyTensor.Proofs.Schedule.Compute

/-!
# Assignments in order

A kernel that reads an assignment comes after it, and assignments to one buffer stay in the order in
which they were made. So only later assignments can come between the two, and none does that waits
for the reader itself.
-/

namespace LazyTensor

namespace FusedKernel

variable {kernels remaining ordered : List FusedKernel} {p k : FusedKernel} {b : BufferId}

theorem precedes_of_overwrites (hne : p.root ≠ k.root) (hk : k.overwrites = some b)
    (hp : b ∈ p.reads ∨ p.overwrites = some b ∧ p.root < k.root) : p.precedes k = true := by
  rw [precedes, hk, bne_iff_ne.mpr hne, Bool.true_and, Option.any_some, Bool.or_eq_true]
  right
  rw [Bool.or_eq_true, List.contains_iff_mem, Bool.and_eq_true, beq_iff_eq, decide_eq_true_eq]
  exact hp

theorem pairwise_orderFrom {count : Nat} (h : orderFrom count remaining = .ok ordered) :
    (∀ k ∈ ordered, k ∈ remaining) ∧
      ordered.Pairwise fun k p => p.root ≠ k.root ∧ p.precedes k = false := by
  induction count generalizing remaining ordered with
  | zero =>
    obtain rfl := Except.ok.inj h
    exact ⟨nofun, .nil⟩
  | succ count ih =>
    obtain ⟨first, rest, rfl, hmem, hmin, hrest⟩ := orderFrom_ok h
    have hready := not_precedes_of_firstMin? hmin
    obtain ⟨hsubset, hpairwise⟩ := ih hrest
    have hremaining : ∀ k ∈ rest, k ∈ remaining ∧ k.root ≠ first.root := by
      intro k hk
      obtain ⟨hk, hne⟩ := List.mem_filter.mp (hsubset k hk)
      exact ⟨hk, bne_iff_ne.mp hne⟩
    constructor
    · intro k hk
      rcases List.mem_cons.mp hk with rfl | hk
      · exact hmem
      · exact (hremaining k hk).1
    · refine List.pairwise_cons.mpr ⟨?_, hpairwise⟩
      intro k hk
      exact ⟨(hremaining k hk).2, hready k (hremaining k hk).1⟩

section Positions

variable {i j count : Nat} (horder : orderFrom count kernels = .ok ordered)

include horder

theorem pairwise_order (hi : ordered[i]? = some p) (hj : ordered[j]? = some k) (hlt : i < j) :
    k.root ≠ p.root ∧ k.precedes p = false := by
  obtain ⟨hi', rfl⟩ := List.getElem?_eq_some_iff.mp hi
  obtain ⟨hj', rfl⟩ := List.getElem?_eq_some_iff.mp hj
  exact List.pairwise_iff_getElem.mp (pairwise_orderFrom horder).2 i j hi' hj' hlt

theorem lt_of_precedes (hi : ordered[i]? = some p) (hj : ordered[j]? = some k)
    (hprecedes : p.precedes k = true) : i < j := by
  rcases Nat.lt_trichotomy i j with hlt | rfl | hlt
  · exact hlt
  · -- No kernel waits for itself.
    obtain rfl : p = k := Option.some.inj (hi.symm.trans hj)
    rw [precedes, bne_self_eq_false, Bool.false_and] at hprecedes
    cases hprecedes
  · have hnot := (pairwise_order horder hj hi hlt).2
    rw [hprecedes] at hnot
    cases hnot

/-- Between an assignment and its reader stand only later assignments that do not wait for the
reader. -/
theorem later_of_between {l : Nat} {a r : FusedKernel} (hi : ordered[i]? = some a)
    (hj : ordered[j]? = some k) (hl : ordered[l]? = some r) (hij : i < j) (hjl : j < l)
    (ha : a.overwrites = some b) (hk : k.overwrites = some b) :
    a.root < k.root ∧ r.root ∉ k.deps := by
  obtain ⟨hne, hafter⟩ := pairwise_order horder hi hj hij
  obtain ⟨hne', hbefore⟩ := pairwise_order horder hj hl hjl
  constructor
  · apply Nat.lt_of_le_of_ne
    · apply Nat.le_of_not_lt
      intro hlt
      rw [precedes_of_overwrites hne ha (.inr ⟨hk, hlt⟩)] at hafter
      cases hafter
    · exact hne.symm
  · intro hdep
    rw [precedes_of_mem_deps hne' hdep] at hbefore
    cases hbefore

end Positions

end FusedKernel

section Given

variable [Width] {s s' : Session} {ts : List Tensor} {config : ScheduleConfig} {result : Schedule}
  {p : Session.Partition} {kernels ordered : List FusedKernel} {k : FusedKernel}

theorem Session.overwrites_of_storeTask {root : Tensor} {output : BufferId} {task : StoreTask}
    (h : s.storeTask root output = .ok task) :
    (∃ target value, s.op root = .assign target value) ∧ task.overwrites = some output ∨
      (∀ target value, s.op root ≠ .assign target value) ∧ task.overwrites = none := by
  rcases storeTask_ok h with ⟨target, value, hop, -, -, rfl⟩ | ⟨a, hop, rfl⟩ | ⟨hassign, -, rfl⟩
  · exact .inl ⟨⟨target, value, hop⟩, rfl⟩
  · refine .inr ⟨?_, rfl⟩
    intro target value hassign
    rw [hop] at hassign
    cases hassign
  · exact .inr ⟨hassign, rfl⟩

namespace Schedule.Of

variable (h : Schedule.Of s ts config s' result p kernels ordered)

include h

variable (hk : k ∈ ordered)

include hk

theorem buildKernel_eq :
    k.root ∈ s.pending ts ∧ s'.buildKernel p config.maxViews k.root = .ok k := by
  obtain ⟨root, hroot, hbuild⟩ := (exists_of_mapM_ok h.kernels_eq).2 k
    ((FusedKernel.pairwise_orderFrom h.orderFrom_eq).1 k hk)
  obtain ⟨output, task, store, t, rescoped, u, d, -, -, -, -, rfl, -⟩ := Session.buildKernel_ok hbuild
  exact ⟨(List.mem_filter.mp hroot).1, hbuild⟩

theorem output_given :
    p.storage.lookup k.root = some k.item.output ∧ s.Given s' k.root k.item.output ∧
      ((∃ target value, s.op k.root = .assign target value) ∧ k.overwrites = some k.item.output ∨
        (∀ target value, s.op k.root ≠ .assign target value) ∧ k.overwrites = none) := by
  obtain ⟨-, hbuild⟩ := h.buildKernel_eq hk
  obtain ⟨output, task, store, t, rescoped, u, d, houtput, htask, -, -, hkernel, -⟩ :=
    Session.buildKernel_ok hbuild
  have hkoutput : k.item.output = output := congrArg (·.item.output) hkernel
  have hkover : k.overwrites = task.overwrites := congrArg (·.overwrites) hkernel
  have hop : s'.op k.root = s.op k.root := by
    rw [Session.op, Session.node, h.rounds.stocked.nodes_eq, Session.op, Session.node]
  have htask := Session.overwrites_of_storeTask htask
  rw [hop, ← hkover, ← hkoutput] at htask
  rw [← hkoutput] at houtput
  exact ⟨houtput, h.rounds.stocked.given _ _ houtput, htask⟩

theorem op_of_overwrites {b : BufferId} (hb : k.overwrites = some b) :
    ∃ target, s.storage (s.base target) = some b := by
  obtain ⟨-, hgiven, ⟨⟨target, value, hop⟩, hover⟩ | ⟨-, hover⟩⟩ := h.output_given hk
  · rw [hover] at hb
    obtain rfl := Option.some.inj hb
    exact ⟨target, hgiven.of_assign hop⟩
  · rw [hover] at hb
    cases hb

theorem overwrites_of_output_lt (hlt : k.item.output < s.memory.buffers.size) :
    k.overwrites = some k.item.output := by
  obtain ⟨-, hgiven, ⟨-, hover⟩ | ⟨hop, -⟩⟩ := h.output_given hk
  · exact hover
  · exact absurd hlt (Nat.not_lt_of_le (hgiven.of_not_assign hop).1)

end Schedule.Of

/-- A kernel that reads an assignment runs after it. No other kernel writes the buffer in between if
every later assignment to it reads what the kernel computes. -/
theorem Tensor.schedule_reads_assigned (hs : s.Built (fun _ => True) fun _ _ _ _ => True)
    (hts : ∀ t ∈ ts, t < s.nodes.size) (hrun : (schedule ts config).run.run s = (.ok result, s')) :
    ∃ kernels p ordered,
      (buildKernels config.maxViews (s.pending ts) ((s.pending ts).length + 1)
        (s.startAlone ts)).run.run s = (.ok (kernels, p), s') ∧
      FusedKernel.order kernels = .ok ordered ∧ result.items = ordered.map (·.item) ∧
      ∀ (i l : Nat) (a r : FusedKernel) (b : BufferId), ordered[i]? = some a → ordered[l]? = some r →
        a.overwrites = some b → a.root ∈ r.deps →
        i < l ∧
        ((∀ k ∈ ordered, k.overwrites = some b → a.root < k.root → r.root ∈ k.deps) →
          ∀ (j : Nat) (k : FusedKernel), i < j → j < l → ordered[j]? = some k → k.item.output ≠ b) := by
  have hcoherent := hs.coherent Tensor.natural_true
  obtain ⟨p, kernels, ordered, h⟩ := of_schedule hcoherent hts hrun
  refine ⟨kernels, p, ordered, h.built, h.order_eq, h.items_eq, ?_⟩
  intro i l a r b hi hl ha hdep
  have hmem := List.mem_of_getElem? hi
  have hlt : a.root < r.root := by
    have hends := h.rounds.ends hcoherent (hcoherent.toCompute_pending hts) s.covers_true h.supplies
      config.maxViews
    rw [h.kernels_eq] at hends
    have hkernel := (FusedKernel.pairwise_orderFrom h.orderFrom_eq).1 r (List.mem_of_getElem? hl)
    exact ((FusedKernel.isFor_of_forall₂ hends).2 r hkernel).deps_lt a.root hdep
  refine ⟨FusedKernel.lt_of_precedes h.orderFrom_eq hi hl
    (FusedKernel.precedes_of_mem_deps (Nat.ne_of_lt hlt) hdep), ?_⟩
  intro hlast j k hij hjl hj hout
  -- The buffer was there before, so that only an assignment writes it.
  obtain ⟨target, hstorage⟩ := h.op_of_overwrites hmem ha
  have hold := hcoherent.storage_lt _ (Session.lt_of_storage hstorage) b hstorage
  have hk := List.mem_of_getElem? hj
  have hover : k.overwrites = some b := by
    rw [← hout]
    apply h.overwrites_of_output_lt hk
    rw [hout]
    exact hold
  obtain ⟨hlater, hnot⟩ := FusedKernel.later_of_between h.orderFrom_eq hi hj hl hij hjl ha hover
  exact hnot (hlast k hk hover hlater)

end Given

section Reassigned

theorem neg_named [Width] : Tensor.unaryNamed? "neg" = some Tensor.neg := rfl

/-- Two numbers that are assigned to twice, the negation of what is assigned last, and another. -/
def reassigned : Session :=
  letI := Width.word64
  Session.after (Session.after (Session.after (Session.after (Session.after (Session.after
    (Session.after {} (Tensor.ofValues .int32 [.int 1, .int 2]))
    (Tensor.ofValues .int32 [.int 10, .int 20])) (Tensor.assign 0 1))
    (Tensor.ofValues .int32 [.int 100, .int 200])) (Tensor.assign 0 3)) (Tensor.neg 1)) (Tensor.neg 4)

/-- What decides the order of the kernels of a schedule. -/
def Session.edges [Width] (s : Session) (ts : List Tensor) (config : ScheduleConfig) :
    Option (List (Tensor × List Tensor × Option BufferId)) :=
  match (Tensor.buildKernels config.maxViews (s.pending ts) ((s.pending ts).length + 1)
    (s.startAlone ts)).run.run s with
  | (.ok (kernels, _), _) =>
    (FusedKernel.order kernels).toOption.map (·.map fun k => (k.root, k.deps, k.overwrites))
  | _ => none

theorem Session.edges_eq [Width] {s s' : Session} {ts : List Tensor} {config : ScheduleConfig}
    {kernels ordered : List FusedKernel} {p : Session.Partition}
    (h : (Tensor.buildKernels config.maxViews (s.pending ts) ((s.pending ts).length + 1)
      (s.startAlone ts)).run.run s = (.ok (kernels, p), s'))
    (horder : FusedKernel.order kernels = .ok ordered) :
    s.edges ts config = some (ordered.map fun k => (k.root, k.deps, k.overwrites)) := by
  rw [edges, h]
  dsimp only
  rw [horder]
  rfl

/-- The negation comes after both assignments and another kernel, which writes elsewhere. -/
theorem Tensor.schedule_reads_assigned_reassigned :
    @Session.Built .word64 (fun _ => True) (fun _ _ _ _ => True) reassigned ∧
      (∀ t ∈ [2, 5, 6], t < reassigned.nodes.size) ∧
      ∃ result s', (@Tensor.schedule .word64 [2, 5, 6] {}).run.run reassigned = (.ok result, s') ∧
        result.items.map (·.root) = [2, 4, 5, 6] ∧
        ∀ i, result.items[2]? = some i → i.output ≠ 0 := by
  let := Width.word64
  have hbuilt : reassigned.Built (fun _ => True) fun _ _ _ _ => True :=
    .call (.call (.call (.call (.call (.call (.call .empty (.values _ _)) (.values _ _))
      (.assign (by decide +kernel) (by decide +kernel))) (.values _ _))
      (.assign (by decide +kernel) (by decide +kernel))) (.unary (by decide +kernel) neg_named))
      (.unary (by decide +kernel) neg_named)
  have hts : ∀ t ∈ [2, 5, 6], t < reassigned.nodes.size := by decide +kernel
  have hroots : ((Tensor.schedule [2, 5, 6] {}).run.run reassigned).1.toOption.map
      (·.items.map (·.root)) = some [2, 4, 5, 6] := by decide +kernel
  have hedges : reassigned.edges [2, 5, 6] {}
      = some [(2, [], some 0), (4, [], some 0), (5, [], none), (6, [4], none)] := by decide +kernel
  refine ⟨hbuilt, hts, ?_⟩
  obtain ⟨result, s', hrun, hroots⟩ := exists_of_toOption_map hroots
  refine ⟨result, _, hrun, hroots, ?_⟩
  obtain ⟨kernels, p, ordered, hkernels, horder, hitems, hbetween⟩ :=
    Tensor.schedule_reads_assigned hbuilt hts hrun
  have hmap : ordered.map (fun k => (k.root, k.deps, k.overwrites))
      = [(2, [], some 0), (4, [], some 0), (5, [], none), (6, [4], none)] :=
    Option.some.inj ((Session.edges_eq hkernels horder).symm.trans hedges)
  simp only [List.map_eq_cons_iff, List.map_eq_nil_iff, Prod.mk.injEq] at hmap
  obtain ⟨first, -, rfl, ⟨hfirst, -, -⟩, last, -, rfl, ⟨hlast, -, hbuffer⟩, other, -, rfl,
    ⟨-, -, hother⟩, reader, -, rfl, ⟨-, hdeps, hreader⟩, rfl⟩ := hmap
  rw [hitems]
  intro i hi
  obtain rfl : other.item = i := Option.some.inj hi
  have hread : last.root ∈ reader.deps := by
    rw [hlast, hdeps]
    exact List.mem_singleton_self 4
  refine (hbetween 1 3 last reader 0 rfl rfl hbuffer hread).2 ?_ 2 other (by decide) (by decide) rfl
  -- No assignment comes after the one that is read.
  intro k hk hover hlater
  rw [hlast] at hlater
  simp only [List.mem_cons, List.not_mem_nil, or_false] at hk
  rcases hk with rfl | rfl | rfl | rfl
  · rw [hfirst] at hlater
    exact absurd hlater (by decide)
  · rw [hlast] at hlater
    exact absurd hlater (by decide)
  · rw [hother] at hover
    cases hover
  · rw [hreader] at hover
    cases hover

end Reassigned

end LazyTensor

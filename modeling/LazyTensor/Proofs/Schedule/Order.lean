import LazyTensor.Proofs.Schedule.Kernel
import LazyTensor.Proofs.Schedule.Precedence

/-!
# Kernels in order

The kernels of a schedule are put in an order in which each comes after those that it depends on.
Carried out in that order, every one of them finds what it reads and leaves its own tensor behind.
-/

namespace LazyTensor

namespace FusedKernel

theorem exists_mem_orderFrom {count : Nat} {remaining ordered : List FusedKernel} {k : FusedKernel}
    (h : orderFrom count remaining = .ok ordered) (hcount : remaining.length ≤ count)
    (hk : k ∈ remaining) : ∃ k' ∈ ordered, k' ∈ remaining ∧ k'.root = k.root := by
  induction count generalizing remaining ordered with
  | zero =>
    rw [List.eq_nil_of_length_eq_zero (Nat.le_zero.mp hcount)] at hk
    cases hk
  | succ count ih =>
    obtain ⟨first, rest, rfl, hmem, -, hrest⟩ := orderFrom_ok h
    by_cases hroot : k.root = first.root
    · exact ⟨first, List.mem_cons_self, hmem, hroot.symm⟩
    · have hshorter : (remaining.filter fun p => p.root != first.root).length < remaining.length :=
        List.length_filter_lt_length_iff_exists.mpr ⟨first, hmem, by simp⟩
      obtain ⟨k', hk', hmem', hroot'⟩ := ih hrest (by omega)
        (List.mem_filter.mpr ⟨hk, bne_iff_ne.mpr hroot⟩)
      exact ⟨k', List.mem_cons_of_mem first hk', (List.mem_filter.mp hmem').1, hroot'⟩

theorem precedes_of_mem_deps {p k : FusedKernel} (hne : p.root ≠ k.root) (hdep : p.root ∈ k.deps) :
    p.precedes k = true := by
  rw [precedes, bne_iff_ne.mpr hne, List.contains_iff_mem.mpr hdep]
  rfl

end FusedKernel

section Run

variable [Width]

/-- The kernels of a schedule together with the buffers for their results. -/
structure KernelPlan (s : Session) (storage : List (Tensor × BufferId)) (kernels : List FusedKernel) :
    Prop where
  computes : ∀ k ∈ kernels, ∃ id, storage.lookup k.root = some id ∧ k.Computes s storage k.root id
  complete : ∀ t id, storage.lookup t = some id → ∃ k ∈ kernels, k.root = t
  injective : ∀ t u id, storage.lookup t = some id → storage.lookup u = some id → t = u
  fresh : ∀ t id, storage.lookup t = some id → ∀ u < s.nodes.size, s.storage u ≠ some id
  defined : ∀ k ∈ kernels, s.Defined k.root

/-- What memory holds while some kernels remain to be carried out. -/
structure Progress (s : Session) (storage : List (Tensor × BufferId)) (remaining : List FusedKernel)
    (m : Memory) : Prop where
  retains : s.Retains m
  held : ∀ t id, storage.lookup t = some id → (∀ k ∈ remaining, k.root ≠ t) → s.HeldIn t m id
  blank : ∀ k ∈ remaining, ∀ id, storage.lookup k.root = some id → m.get? id = some (s.blank k.root)

variable {s : Session} {storage : List (Tensor × BufferId)} {kernels remaining ordered : List FusedKernel}
  {m : Memory} {k : FusedKernel}

theorem Progress.step (h : Progress s storage remaining m) (hplan : KernelPlan s storage kernels)
    (hk : k ∈ kernels) (hmem : k ∈ remaining) (hready : ∀ p ∈ remaining, p.precedes k = false) :
    ∃ m', k.item.run m = some m' ∧
      Progress s storage (remaining.filter fun p => p.root != k.root) m' := by
  obtain ⟨id, hid, hcomputes⟩ := hplan.computes k hk
  have hdeps : ∀ u other, u ∈ k.deps → storage.lookup u = some other → s.HeldIn u m other := by
    intro u other hu hother
    refine h.held u other hother fun p hp hroot => ?_
    have hne : p.root ≠ k.root := hroot ▸ (hcomputes.deps_stored u hu).1
    have hprecedes := FusedKernel.precedes_of_mem_deps hne (hroot ▸ hu)
    rw [hready p hp] at hprecedes
    cases hprecedes
  obtain ⟨m', hrun, hheld, hothers⟩ := hcomputes.exists_run m h.retains hdeps
    (h.blank k hmem id hid) (hplan.defined k hk)
  refine ⟨m', hrun, ?_, ?_, ?_⟩
  · intro t other ht hother
    refine (h.retains t other ht hother).congr (hothers other ?_)
    rintro rfl
    exact hplan.fresh k.root other hid t ht hother
  · intro t other hother hdone
    by_cases hroot : t = k.root
    · subst hroot
      obtain rfl : id = other := Option.some.inj (hid.symm.trans hother)
      exact hheld
    · refine (h.held t other hother fun p hp hp' => ?_).congr (hothers other ?_)
      · subst hp'
        exact hdone p (List.mem_filter.mpr ⟨hp, bne_iff_ne.mpr hroot⟩) rfl
      · rintro rfl
        exact hroot (hplan.injective t k.root other hother hid)
  · intro p hp other hother
    obtain ⟨hp, hne⟩ := List.mem_filter.mp hp
    rw [hothers other, h.blank p hp other hother]
    rintro rfl
    exact bne_iff_ne.mp hne (hplan.injective p.root k.root other hother hid)

theorem Progress.run (hplan : KernelPlan s storage kernels) {count : Nat}
    (h : Progress s storage remaining m) (hremaining : ∀ k ∈ remaining, k ∈ kernels)
    (hcount : remaining.length ≤ count)
    (horder : FusedKernel.orderFrom count remaining = .ok ordered) :
    ∃ m', (ordered.map (·.item)).foldlM (fun m i => i.run m) m = some m' ∧
      Progress s storage [] m' := by
  induction count generalizing remaining ordered m with
  | zero =>
    obtain rfl := List.eq_nil_of_length_eq_zero (Nat.le_zero.mp hcount)
    obtain rfl := Except.ok.inj horder
    exact ⟨m, rfl, h⟩
  | succ count ih =>
    obtain ⟨k, rest, rfl, hmem, hmin, horder⟩ := FusedKernel.orderFrom_ok horder
    obtain ⟨m₁, hrun, h₁⟩ := h.step hplan (hremaining k hmem) hmem
      (FusedKernel.not_precedes_of_firstMin? hmin)
    have hshorter : (remaining.filter fun p => p.root != k.root).length < remaining.length :=
      List.length_filter_lt_length_iff_exists.mpr ⟨k, hmem, by simp⟩
    obtain ⟨m₂, hrest, h₂⟩ := ih h₁ (fun p hp => hremaining p (List.mem_filter.mp hp).1)
      (by omega) horder
    refine ⟨m₂, ?_, h₂⟩
    rw [List.map_cons, List.foldlM_cons, hrun]
    exact hrest

end Run

end LazyTensor

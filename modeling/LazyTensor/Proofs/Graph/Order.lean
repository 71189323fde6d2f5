import LazyTensor.Proofs.Graph.Twin

/-!
# The order of nodes

In a graph that was built by insertions the order of a root lists the nodes under it, each once and
after its sources. Pruning lays them out in just that order.
-/

namespace LazyTensor

namespace Walk

variable {α : Type} [BEq α] [LawfulBEq α]

theorem getLast?_postorder (reads : α → List α) (count : Nat) (root : α) :
    (postorder reads count root).getLast? = some root := by
  rw [postorder, postorderFrom, List.foldl_cons, List.foldl_nil,
    visit_of_not_seen List.not_mem_nil, List.getLast?_reverse, List.head?_cons]

end Walk

namespace Graph

variable {g P : Graph} {root r : Ref} {done : List Ref} {places : List (Ref × Ref)}

theorem Built.twin (hg : g.Built) (hr : r < g.size) : Twin g g r r := by
  induction hg generalizing r with
  | empty => exact absurd hr (Nat.not_lt_zero r)
  | @insert g n hbuilt hsources ih =>
    obtain ⟨hgrows, hholds⟩ := insert_spec hbuilt.sound.wellFormed n
    by_cases hlt : r < g.size
    · exact (ih hlt).grows hgrows hgrows
    · rw [eq_of_lt_insert hlt hr]
      refine .node (f := id) hholds (by rwa [Op.mapSources_id]) ?_
      rw [Op.sources_mapSources, List.forall_mem_map]
      intro s hs
      exact (ih (hbuilt.sound.wellFormed.resolve_lt (hsources s hs))).grows hgrows hgrows

/-- The nodes that are done fill the slots in their order. -/
structure Consecutive (done : List Ref) (P : Graph) (places : List (Ref × Ref)) : Prop where
  size_eq : P.size = done.length
  lookup_eq : ∀ r ∈ done, places.lookup r = some (done.idxOf r)

theorem Consecutive.twin (hP : Copied g done.reverse P places) (h : Consecutive done P places)
    (hr : r ∈ done) : Twin g P r (done.idxOf r) := by
  obtain ⟨i, hi, htwin⟩ := hP.twin r (List.mem_reverse.mpr hr)
  rw [h.lookup_eq r hr] at hi
  rwa [Option.some.inj hi]

theorem Consecutive.node (hg : g.Sound) (hnodup : (done ++ [r]).Nodup)
    (hP : Copied g done.reverse P places)
    (hcopied : Copied g (done ++ [r]).reverse (copyNode g P places r).1 (copyNode g P places r).2)
    (h : Consecutive done P places) :
    Consecutive (done ++ [r]) (copyNode g P places r).1 (copyNode g P places r).2 := by
  have hr : r ∉ done := fun hr => List.disjoint_of_nodup_append hnodup hr List.mem_cons_self
  obtain ⟨i, hi, htwin⟩ := hcopied.twin r (by simp)
  simp only [copyNode, List.lookup_cons_self, Option.some.injEq] at hi htwin ⊢
  generalize ({ g.get r with op := (g.get r).op.mapSources (placeOf g places) } : Instr) = n
    at hi htwin ⊢
  rcases insert_cases P n with ⟨hholds, hsame⟩ | ⟨-, hplace, hpush⟩
  · -- A slot that was there has the twin of a node that is done.
    have hlt : i < done.length := by
      rw [← h.size_eq, ← hi]
      exact hholds.lt_size
    have hold := h.twin hP (List.getElem_mem hlt)
    rw [hnodup.of_append_left.idxOf_getElem] at hold
    rw [hsame] at htwin
    rw [(htwin.eq_iff hg hP.sound hold).mpr rfl] at hr
    exact absurd (List.getElem_mem hlt) hr
  · refine ⟨?_, fun x hx => ?_⟩
    · rw [hpush, List.length_append, List.length_singleton, ← h.size_eq]
      exact Array.size_push _
    · rw [List.lookup_cons]
      by_cases hxr : x = r
      · rw [hxr, beq_self_eq_true, List.idxOf_append_of_notMem hr, List.idxOf_cons_self, hplace,
          h.size_eq]
        rfl
      · have hmem : x ∈ done := by simpa [hxr] using hx
        rw [beq_false_of_ne hxr, List.idxOf_append_of_mem hmem]
        exact h.lookup_eq x hmem

theorem Twin.consecutive_prune (hg : g.Sound) (hroot : Twin g g root root) :
    (g.prune root).1.Sound ∧ (g.prune root).1.size = (g.order root).length ∧
      ∀ r ∈ g.order root, Twin g (g.prune root).1 r ((g.order root).idxOf r) := by
  obtain ⟨hcopied, h⟩ := copyFrom_induction (I := Consecutive) hg hroot ⟨rfl, by simp⟩
    fun before P places r hnodup hP hcopied hI => hI.node hg hnodup hP hcopied
  exact ⟨hcopied.sound, h.size_eq, fun r hr => h.twin hcopied hr⟩

theorem Twin.nodes_prune (hg : g.Sound) (hroot : Twin g g root root) :
    (g.prune root).1.nodes.toList = g.numbered root := by
  obtain ⟨hsound, hsize, htwins⟩ := hroot.consecutive_prune hg
  refine List.ext_getElem? fun i => ?_
  rw [numbered, List.getElem?_map, Array.getElem?_toList]
  by_cases hi : i < (g.order root).length
  · have hmem := List.getElem_mem hi
    have htwin := htwins _ hmem
    rw [(nodup_order g root).idxOf_getElem] at htwin
    rw [List.getElem?_eq_getElem hi, Option.map_some]
    generalize (g.order root)[i] = r at hmem htwin
    obtain @⟨_, _, o, t, f, left, right, source⟩ := htwin
    rw [left.get_eq, right.2]
    simp only
    rw [Op.mapSources_congr]
    intro s hs
    rw [(source s hs).resolve_eq.1]
    refine ((source s hs).eq_iff hg hsound (htwins s ?_)).mp rfl
    refine hg.sources_mem_order hroot.lt_size.1 hmem ?_
    rw [sources, op, left.get_eq]
    exact List.mem_map.mpr ⟨s, hs, (source s hs).resolve_eq.1⟩
  · rw [List.getElem?_eq_none (Nat.le_of_not_lt hi), Option.map_none]
    exact Array.getElem?_eq_none (hsize.le.trans (Nat.le_of_not_lt hi))

theorem Twin.order_prune (hg : g.Sound) (hroot : Twin g g root root) :
    (g.prune root).1.order (g.prune root).2 = List.range (g.order root).length := by
  obtain ⟨hsound, -, htwins⟩ := hroot.consecutive_prune hg
  have horders := Correspondence.twins.order ⟨hg, hsound⟩ (hroot.prune hg).2.1
  refine List.ext_getElem (by rw [List.length_range, horders.length_eq]) fun i hi hi' => ?_
  rw [List.length_range] at hi'
  have htwin := htwins _ (List.getElem_mem hi')
  rw [(nodup_order g root).idxOf_getElem] at htwin
  rw [List.getElem_range]
  exact ((horders.get hi' hi).eq_iff hg hsound htwin).mp rfl

theorem WellFormed.toposort_eq (hg : g.WellFormed) (root : Ref) : g.toposort root = g.order root := by
  refine Walk.drain_eq_postorder (fun r hr => ?_) (g.resolve root)
  rw [sources, op_of_ge hg hr]
  rfl

/-- The loop over a stack lists the nodes under a root, each once, after its sources and the root
last. Pruning lays out the nodes in that order, sources numbered by position, so that the order of
what it gives is that of the slots. -/
theorem Built.toposort_lists_reachable (hg : g.Built) (hroot : root < g.size) :
    (∀ r, r ∈ g.toposort root ↔ Walk.Reaches g.sources root r) ∧ (g.toposort root).Nodup ∧
      (∀ before r after, g.toposort root = before ++ r :: after → ∀ s ∈ g.sources r, s ∈ before) ∧
      (g.toposort root).getLast? = some root ∧
      (g.prune root).1.nodes.toList = (g.toposort root).map (fun r => { g.get r with
        op := (g.get r).op.mapSources fun s => (g.toposort root).idxOf (g.resolve s) }) ∧
      (g.prune root).1.toposort (g.prune root).2 = List.range (g.toposort root).length := by
  have htwin := hg.twin hroot
  have hself := htwin.resolve_eq.1
  rw [hg.sound.wellFormed.toposort_eq,
    (htwin.consecutive_prune hg.sound).1.wellFormed.toposort_eq]
  refine ⟨fun r => ?_, nodup_order g root, fun before r after horder => ?_, ?_,
    htwin.nodes_prune hg.sound, htwin.order_prune hg.sound⟩
  · rw [hg.sound.mem_order_iff hroot, hself]
  · exact hg.sound.sources_done hroot horder
  · rw [order, Walk.getLast?_postorder, hself]

/-- A sum whose right side its left side reads twice, beside an unused constant. -/
def sharedSum : Graph :=
  (((Graph.insert {} ⟨.const (.int 3), .index⟩).2.insert ⟨.const (.int 5), .index⟩).2.insert
    ⟨.binary .add 1 1, .index⟩).2.insert ⟨.binary .add 2 1, .index⟩ |>.2

theorem Built.toposort_lists_reachable_sharedSum :
    sharedSum.toposort 3 = [1, 2, 3] ∧
      (sharedSum.prune 3).1.toposort (sharedSum.prune 3).2 = [0, 1, 2] := by
  have hbuilt : sharedSum.Built :=
    .insert (.insert (.insert (.insert .empty (by decide)) (by decide)) (by decide)) (by decide)
  have horder : sharedSum.toposort 3 = [1, 2, 3] := by
    rw [hbuilt.sound.wellFormed.toposort_eq]
    decide +kernel
  have hprune := (hbuilt.toposort_lists_reachable (by decide : 3 < sharedSum.size)).2.2.2.2.2
  rw [horder] at hprune
  exact ⟨horder, hprune⟩

end Graph

end LazyTensor

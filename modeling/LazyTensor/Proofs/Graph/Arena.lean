import LazyTensor.Graph.Arena
import LazyTensor.Proofs.Graph.Sound

/-!
# Arenas and graphs

An arena with its memo and chains of forwards does what a graph does that searches its slots and has
the end of every chain at hand. So whatever is interned and overwritten, the memo leads to just the
slots in use and forwards end.
-/

namespace LazyTensor

namespace Arena

variable {a b : Arena} {g : Graph} {n m : Instr} {r i j x : Ref} {k : Nat}

/-! ### Forwards -/

def Forwards (a : Arena) (i j : Ref) : Prop := a.forward.getD i none = some j

/-- The slot was not given up. -/
def Live (a : Arena) (i : Ref) : Prop := a.forward.getD i none = none

theorem follow_of_live (h : a.Live r) : a.follow k r = r := by
  cases k with
  | zero => rfl
  | succ k => rw [follow, h]

theorem follow_of_forwards (h : a.Forwards r j) : a.follow (k + 1) r = a.follow k j := by
  rw [follow, h]

theorem reaches_follow (a : Arena) (k : Nat) (r : Ref) :
    Relation.ReflTransGen a.Forwards r (a.follow k r) := by
  induction k generalizing r with
  | zero => exact .refl
  | succ k ih =>
    rw [follow]
    split
    next j hr => exact .head hr (ih j)
    next => exact .refl

theorem not_live_of_cycle (h : Relation.TransGen a.Forwards r r) : ¬a.Live (a.follow k r) := by
  obtain ⟨j, hrj, hjr⟩ := Relation.TransGen.head'_iff.mp h
  induction k generalizing r j with
  | zero => exact fun hlive => by cases hlive.symm.trans hrj
  | succ k ih =>
    have hj := Relation.TransGen.tail' hjr hrj
    obtain ⟨l, hjl, hlj⟩ := Relation.TransGen.head'_iff.mp hj
    rw [follow_of_forwards hrj]
    exact ih hj l hjl hlj

theorem follow_congr (h : ∀ r, b.forward.getD r none = a.forward.getD r none) :
    b.follow k r = a.follow k r := by
  induction k generalizing r with
  | zero => rfl
  | succ k ih =>
    rw [follow, follow, h]
    split
    · exact ih
    · rfl

section Forward

variable (hforward : ∀ r, b.forward.getD r none = if r = i then some j else a.forward.getD r none)
  (hj : a.Live j) (hij : j ≠ i)

include hforward hj hij

theorem follow_live (hr : a.Live r) : b.follow (k + 1) r = if r = i then j else r := by
  have hlive : ∀ {s}, s ≠ i → a.Live s → b.Live s := fun hs h =>
    (hforward _).trans ((if_neg hs).trans h)
  split
  next h => rw [follow_of_forwards ((hforward r).trans (if_pos h)), follow_of_live (hlive hij hj)]
  next h => exact follow_of_live (hlive h hr)

/-- A forward from the end of one chain to the end of another makes chains longer by one at most. -/
theorem follow_forward (hi : a.Live i) (hr : a.Live (a.follow k r)) :
    b.follow (k + 1) r = if a.follow k r = i then j else a.follow k r := by
  induction k generalizing r with
  | zero => exact follow_live hforward hj hij hr
  | succ k ih =>
    cases hr' : a.forward.getD r none with
    | none =>
      rw [follow_of_live hr']
      exact follow_live hforward hj hij hr'
    | some s =>
      have hne : r ≠ i := fun h => by cases hi.symm.trans (h ▸ hr')
      rw [follow_of_forwards hr'] at hr ⊢
      rw [follow_of_forwards ((hforward r).trans ((if_neg hne).trans hr'))]
      exact ih hr

end Forward

/-! ### Refinement -/

/-- The graph has the slots of the arena, with the end of the chain from each. -/
structure Refines (a : Arena) (g : Graph) : Prop where
  wellFormed : g.WellFormed
  distinct : g.Distinct
  nodes_eq : a.nodes = g.nodes
  size_forward : a.forward.size = a.nodes.size
  live : ∀ r, a.Live (g.resolve r)
  memo_iff : ∀ n i, a.memo n = some i ↔ g.Holds i n
  resolve_eq : ∀ r, a.resolve r = g.resolve r

theorem refines_empty : Refines {} {} where
  wellFormed := Graph.sound_empty.wellFormed
  distinct := Graph.sound_empty.unique
  nodes_eq := rfl
  size_forward := rfl
  live _ := rfl
  memo_iff n i := ⟨by simp, fun h => absurd h.lt_size (Nat.not_lt_zero _)⟩
  resolve_eq _ := rfl

namespace Refines

variable (h : a.Refines g)

include h

theorem size_eq : a.size = g.size := congrArg Array.size h.nodes_eq

theorem resolved_eq (n : Instr) : a.resolved n = g.resolved n := by
  rw [resolved, funext h.resolve_eq, Graph.resolved]

theorem get_eq (r : Ref) : a.get r = g.get r := by
  rw [get, h.resolve_eq, h.nodes_eq, Graph.get]

theorem intern (n : Instr) :
    (a.intern n).1 = (g.insert n).1 ∧ (a.intern n).2.Refines (g.insert n).2 := by
  obtain ⟨hgrows, hholds⟩ := Graph.insert_spec h.wellFormed n
  rw [Arena.intern, h.resolved_eq]
  rcases Graph.insert_cases g n with ⟨hfound, hsame⟩ | ⟨hnone, hplace, hpush⟩
  · rw [(h.memo_iff _ _).mpr hfound, hsame]
    exact ⟨rfl, h⟩
  have hmemo : a.memo (g.resolved n) = none :=
    Option.eq_none_iff_forall_ne_some.mpr fun i hi => hnone i ((h.memo_iff _ _).mp hi)
  rw [hmemo]
  refine ⟨h.size_eq.trans hplace.symm, ?_⟩
  have hforward : ∀ r, (a.forward.push none).getD r none = a.forward.getD r none := by
    intro r
    simp only [Array.getD_eq_getD_getElem?, Array.getElem?_push]
    split
    next hr => rw [Array.getElem?_eq_none hr.ge, Option.getD_some, Option.getD_none]
    next => rfl
  have hresolve : ∀ r, (g.insert n).2.resolve r = g.resolve r := by
    intro r
    by_cases hr : r < g.size
    · exact hgrows.resolve_eq h.wellFormed hr
    · rw [Graph.resolve_of_ge h.wellFormed (Nat.le_of_not_lt hr)]
      by_cases hr' : r < (g.insert n).2.size
      · rw [Graph.eq_of_lt_insert hr hr', hholds.resolve_eq]
      · exact Graph.resolve_of_ge hgrows.wellFormed (Nat.le_of_not_lt hr')
  refine ⟨hgrows.wellFormed, Graph.Distinct.insert h.wellFormed h.distinct, ?_, ?_, fun r => ?_,
    fun m i => ?_, fun r => ?_⟩
  · rw [hpush, h.nodes_eq]
  · simp [h.size_forward]
  · rw [hresolve]
    exact (hforward _).trans (h.live r)
  · rw [Graph.holds_insert_iff h.wellFormed, ← h.memo_iff, hplace, ← h.size_eq]
    dsimp only [note]
    split
    next hm => simp [hm, hmemo, eq_comm]
    next hm => simp [hm]
  · rw [hresolve, ← h.resolve_eq, resolve, Array.countP_push]
    exact follow_congr hforward

theorem replace (hx : x < a.size) : (a.replace x n).Refines (g.replace x n) := by
  rw [h.size_eq] at hx
  have hwf := h.wellFormed
  have hlt := hwf.resolve_lt hx
  have hold : g.Holds (g.resolve x) (g.nodes.getD (g.resolve x) Graph.noop) := hwf.holds_resolve hx
  -- The memo without the slot.
  have hmemo : ∀ m i, note a.memo (g.nodes.getD (g.resolve x) Graph.noop) none m = some i ↔
      i ≠ g.resolve x ∧ g.Holds i m := by
    intro m i
    rw [note]
    split
    next hm => simpa using fun hi hholds => hi (h.distinct (hm ▸ hholds) hold)
    next hm =>
      rw [h.memo_iff]
      exact ⟨fun hi => ⟨fun heq => hm ((heq ▸ hi).unique hold), hi⟩, And.right⟩
  rw [Arena.replace]
  simp only [h.resolve_eq, h.resolved_eq, h.nodes_eq, if_pos ((h.memo_iff _ _).mpr hold)]
  have hwf' := Graph.replace_wellFormed (x := x) (n := n) hwf
  have hdistinct : (g.replace x n).Distinct := Graph.Distinct.replace hwf h.distinct hx
  rcases Graph.replace_cases g x n with ⟨j, hj, hholds, hhome⟩ | ⟨hnone, hhome⟩
  · rw [(hmemo _ j).mpr ⟨hj, hholds⟩, Option.filter_some, if_pos (by simpa using hj)]
    have hin : g.resolve x < a.forward.size := by
      rw [h.size_forward, h.nodes_eq]
      exact hlt
    have hforward : ∀ r, (a.forward.setIfInBounds (g.resolve x) (some j)).getD r none =
        if r = g.resolve x then some j else a.forward.getD r none := by
      intro r
      simp only [Array.getD_eq_getD_getElem?, Array.getElem?_setIfInBounds, eq_comm (a := r)]
      split
      · rfl
      · rfl
    have hresolve := Graph.replace_resolve_of_home hwf hx hhome
    have hlive : a.Live j := hholds.resolve_eq ▸ h.live j
    refine ⟨hwf', hdistinct, rfl, by simp [h.size_forward, h.nodes_eq], fun r => ?_, fun m i => ?_,
      fun r => ?_⟩
    · refine (hforward _).trans ?_
      rw [hresolve]
      split
      · exact hlive
      · exact h.live r
    · rw [hmemo]
      refine ⟨fun hi => hi.2.replace hi.1, fun hi => ?_⟩
      exact (Graph.holds_of_replace hwf hx hi).resolve_right fun hi => hi.2.2 j (hi.1 ▸ hj) hholds
    · have hr : a.Live (a.resolve r) := h.resolve_eq r ▸ h.live r
      have hcount : (a.forward.setIfInBounds (g.resolve x) (some j)).countP (·.isSome)
          = a.forward.countP (·.isSome) + 1 := by
        have hnone : a.forward[g.resolve x] = none := by simpa [Live, hin] using h.live x
        simp [Array.setIfInBounds, hin, Array.countP_set, hnone]
      rw [resolve, hcount, follow_forward hforward hlive hj (h.live x) hr, hresolve, ← h.resolve_eq r]
      rfl
  · have hfree : (note a.memo (g.nodes.getD (g.resolve x) Graph.noop) none (g.resolved n)).filter
        (· ≠ g.resolve x) = none := by
      rw [Option.filter_eq_none_iff]
      intro i hi
      exact absurd ((hmemo _ i).mp hi).2 (hnone i ((hmemo _ i).mp hi).1)
    have hresolve : (g.replace x n).resolve = g.resolve := by
      funext r
      rw [Graph.resolve, hhome, Graph.resolve]
    rw [hfree]
    refine ⟨hwf', hdistinct, rfl, by simp [h.size_forward, h.nodes_eq], hresolve ▸ h.live,
      fun m i => ?_, fun r => ?_⟩
    · dsimp only [note]
      split
      next hm =>
        rw [hm, Option.some.injEq]
        refine ⟨fun hi => ?_, fun hi => ?_⟩
        · rw [← hi]
          exact ⟨hhome ▸ hold.1, Graph.replace_nodes_self hlt⟩
        · exact ((Graph.holds_of_replace hwf hx hi).resolve_left fun hi => hnone i hi.1 hi.2).1.symm
      next hm =>
        refine (hmemo m i).trans ⟨fun hi => hi.2.replace hi.1, fun hi => ?_⟩
        exact (Graph.holds_of_replace hwf hx hi).resolve_right fun hi => hm hi.2.1
    · rw [hresolve, ← h.resolve_eq r]
      exact follow_congr fun _ => rfl

end Refines

/-! ### Edited arenas -/

/-- Arenas that come about by any mix of interning and overwriting. -/
inductive Edited : Arena → Prop
  | empty : Edited {}
  | intern {a : Arena} {n : Instr} (edited : a.Edited) (sources : ∀ s ∈ n.op.sources, s < a.size) :
    Edited (a.intern n).2
  | replace {a : Arena} {x : Ref} {n : Instr} (edited : a.Edited) (slot : x < a.size)
    (sources : ∀ s ∈ n.op.sources, s < a.size) : Edited (a.replace x n)

theorem Edited.exists_refines (ha : a.Edited) : ∃ g, a.Refines g := by
  induction ha with
  | empty => exact ⟨_, refines_empty⟩
  | intern _ _ ih =>
    obtain ⟨g, hg⟩ := ih
    exact ⟨_, (hg.intern _).2⟩
  | replace _ hx _ ih =>
    obtain ⟨g, hg⟩ := ih
    exact ⟨_, hg.replace hx⟩

/-- Whatever is interned and overwritten: the memo leads from each instruction to the slot in use that
holds it, forwards have no cycle and end at a slot in use, interning an instruction again finds it,
and overwriting a slot is seen from those that lead to it only. -/
theorem Edited.consistent (ha : a.Edited) :
    (∀ n i, a.memo n = some i ↔ i < a.size ∧ a.Live i ∧ a.nodes[i]? = some n) ∧
      (∀ i, ¬Relation.TransGen a.Forwards i i) ∧
      (∀ r, Relation.ReflTransGen a.Forwards r (a.resolve r) ∧ a.Live (a.resolve r)) ∧
      (∀ n, (∀ s ∈ n.op.sources, s < a.size) →
        ((a.intern n).2.intern n).1 = (a.intern n).1) ∧
      ∀ x n, x < a.size → (∀ s ∈ n.op.sources, s < a.size) →
        (a.replace x n).get x = a.resolved n ∧
          ∀ j, (a.replace x n).get j ≠ a.get j → a.resolve j = a.resolve x := by
  obtain ⟨g, hg⟩ := ha.exists_refines
  have hwf := hg.wellFormed
  have hlive : ∀ r, a.Live (a.resolve r) := fun r => hg.resolve_eq r ▸ hg.live r
  refine ⟨fun n i => ?_, fun i hi => ?_, fun r => ⟨?_, hlive r⟩, fun n hn => ?_,
    fun x n hx _ => ⟨?_, fun j hj => ?_⟩⟩
  · rw [hg.memo_iff, hg.nodes_eq, hg.size_eq]
    refine ⟨fun hi => ⟨hi.lt_size, hi.resolve_eq ▸ hg.live i, hi.2⟩, fun ⟨hlt, hi, hn⟩ => ⟨?_, hn⟩⟩
    rw [hwf.home_of_lt hlt, ← hg.resolve_eq, resolve, follow_of_live hi]
  · exact not_live_of_cycle hi (hlive i)
  · exact reaches_follow a _ r
  · obtain ⟨hplace, hinterned⟩ := hg.intern n
    obtain ⟨hgrows, hholds⟩ := Graph.insert_spec hwf n
    have hresolved : (g.insert n).2.resolved n = g.resolved n :=
      congrArg (Instr.mk · n.dtype)
        (Op.mapSources_congr fun s hs => hgrows.resolve_eq hwf (hg.size_eq ▸ hn s hs))
    rw [(hinterned.intern n).1, hplace,
      Graph.insert_of_holds hinterned.distinct (hresolved.symm ▸ hholds)]
  · rw [(hg.replace hx).get_eq, Graph.replace_get hwf (hg.size_eq ▸ hx), if_pos rfl, hg.resolved_eq]
  · rw [(hg.replace hx).get_eq, hg.get_eq, Graph.replace_get hwf (hg.size_eq ▸ hx)] at hj
    rw [hg.resolve_eq, hg.resolve_eq]
    by_contra hne
    exact hj (if_neg hne)

/-- Three constants, the first of which was overwritten by the second and the second by the third. -/
def mergedConstants : Arena :=
  ((((Arena.intern {} ⟨.const (.int 3), .index⟩).2.intern ⟨.const (.int 4), .index⟩).2.intern
    ⟨.const (.int 5), .index⟩).2.replace 0 ⟨.const (.int 4), .index⟩).replace 1
      ⟨.const (.int 5), .index⟩

theorem Edited.consistent_mergedConstants :
    mergedConstants.resolve 0 = 2 ∧ mergedConstants.memo ⟨.const (.int 5), .index⟩ = some 2 ∧
      mergedConstants.Live 2 := by
  have hedited : mergedConstants.Edited :=
    .replace (.replace (.intern (.intern (.intern .empty (by decide)) (by decide)) (by decide))
      (by decide +kernel) (by decide)) (by decide +kernel) (by decide)
  have hmemo : mergedConstants.memo ⟨.const (.int 5), .index⟩ = some 2 := by decide +kernel
  exact ⟨by decide +kernel, hmemo, ((hedited.consistent.1 _ _).mp hmemo).2.1⟩

end Arena

end LazyTensor

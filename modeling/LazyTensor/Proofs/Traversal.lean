import LazyTensor.Traversal
import Mathlib.Data.Finset.Card
import Mathlib.Data.List.Forall2
import Mathlib.Logic.Relation

/-!
# Depth-first traversal

With enough fuel a traversal depends only on the shape of what it walks over, and over a graph without
cycles it finishes each node after everything that the node reads.
-/

namespace LazyTensor

namespace Walk

variable {α β : Type} [BEq α] [LawfulBEq α] [BEq β] [LawfulBEq β] {reads : α → List α}
  {reads' : β → List β} {U : Finset α} {U' : Finset β} {w w₁ : Walk α} {w' : Walk β} {n : α}
  {depth : Nat}

open Classical in
/-- How many nodes are still to be seen. -/
noncomputable def room (U : Finset α) (w : Walk α) : Nat := (U.filter (· ∉ w.seen)).card

theorem room_le (U : Finset α) (w : Walk α) : room U w ≤ U.card := Finset.card_filter_le _ _

theorem room_mono (h : ∀ x ∈ w.seen, x ∈ w₁.seen) : room U w₁ ≤ room U w := by
  refine Finset.card_le_card fun x hx => ?_
  simp only [Finset.mem_filter] at hx ⊢
  exact ⟨hx.1, fun hseen => hx.2 (h x hseen)⟩

theorem room_cons_lt (hn : n ∈ U) (hseen : n ∉ w.seen) (fin : List α) :
    room U ⟨n :: w.seen, fin⟩ < room U w := by
  refine Finset.card_lt_card ⟨fun x hx => ?_, fun hsub => ?_⟩
  · simp only [Finset.mem_filter, List.mem_cons, not_or] at hx ⊢
    exact ⟨hx.1, hx.2.2⟩
  · have hmem := hsub (Finset.mem_filter.mpr ⟨hn, hseen⟩)
    simp at hmem

theorem visit_of_seen (h : n ∈ w.seen) : visit reads (depth + 1) w n = w := by
  rw [visit, if_pos (List.contains_iff_mem.mpr h)]

theorem visit_of_not_seen (h : n ∉ w.seen) :
    visit reads (depth + 1) w n =
      { (reads n).foldl (visit reads depth) ⟨n :: w.seen, w.finished⟩ with
        finished := n :: ((reads n).foldl (visit reads depth) ⟨n :: w.seen, w.finished⟩).finished } := by
  rw [visit, if_neg (fun hc => h (List.contains_iff_mem.mp hc))]

theorem seen_subset_visit (reads : α → List α) (depth : Nat) (w : Walk α) (n : α) :
    ∀ x ∈ w.seen, x ∈ (visit reads depth w n).seen := by
  induction depth generalizing w n with
  | zero => exact fun x hx => hx
  | succ depth ih =>
    intro x hx
    by_cases hseen : n ∈ w.seen
    · rwa [visit_of_seen hseen]
    · rw [visit_of_not_seen hseen]
      refine List.foldlRecOn (motive := fun w => x ∈ w.seen) _ _ ?_ fun w hw m _ => ih w m x hw
      exact List.mem_cons_of_mem _ hx

/-! ### Traversal by a stack -/

section Stack

variable {reads : Nat → List Nat} {count : Nat} {w : Walk Nat} {n : Nat} {stack : List (Nat × Bool)}

/-- What is on top of a stack is visited before the rest, if one node after the other is. -/
theorem drain_map_append (hvisit : ∀ w n stack, room (Finset.range count) w < depth →
      drain reads count w ((n, false) :: stack) = drain reads count (visit reads depth w n) stack)
    (hroom : room (Finset.range count) w < depth) {marked : List Nat}
    (hmarked : ∀ x ∈ marked, x ∈ w.seen) (ns : List Nat) :
    drain reads count w ((ns.filter fun m => !marked.contains m).map (·, false) ++ stack)
      = drain reads count (ns.foldl (visit reads depth) w) stack := by
  induction ns generalizing w with
  | nil => rfl
  | cons n ns ih =>
    have hkeeps := seen_subset_visit reads depth w n
    have hrest := ih ((room_mono hkeeps).trans_lt hroom) fun x hx => hkeeps x (hmarked x hx)
    rw [List.foldl_cons, ← hrest]
    by_cases hn : n ∈ marked
    · obtain ⟨depth, rfl⟩ := Nat.exists_eq_add_of_lt hroom
      rw [List.filter_cons_of_neg (by simpa using hn), visit_of_seen (hmarked n hn)]
    · rw [List.filter_cons_of_pos (by simpa using hn)]
      exact hvisit w n _ hroom

theorem drain_cons (hreads : ∀ n, count ≤ n → reads n = [])
    (hroom : room (Finset.range count) w < depth) :
    drain reads count w ((n, false) :: stack) = drain reads count (visit reads depth w n) stack := by
  induction depth generalizing w n stack with
  | zero => exact absurd hroom (Nat.not_lt_zero _)
  | succ depth ih =>
    rw [drain]
    by_cases hseen : n ∈ w.seen
    · rw [if_pos (by simpa using hseen), visit_of_seen hseen]
    · rw [if_neg (by simpa using hseen), visit_of_not_seen hseen]
      by_cases hn : n < count
      · have hless := room_cons_lt (Finset.mem_range.mpr hn) hseen w.finished
        rw [if_pos hn, drain_map_append (fun _ _ _ => ih) (hless.trans_le (Nat.le_of_lt_succ hroom))
          (fun x hx => hx), drain]
      · rw [if_neg hn, hreads n (Nat.le_of_not_lt hn)]
        show drain reads count _ ((n, true) :: stack) = _
        rw [drain]
        rfl

/-- The loop lists what the recursive search lists. -/
theorem drain_eq_postorder (hreads : ∀ n, count ≤ n → reads n = []) (root : Nat) :
    (drain reads count {} [(root, false)]).finished.reverse = postorder reads count root := by
  have hroom : room (Finset.range count) ({} : Walk Nat) < count + 1 :=
    Nat.lt_succ_of_le ((room_le _ _).trans (Finset.card_range count).le)
  rw [drain_cons hreads hroom, drain]
  rfl

end Stack

/-! ### Traversals of graphs of the same shape -/

section Alike

variable {R : α → β → Prop} {xs : List α} {ys : List β} {a : α} {b : β} {depth' : Nat}

/-- Two walks have met corresponding nodes. -/
structure Alike (R : α → β → Prop) (w : Walk α) (w' : Walk β) : Prop where
  seen : List.Forall₂ R w.seen w'.seen
  finished : List.Forall₂ R w.finished w'.finished

/-- Nodes correspond if what they read does and they are the same on one side just if they are on the
other; all of them are among finitely many. -/
structure Shape (reads : α → List α) (reads' : β → List β) (U : Finset α) (U' : Finset β)
    (R : α → β → Prop) : Prop where
  reads : ∀ {a b}, R a b → List.Forall₂ R (reads a) (reads' b)
  eq_iff : ∀ {a b a' b'}, R a b → R a' b' → (a = a' ↔ b = b')
  mem : ∀ {a b}, R a b → a ∈ U ∧ b ∈ U'

omit [BEq α] [LawfulBEq α] [BEq β] [LawfulBEq β] in
theorem Shape.mem_iff (hR : Shape reads reads' U U' R) (hab : R a b) (h : List.Forall₂ R xs ys) :
    a ∈ xs ↔ b ∈ ys := by
  induction h with
  | nil => simp
  | cons hxy _ ih => rw [List.mem_cons, List.mem_cons, hR.eq_iff hab hxy, ih]

theorem Alike.foldl_visit
    (hvisit : ∀ w w' a b, R a b → Alike R w w' → room U w < depth → room U' w' < depth' → Alike R
      (visit reads depth w a) (visit reads' depth' w' b)) (hw : Alike R w w')
    (hxy : List.Forall₂ R xs ys) (hroom : room U w < depth) (hroom' : room U' w' < depth') :
    Alike R (xs.foldl (visit reads depth) w) (ys.foldl (visit reads' depth') w') := by
  induction hxy generalizing w w' with
  | nil => exact hw
  | cons hab _ ih =>
    refine ih (hvisit w w' _ _ hab hw hroom hroom') ?_ ?_
    · exact Nat.lt_of_le_of_lt (room_mono (seen_subset_visit _ _ _ _)) hroom
    · exact Nat.lt_of_le_of_lt (room_mono (seen_subset_visit _ _ _ _)) hroom'

theorem Shape.visit (hR : Shape reads reads' U U' R) (hab : R a b) (hw : Alike R w w')
    (hroom : room U w < depth) (hroom' : room U' w' < depth') :
    Alike R (visit reads depth w a) (visit reads' depth' w' b) := by
  induction depth generalizing depth' w w' a b with
  | zero => exact absurd hroom (Nat.not_lt_zero _)
  | succ depth ih =>
    obtain ⟨depth', rfl⟩ := Nat.exists_eq_add_of_lt hroom'
    have hseen := hR.mem_iff hab hw.seen
    by_cases ha : a ∈ w.seen
    · rwa [visit_of_seen ha, visit_of_seen (hseen.mp ha)]
    · have hb := fun h => ha (hseen.mpr h)
      rw [visit_of_not_seen ha, visit_of_not_seen hb]
      have hstart : Alike R ⟨a :: w.seen, w.finished⟩ ⟨b :: w'.seen, w'.finished⟩ :=
        ⟨.cons hab hw.seen, hw.finished⟩
      have hrest := hstart.foldl_visit (fun w w' a b hab hw => ih hab hw) (hR.reads hab)
        (Nat.lt_of_lt_of_le (room_cons_lt (hR.mem hab).1 ha _) (Nat.le_of_lt_succ hroom))
        (Nat.lt_of_lt_of_le (room_cons_lt (hR.mem hab).2 hb _) (Nat.le_of_lt_succ hroom'))
      exact ⟨hrest.seen, .cons hab hrest.finished⟩

theorem Shape.postorder {count count' : Nat} (hR : Shape reads reads' U U' R)
    (hU : U.card ≤ count) (hU' : U'.card ≤ count') (hab : R a b) :
    List.Forall₂ R (postorder reads count a) (postorder reads' count' b) := by
  have hstart : Alike R ({} : Walk α) ({} : Walk β) := ⟨.nil, .nil⟩
  have hwalk := hR.visit hab hstart (Nat.lt_succ_of_le ((room_le U _).trans hU))
    (Nat.lt_succ_of_le ((room_le U' _).trans hU'))
  exact List.rel_reverse hwalk.finished

end Alike

/-! ### The order of a traversal -/

section Order

/-- In a list with the last node first, every node comes after what it reads. -/
def Ordered (reads : α → List α) : List α → Prop
  | [] => True
  | n :: rest => (∀ m ∈ reads n, m ∈ rest) ∧ Ordered reads rest

variable {l roots : List α} {a b m : α} {I : α → Prop} {count : Nat}

omit [BEq α] [LawfulBEq α] in
theorem Ordered.mem_of_reads (h : Ordered reads l) (ha : a ∈ l) (hb : b ∈ reads a) : b ∈ l := by
  induction l with
  | nil => cases ha
  | cons x l ih =>
    rcases List.mem_cons.mp ha with rfl | ha
    · exact List.mem_cons_of_mem _ (h.1 b hb)
    · exact List.mem_cons_of_mem _ (ih h.2 ha)

abbrev Reaches (reads : α → List α) : α → α → Prop := Relation.ReflTransGen fun a b => b ∈ reads a

omit [BEq α] [LawfulBEq α] in
theorem Ordered.mem_of_reaches (h : Ordered reads l) (ha : a ∈ l) (hab : Reaches reads a b) :
    b ∈ l := by
  induction hab with
  | refl => exact ha
  | tail _ hread ih => exact h.mem_of_reads ih hread

omit [BEq α] [LawfulBEq α] in
theorem Ordered.reads_mem_of_append {l' : List α} (h : Ordered reads (l ++ n :: l'))
    (hm : m ∈ reads n) : m ∈ l' := by
  induction l with
  | nil => exact h.1 m hm
  | cons x l ih => exact ih h.2

/-- No node that can be reached from `n` is being visited. -/
def Free (reads : α → List α) (w : Walk α) (n : α) : Prop :=
  ∀ m, Reaches reads n m → m ∈ w.seen → m ∈ w.finished

/-- A walk has gone on, and what it saw on the way is finished. -/
structure Extends (reads : α → List α) (w w₁ : Walk α) : Prop where
  finished : ∀ m ∈ w.finished, m ∈ w₁.finished
  seen : ∀ m ∈ w₁.seen, m ∈ w.seen ∨ m ∈ w₁.finished
  ordered : Ordered reads w.finished → Ordered reads w₁.finished

omit [BEq α] [LawfulBEq α] in
theorem Extends.free (h : Extends reads w w₁) (hn : Free reads w n) : Free reads w₁ n :=
  fun m hm hseen => (h.seen m hseen).elim (fun hw => h.finished m (hn m hm hw)) id

omit [BEq α] [LawfulBEq α] in
/-- Below a node just the node itself is new among those being visited, and it is not met again. -/
theorem Free.below (hn : Free reads w n) (hm : m ∈ reads n) (hirrefl : ¬Reaches reads m n) :
    Free reads ⟨n :: w.seen, w.finished⟩ m := by
  intro x hx hmem
  rcases List.mem_cons.mp hmem with rfl | hmem
  · exact absurd hx hirrefl
  · exact hn x (.head hm hx) hmem

theorem foldl_visit_extends {ns : List α}
    (hvisit : ∀ w n, I n → Free reads w n → room U w < depth → Extends reads w (visit reads depth w
      n) ∧ n ∈ (visit reads depth w n).finished) (hns : ∀ n ∈ ns, I n)
    (hfree : ∀ n ∈ ns, Free reads w n) (hroom : room U w < depth) :
    Extends reads w (ns.foldl (visit reads depth) w) ∧
      ∀ n ∈ ns, n ∈ (ns.foldl (visit reads depth) w).finished := by
  induction ns generalizing w with
  | nil => exact ⟨⟨fun _ => id, fun _ => .inl, id⟩, by simp⟩
  | cons n ns ih =>
    rw [List.forall_mem_cons] at hns hfree
    obtain ⟨hext, hmem⟩ := hvisit w n hns.1 hfree.1 hroom
    obtain ⟨hext', hmem'⟩ := ih hns.2 (fun m hm => hext.free (hfree.2 m hm))
      (Nat.lt_of_le_of_lt (room_mono (seen_subset_visit _ _ _ _)) hroom)
    refine ⟨⟨fun m hm => hext'.finished m (hext.finished m hm), fun m hm => ?_,
      fun h => hext'.ordered (hext.ordered h)⟩, ?_⟩
    · rcases hext'.seen m hm with hm | hm
      · exact (hext.seen m hm).imp_right (hext'.finished m)
      · exact .inr hm
    · rw [List.forall_mem_cons]
      exact ⟨hext'.finished n hmem, hmem'⟩

section

variable (hU : ∀ n, I n → n ∈ U) (hreads : ∀ n, I n → ∀ m ∈ reads n, I m)
  (hirrefl : ∀ n, I n → ∀ m ∈ reads n, ¬Reaches reads m n)

include hU hreads hirrefl

theorem visit_extends (hn : I n) (hfree : Free reads w n) (hroom : room U w < depth) :
    Extends reads w (visit reads depth w n) ∧ n ∈ (visit reads depth w n).finished := by
  induction depth generalizing w n with
  | zero => exact absurd hroom (Nat.not_lt_zero _)
  | succ depth ih =>
    by_cases hseen : n ∈ w.seen
    · rw [visit_of_seen hseen]
      exact ⟨⟨fun _ => id, fun _ => .inl, id⟩, hfree n .refl hseen⟩
    · have hbelow : ∀ m ∈ reads n, Free reads ⟨n :: w.seen, w.finished⟩ m :=
        fun m hm => hfree.below hm (hirrefl n hn m hm)
      obtain ⟨hext, hmem⟩ := foldl_visit_extends (fun w n hn hf hr => ih hn hf hr) (hreads n hn)
        hbelow (Nat.lt_of_lt_of_le (room_cons_lt (hU n hn) hseen _) (Nat.le_of_lt_succ hroom))
      rw [visit_of_not_seen hseen]
      refine ⟨⟨fun m hm => List.mem_cons_of_mem _ (hext.finished m hm), fun m hm => ?_,
        fun h => ⟨hmem, hext.ordered h⟩⟩, List.mem_cons_self⟩
      rcases hext.seen m hm with hm | hm
      · rcases List.mem_cons.mp hm with rfl | hm
        · exact .inr List.mem_cons_self
        · exact .inl hm
      · exact .inr (List.mem_cons_of_mem _ hm)

/-- A traversal of a graph without cycles ends with its root and has every node after what it reads. -/
theorem ordered_postorder (hcard : U.card ≤ count) {root : α} (hroot : I root) :
    Ordered reads (postorder reads count root).reverse ∧ root ∈ postorder reads count root := by
  obtain ⟨hext, hmem⟩ := visit_extends hU hreads hirrefl (w := {}) hroot
    nofun (Nat.lt_succ_of_le ((room_le U _).trans hcard))
  have hord := hext.ordered trivial
  simp only [postorder, postorderFrom, List.foldl_cons, List.foldl_nil, List.reverse_reverse,
    List.mem_reverse]
  exact ⟨hord, hmem⟩

theorem ordered_postorderFrom (hcard : U.card ≤ count) (hroots : ∀ n ∈ roots, I n) :
    Ordered reads (postorderFrom reads count roots).reverse ∧
      ∀ n ∈ roots, n ∈ postorderFrom reads count roots := by
  obtain ⟨hext, hmem⟩ := foldl_visit_extends (w := {})
    (fun w n hn hfree hroom => visit_extends hU hreads hirrefl hn hfree hroom) hroots
    nofun (Nat.lt_succ_of_le ((room_le U _).trans hcard))
  rw [postorderFrom, List.reverse_reverse]
  exact ⟨hext.ordered trivial, fun n hn => List.mem_reverse.mpr (hmem n hn)⟩

end

omit [LawfulBEq α] in
theorem forall_mem_postorderFrom (hreads : ∀ n, I n → ∀ m ∈ reads n, I m)
    (hroots : ∀ n ∈ roots, I n) : ∀ n ∈ postorderFrom reads count roots, I n := by
  have hfoldl : ∀ {step : Walk α → α → Walk α}, (∀ w n, I n → (∀ m ∈ w.finished, I m) →
      ∀ m ∈ (step w n).finished, I m) → ∀ ns : List α, (∀ n ∈ ns, I n) → ∀ w : Walk α,
      (∀ m ∈ w.finished, I m) → ∀ m ∈ (ns.foldl step w).finished, I m :=
    fun hstep ns hns w hw => List.foldlRecOn (motive := fun w => ∀ m ∈ w.finished, I m) ns _ hw
      fun w hw n hn => hstep w n (hns n hn) hw
  have hvisit : ∀ depth w n, I n → (∀ m ∈ w.finished, I m) →
      ∀ m ∈ (visit reads depth w n).finished, I m := by
    intro depth
    induction depth with
    | zero => exact fun w n _ hw => hw
    | succ depth ih =>
      intro w n hn hw
      rw [visit]
      split
      · exact hw
      · exact List.forall_mem_cons.mpr ⟨hn, hfoldl ih _ (hreads n hn) _ hw⟩
  intro n hn
  exact hfoldl (hvisit _) roots hroots {} nofun n (List.mem_reverse.mp hn)

/-- A walk has gone on, and what it finished on the way it had not seen before. -/
structure Fresh (w w₁ : Walk α) : Prop where
  seen : ∀ m ∈ w.seen, m ∈ w₁.seen
  finished : ∀ m ∈ w₁.finished, m ∈ w.finished ∨ m ∉ w.seen ∧ m ∈ w₁.seen
  nodup : (∀ m ∈ w.finished, m ∈ w.seen) → w.finished.Nodup → w₁.finished.Nodup

omit [BEq α] [LawfulBEq α] in
theorem Fresh.refl (w : Walk α) : Fresh w w := ⟨fun _ => id, fun _ => .inl, fun _ => id⟩

omit [BEq α] [LawfulBEq α] in
theorem Fresh.mem_seen (h : Fresh w w₁) (hw : ∀ m ∈ w.finished, m ∈ w.seen) :
    ∀ m ∈ w₁.finished, m ∈ w₁.seen := by
  intro m hm
  rcases h.finished m hm with hm | hm
  · exact h.seen m (hw m hm)
  · exact hm.2

omit [BEq α] [LawfulBEq α] in
theorem Fresh.trans {w₂ : Walk α} (h : Fresh w w₁) (h' : Fresh w₁ w₂) : Fresh w w₂ := by
  refine ⟨fun m hm => h'.seen m (h.seen m hm), fun m hm => ?_, fun hw hnodup => ?_⟩
  · rcases h'.finished m hm with hm | ⟨hnot, hseen⟩
    · exact (h.finished m hm).imp_right fun hm => ⟨hm.1, h'.seen m hm.2⟩
    · exact .inr ⟨fun hm => hnot (h.seen m hm), hseen⟩
  · exact h'.nodup (h.mem_seen hw) (h.nodup hw hnodup)

omit [BEq α] [LawfulBEq α] in
theorem foldl_fresh {step : Walk α → α → Walk α} (hstep : ∀ w n, Fresh w (step w n)) (ns : List α)
    (w : Walk α) : Fresh w (ns.foldl step w) :=
  List.foldlRecOn ns step (.refl w) fun w₁ h n _ => h.trans (hstep w₁ n)

theorem visit_fresh (reads : α → List α) (depth : Nat) (w : Walk α) (n : α) :
    Fresh w (visit reads depth w n) := by
  induction depth generalizing w n with
  | zero => exact .refl w
  | succ depth ih =>
    by_cases hseen : n ∈ w.seen
    · rw [visit_of_seen hseen]
      exact .refl w
    · rw [visit_of_not_seen hseen]
      have hrest := foldl_fresh ih (reads n) ⟨n :: w.seen, w.finished⟩
      refine ⟨fun m hm => hrest.seen m (List.mem_cons_of_mem _ hm), fun m hm => ?_,
        fun hw hnodup => ?_⟩
      · rcases List.mem_cons.mp hm with rfl | hm
        · exact .inr ⟨hseen, hrest.seen m List.mem_cons_self⟩
        · exact (hrest.finished m hm).imp_right fun hm =>
            ⟨fun hmem => hm.1 (List.mem_cons_of_mem _ hmem), hm.2⟩
      · -- The node counts as seen below itself, so nothing there finishes it.
        refine List.nodup_cons.mpr ⟨fun hmem => ?_, ?_⟩
        · rcases hrest.finished n hmem with hold | hnew
          · exact hseen (hw n hold)
          · exact hnew.1 List.mem_cons_self
        · exact hrest.nodup (fun m hm => List.mem_cons_of_mem _ (hw m hm)) hnodup

theorem nodup_postorderFrom (reads : α → List α) (count : Nat) (roots : List α) :
    (postorderFrom reads count roots).Nodup := by
  have hfresh := foldl_fresh (visit_fresh reads (count + 1)) roots {}
  exact List.nodup_reverse.mpr (hfresh.nodup nofun List.nodup_nil)

end Order

end Walk

end LazyTensor

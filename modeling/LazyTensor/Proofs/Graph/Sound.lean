import LazyTensor.Proofs.Graph.Growth
import LazyTensor.Proofs.Graph.Op
import LazyTensor.Proofs.Traversal

/-!
# Sound graphs

In a sound graph nodes read only nodes of the graph, none reads itself through any number of steps,
and no two slots in use hold the same. Adding nodes keeps a graph sound, and so does overwriting a
node by one that does not lead back to it.
-/

namespace LazyTensor

namespace Graph

variable {g g' : Graph} {n m : Instr} {r s i j : Ref}

/-- What can be reached from a node is finite in depth. -/
def Founded (g : Graph) : Ref → Prop := Acc fun s r => s ∈ g.sources r

structure Sound (g : Graph) : Prop where
  wellFormed : g.WellFormed
  source_lt : ∀ {r s : Ref}, r < g.size → s ∈ (g.op r).sources → s < g.size
  founded : ∀ {r : Ref}, r < g.size → g.Founded r
  unique : ∀ {i j : Ref} {n : Instr}, g.Holds i n → g.Holds j n → i = j

theorem sound_empty : Graph.Sound {} where
  wellFormed := ⟨rfl, fun h => by simp at h⟩
  source_lt h := absurd h (Nat.not_lt_zero _)
  founded h := absurd h (Nat.not_lt_zero _)
  unique h := absurd h.lt_size (Nat.not_lt_zero _)

theorem sources_congr (h : g'.get r = g.get s) : (g'.op r).sources = (g.op s).sources := by
  rw [op, h, op]

theorem WellFormed.sources_resolve (hg : g.WellFormed) (r : Ref) :
    g.sources (g.resolve r) = g.sources r := by
  rw [sources, sources_congr (get_resolve hg r), sources]

theorem WellFormed.founded_resolve (hg : g.WellFormed) : g.Founded (g.resolve r) ↔ g.Founded r := by
  constructor
  · intro h
    exact ⟨r, fun s hs => h.inv (by rwa [hg.sources_resolve])⟩
  · intro h
    exact ⟨_, fun s hs => h.inv (by rwa [← hg.sources_resolve])⟩

theorem Sound.sources_lt (hg : g.Sound) (hr : r < g.size) (hs : s ∈ g.sources r) : s < g.size := by
  obtain ⟨a, ha, rfl⟩ := List.mem_map.mp hs
  exact hg.wellFormed.resolve_lt (hg.source_lt hr ha)

theorem Founded.not_reaches (h : g.Founded r) (hs : s ∈ g.sources r) :
    ¬Walk.Reaches g.sources s r := by
  induction h generalizing s with
  | intro r _ ih =>
    intro hreach
    -- The last step of a way back gives a shorter cycle through a node that `r` reads.
    rcases hreach.cases_head with heq | ⟨t, ht, hreach⟩
    · subst heq
      exact ih s hs hs .refl
    · exact ih s hs ht (hreach.tail hs)

/-! ### Slots with the same contents -/

theorem findBelow_eq_none {skip : Option Ref} {bound : Nat} (h : g.findBelow n skip bound = none)
    (hi : i < bound) (hskip : some i ≠ skip) : ¬g.Holds i n := by
  induction bound with
  | zero => exact absurd hi (Nat.not_lt_zero _)
  | succ k ih =>
    rw [findBelow] at h
    split at h
    · cases h
    · case isFalse hk =>
        rcases Nat.lt_succ_iff_lt_or_eq.mp hi with hlt | rfl
        · exact ih h hlt
        · exact fun hholds => hk ⟨hskip, hholds⟩

theorem Holds.unique (h : g.Holds i n) (h' : g.Holds i m) : n = m :=
  Option.some.inj (h.2.symm.trans h'.2)

theorem Holds.resolve_eq (h : g.Holds i n) : g.resolve i = i := resolve_of_home h.1

theorem Grows.holds (h : g.Grows g') (hi : g.Holds i n) : g'.Holds i n :=
  ⟨h.home hi.1, h.nodes hi.2⟩

theorem WellFormed.holds_resolve (hg : g.WellFormed) (hr : r < g.size) :
    g.Holds (g.resolve r) (g.get r) :=
  ⟨hg.home_home (hg.home_of_lt hr), hg.nodes_of_lt hr⟩

theorem WellFormed.holds_of_grows (hg : g.WellFormed) (h : g.Grows g') (hi : g'.Holds i n)
    (hlt : i < g.size) : g.Holds i n := by
  have hhome := h.home (hg.home_of_lt hlt)
  have hself : g.resolve i = i := Option.some.inj (hhome.symm.trans hi.1)
  have hholds := hg.holds_resolve hlt
  rw [hself] at hholds
  rwa [(h.holds hholds).unique hi] at hholds

theorem insert_cases (g : Graph) (n : Instr) :
    (g.Holds (g.insert n).1 (g.resolved n) ∧ (g.insert n).2 = g) ∨
      ((∀ i, ¬g.Holds i (g.resolved n)) ∧ (g.insert n).1 = g.size ∧
        (g.insert n).2 = ⟨g.nodes.push (g.resolved n), g.home.push g.size⟩) := by
  rw [insert]
  cases hfind : g.find? (g.resolved n) with
  | some i => exact .inl ⟨(findBelow_eq_some hfind).2, rfl⟩
  | none =>
    refine .inr ⟨fun i hi => ?_, rfl, rfl⟩
    exact findBelow_eq_none hfind hi.lt_size (by simp) hi

theorem eq_of_lt_insert (hge : ¬ i < g.size) (hi : i < (g.insert n).2.size) : i = (g.insert n).1 := by
  rcases insert_cases g n with ⟨-, hsame⟩ | ⟨-, hplace, hpush⟩
  · rw [hsame] at hi
    exact absurd hi hge
  · rw [hpush] at hi
    rw [hplace]
    rw [size, Array.size_push] at hi
    exact Nat.le_antisymm (Nat.le_of_lt_succ hi) (Nat.le_of_not_lt hge)

/-- No two slots in use hold the same. -/
def Distinct (g : Graph) : Prop := ∀ {i j : Ref} {n : Instr}, g.Holds i n → g.Holds j n → i = j

theorem Distinct.find?_eq_some_iff (hg : g.Distinct) : g.find? n = some i ↔ g.Holds i n := by
  refine ⟨fun hfind => (findBelow_eq_some hfind).2, fun hi => ?_⟩
  cases hfind : g.find? n with
  | none => exact absurd hi (findBelow_eq_none hfind hi.lt_size (by simp))
  | some j => rw [hg (findBelow_eq_some hfind).2 hi]

theorem insert_of_holds (hg : g.Distinct) (h : g.Holds i (g.resolved n)) : g.insert n = (i, g) := by
  rw [insert, hg.find?_eq_some_iff.mpr h]

theorem holds_insert_iff (hg : g.WellFormed) :
    (g.insert n).2.Holds i m ↔ g.Holds i m ∨ i = (g.insert n).1 ∧ m = g.resolved n := by
  obtain ⟨hgrows, hholds⟩ := insert_spec hg n
  constructor
  · intro hi
    by_cases hlt : i < g.size
    · exact .inl (hg.holds_of_grows hgrows hi hlt)
    · obtain rfl := eq_of_lt_insert hlt hi.lt_size
      exact .inr ⟨rfl, hi.unique hholds⟩
  · rintro (hi | ⟨rfl, rfl⟩)
    · exact hgrows.holds hi
    · exact hholds

theorem Distinct.insert (hwf : g.WellFormed) (hg : g.Distinct) : (g.insert n).2.Distinct := by
  rcases insert_cases g n with ⟨-, hsame⟩ | ⟨hnone, -, -⟩
  · rwa [hsame]
  intro i j m hi hj
  rw [holds_insert_iff hwf] at hi hj
  rcases hi with hi | ⟨rfl, rfl⟩ <;> rcases hj with hj | ⟨rfl, hm⟩
  · exact hg hi hj
  · exact absurd (hm ▸ hi) (hnone i)
  · exact absurd hj (hnone j)
  · rfl

/-! ### Growth -/

theorem Grows.sources_eq (h : g.Grows g') (hg : g.Sound) (hr : r < g.size) :
    g'.sources r = g.sources r := by
  rw [sources, sources, sources_congr (h.get_eq hg.wellFormed hr)]
  exact List.map_congr_left fun s hs => h.resolve_eq hg.wellFormed (hg.source_lt hr hs)

theorem Grows.founded (h : g.Grows g') (hg : g.Sound) (hr : r < g.size) : g'.Founded r := by
  have hfounded := hg.founded hr
  induction hfounded with
  | intro r _ ih =>
    refine ⟨r, fun s hs => ?_⟩
    rw [h.sources_eq hg hr] at hs
    exact ih s hs (hg.sources_lt hr hs)

theorem Sound.insert (hg : g.Sound) (hn : ∀ s ∈ n.op.sources, s < g.size) :
    (g.insert n).2.Sound := by
  obtain ⟨hgrows, hholds⟩ := insert_spec hg.wellFormed n
  rcases insert_cases g n with ⟨-, hsame⟩ | ⟨-, hnew, hpush⟩
  · rwa [hsame]
  have hsize : (g.insert n).2.size = g.size + 1 := by rw [hpush]; simp [size]
  -- What the new node reads was there before.
  have hsources : ∀ s ∈ ((g.insert n).2.op g.size).sources, s < g.size := by
    have hop : (g.insert n).2.op g.size = (g.resolved n).op := by rw [← hnew, op, hholds.get_eq]
    simp only [hop, resolved, Op.sources_mapSources, List.forall_mem_map]
    exact fun s hs => hg.wellFormed.resolve_lt (hn s hs)
  refine ⟨hgrows.wellFormed, fun {r s} hr hs => ?_, fun {r} hr => ?_,
    Distinct.insert hg.wellFormed hg.unique⟩
  · rw [hsize] at hr ⊢
    rcases Nat.lt_succ_iff_lt_or_eq.mp hr with hlt | rfl
    · rw [sources_congr (hgrows.get_eq hg.wellFormed hlt)] at hs
      exact Nat.lt_succ_of_lt (hg.source_lt hlt hs)
    · exact Nat.lt_succ_of_lt (hsources s hs)
  · rcases Nat.lt_succ_iff_lt_or_eq.mp (hsize ▸ hr) with hlt | rfl
    · exact hgrows.founded hg hlt
    · refine ⟨_, fun s hs => ?_⟩
      obtain ⟨a, ha, rfl⟩ := List.mem_map.mp hs
      exact hgrows.wellFormed.founded_resolve.mpr (hgrows.founded hg (hsources a ha))

/-- Graphs that come about by adding nodes whose sources are there. Typed construction checks types
and then adds such a node. -/
inductive Built : Graph → Prop
  | empty : Built {}
  | insert {g : Graph} {n : Instr} (built : g.Built) (sources : ∀ s ∈ n.op.sources, s < g.size) :
    Built (g.insert n).2

theorem Built.sound (hg : g.Built) : g.Sound := by
  induction hg with
  | empty => exact sound_empty
  | insert _ hsources ih => exact ih.insert hsources

/-! ### Overwriting a node -/

section Replace

variable {x : Ref}

theorem replace_nodes_size : (g.replace x n).nodes.size = g.nodes.size := by
  simp [replace]

theorem replace_cases (g : Graph) (x : Ref) (n : Instr) :
    (∃ j, j ≠ g.resolve x ∧ g.Holds j (g.resolved n) ∧ (g.replace x n).home =
        g.home.map fun h => if h = g.resolve x then j else h) ∨
      ((∀ j, j ≠ g.resolve x → ¬g.Holds j (g.resolved n)) ∧ (g.replace x n).home = g.home) := by
  simp only [replace]
  cases hfind : g.findBelow (g.resolved n) (some (g.resolve x)) g.size with
  | some j =>
    obtain ⟨hne, hholds⟩ := findBelow_eq_some hfind
    exact .inl ⟨j, fun h => hne (h ▸ rfl), hholds, rfl⟩
  | none =>
    refine .inr ⟨fun j hj hholds => ?_, rfl⟩
    exact findBelow_eq_none hfind hholds.lt_size (fun h => hj (Option.some.inj h)) hholds

theorem replace_nodes (hi : i ≠ g.resolve x) : (g.replace x n).nodes[i]? = g.nodes[i]? := by
  simp only [replace, Array.getElem?_setIfInBounds]
  rw [if_neg hi.symm]

theorem replace_nodes_self (hx : g.resolve x < g.size) :
    (g.replace x n).nodes[g.resolve x]? = some (g.resolved n) := by
  simp only [replace, Array.getElem?_setIfInBounds]
  exact if_pos hx

theorem replace_resolve_of_home (hg : g.WellFormed) (hx : x < g.size)
    (hhome : (g.replace x n).home = g.home.map fun h => if h = g.resolve x then j else h) (r : Ref) :
    (g.replace x n).resolve r = if g.resolve r = g.resolve x then j else g.resolve r := by
  by_cases hr : r < g.size
  · refine resolve_of_home ?_
    rw [hhome, Array.getElem?_map, hg.home_of_lt hr, Option.map_some]
  · have hge := Nat.le_of_not_lt hr
    have hne : r ≠ g.resolve x := fun h => hr (h ▸ hg.resolve_lt hx)
    have hsize : (g.replace x n).home.size ≤ r := by
      rw [hhome, Array.size_map, hg.size_home]
      exact hge
    rw [resolve_of_ge hg hge, if_neg hne, resolve, Array.getD_eq_getD_getElem?,
      Array.getElem?_eq_none hsize, Option.getD_none]

theorem replace_resolve (hg : g.WellFormed) (hx : x < g.size) :
    ∃ j, (g.replace x n).nodes[j]? = some (g.resolved n) ∧
      ∀ r, (g.replace x n).resolve r = if g.resolve r = g.resolve x then j else g.resolve r := by
  rcases replace_cases g x n with ⟨j, hj, hholds, hhome⟩ | ⟨-, hhome⟩
  · exact ⟨j, by rw [replace_nodes hj, hholds.2], replace_resolve_of_home hg hx hhome⟩
  · refine ⟨g.resolve x, replace_nodes_self (hg.resolve_lt hx), fun r => ?_⟩
    rw [resolve, hhome, ← resolve]
    split
    case isTrue h => exact h
    case isFalse => rfl

theorem replace_get (hg : g.WellFormed) (hx : x < g.size) (r : Ref) :
    (g.replace x n).get r = if g.resolve r = g.resolve x then g.resolved n else g.get r := by
  obtain ⟨j, hnodes, hresolve⟩ := replace_resolve (n := n) hg hx
  split
  case isTrue h =>
    refine get_of_nodes ?_
    rw [hresolve, if_pos h, hnodes]
  case isFalse h =>
    rw [get, hresolve, if_neg h, Array.getD_eq_getD_getElem?, replace_nodes h, get,
      Array.getD_eq_getD_getElem?]

theorem replace_size : (g.replace x n).size = g.size := replace_nodes_size

theorem replace_wellFormed (hg : g.WellFormed) : (g.replace x n).WellFormed := by
  rcases replace_cases g x n with ⟨j, hj, hholds, hhome⟩ | ⟨-, hhome⟩
  · refine ⟨by rw [hhome, replace_nodes_size, Array.size_map, hg.size_home], fun {i h} hi => ?_⟩
    rw [hhome, Array.getElem?_map, Option.map_eq_some_iff] at hi
    obtain ⟨k, hk, rfl⟩ := hi
    rw [hhome, Array.getElem?_map]
    split
    case isTrue => rw [hholds.1, Option.map_some, if_neg hj]
    case isFalse hne => rw [hg.home_home hk, Option.map_some, if_neg hne]
  · exact ⟨by rw [hhome, replace_nodes_size, hg.size_home], fun {i h} hi => by
      rw [hhome] at hi ⊢; exact hg.home_home hi⟩

theorem Holds.replace (h : g.Holds i m) (hi : i ≠ g.resolve x) : (g.replace x n).Holds i m := by
  refine ⟨?_, (replace_nodes hi).trans h.2⟩
  rcases replace_cases g x n with ⟨j, -, -, hhome⟩ | ⟨-, hhome⟩
  · rw [hhome, Array.getElem?_map, h.1, Option.map_some, if_neg hi]
  · rw [hhome, h.1]

theorem holds_of_replace (hg : g.WellFormed) (hx : x < g.size) (h : (g.replace x n).Holds i m) :
    (i ≠ g.resolve x ∧ g.Holds i m) ∨
      (i = g.resolve x ∧ m = g.resolved n ∧ ∀ j, j ≠ i → ¬g.Holds j (g.resolved n)) := by
  by_cases hi : i = g.resolve x
  · subst hi
    refine .inr ⟨rfl, Option.some.inj (h.2.symm.trans (replace_nodes_self (hg.resolve_lt hx))), ?_⟩
    rcases replace_cases g x n with ⟨j, hj, -, hhome⟩ | ⟨hnone, -⟩
    · have hself := h.1
      rw [hhome, Array.getElem?_map, hg.home_home (hg.home_of_lt hx), Option.map_some, if_pos rfl,
        Option.some.injEq] at hself
      exact absurd hself hj
    · exact hnone
  · refine .inl ⟨hi, ?_, by rw [← replace_nodes hi]; exact h.2⟩
    rcases replace_cases g x n with ⟨j, hj, hholds, hhome⟩ | ⟨-, hhome⟩
    · have hself := h.1
      rw [hhome, Array.getElem?_map, Option.map_eq_some_iff] at hself
      obtain ⟨k, hk, hki⟩ := hself
      split at hki
      case isTrue =>
        subst hki
        exact hholds.1
      case isFalse =>
        subst hki
        exact hk
    · rw [← hhome]
      exact h.1

theorem Distinct.replace (hwf : g.WellFormed) (hg : g.Distinct) (hx : x < g.size) :
    (g.replace x n).Distinct := by
  intro i j m hi hj
  rcases holds_of_replace hwf hx hi with ⟨-, hi⟩ | ⟨hix, hm, hnone⟩ <;>
    rcases holds_of_replace hwf hx hj with ⟨hjx, hj⟩ | ⟨hjx, hm', hnone'⟩
  · exact hg hi hj
  · by_contra hne
    exact hnone' i hne (hm' ▸ hi)
  · by_contra hne
    exact hnone j (Ne.symm hne) (hm ▸ hj)
  · rw [hix, hjx]

theorem Sound.replace (hg : g.Sound) (hx : x < g.size) (hn : ∀ s ∈ n.op.sources, s < g.size)
    (hfree : ∀ s ∈ n.op.sources, ¬Walk.Reaches g.sources (g.resolve s) (g.resolve x)) :
    (g.replace x n).Sound := by
  have hwf : (g.replace x n).WellFormed := replace_wellFormed hg.wellFormed
  have hget := replace_get (n := n) hg.wellFormed hx
  have hother : ∀ {r}, g.resolve r ≠ g.resolve x → (g.replace x n).get r = g.get r :=
    fun h => by rw [hget, if_neg h]
  have hself : ∀ {r}, g.resolve r = g.resolve x → (g.replace x n).get r = g.resolved n :=
    fun h => by rw [hget, if_pos h]
  have hnew : ∀ s ∈ (g.resolved n).op.sources, ∃ a ∈ n.op.sources, g.resolve a = s := by
    intro s hs
    rw [resolved, Op.sources_mapSources] at hs
    exact List.mem_map.mp hs
  -- First the nodes from which the overwritten one cannot be reached, then it, then the others.
  have hapart : ∀ r, r < g.size → ¬Walk.Reaches g.sources (g.resolve r) (g.resolve x) →
      (g.replace x n).Founded r := by
    intro r hr hreach
    have hfounded := (hg.wellFormed.founded_resolve).mpr (hg.founded hr)
    generalize hq : g.resolve r = q at hfounded hreach
    induction hfounded generalizing r with
    | intro q _ ih =>
      subst hq
      have hne : g.resolve r ≠ g.resolve x := fun h => hreach (h ▸ .refl)
      refine ⟨r, fun s hs => ?_⟩
      obtain ⟨a, ha, rfl⟩ := List.mem_map.mp hs
      rw [sources_congr (hother hne)] at ha
      have hread : g.resolve a ∈ g.sources (g.resolve r) := by
        rw [hg.wellFormed.sources_resolve]
        exact List.mem_map_of_mem ha
      refine hwf.founded_resolve.mpr (ih _ hread a (hg.source_lt hr ha) rfl fun h => ?_)
      exact hreach (.head hread h)
  have hover : ∀ r, g.resolve r = g.resolve x → (g.replace x n).Founded r := by
    intro r hr
    refine ⟨r, fun s hs => ?_⟩
    obtain ⟨a, ha, rfl⟩ := List.mem_map.mp hs
    rw [op, hself hr] at ha
    obtain ⟨b, hb, rfl⟩ := hnew a ha
    refine hwf.founded_resolve.mpr (hapart _ (hg.wellFormed.resolve_lt (hn b hb)) ?_)
    rw [hg.wellFormed.resolve_resolve]
    exact hfree b hb
  refine ⟨hwf, fun {r s} hr hs => ?_, fun {r} hr => ?_, Distinct.replace hg.wellFormed hg.unique hx⟩
  · rw [replace_size] at hr ⊢
    by_cases h : g.resolve r = g.resolve x
    · rw [op, hself h] at hs
      obtain ⟨a, ha, rfl⟩ := hnew s hs
      exact hg.wellFormed.resolve_lt (hn a ha)
    · rw [sources_congr (hother h)] at hs
      exact hg.source_lt hr hs
  · rw [replace_size] at hr
    have hfounded := hg.wellFormed.founded_resolve.mpr (hg.founded hr)
    generalize hq : g.resolve r = q at hfounded
    induction hfounded generalizing r with
    | intro q _ ih =>
      subst hq
      by_cases h : g.resolve r = g.resolve x
      · exact hover r h
      · refine ⟨r, fun s hs => ?_⟩
        obtain ⟨a, ha, rfl⟩ := List.mem_map.mp hs
        rw [sources_congr (hother h)] at ha
        have hread : g.resolve a ∈ g.sources (g.resolve r) := by
          rw [hg.wellFormed.sources_resolve]
          exact List.mem_map_of_mem ha
        exact hwf.founded_resolve.mpr (ih _ hread (hg.source_lt hr ha) rfl)

end Replace

/-! ### The order of nodes -/

variable (hg : g.Sound) (hr : r < g.size)

include hg hr

theorem Sound.ordered_order :
    Walk.Ordered g.sources (g.order r).reverse ∧ g.resolve r ∈ g.order r := by
  refine Walk.ordered_postorder (U := Finset.range g.size) (I := (· < g.size)) ?_ ?_ ?_ ?_ ?_
  · exact fun n hn => Finset.mem_range.mpr hn
  · exact fun n hn m hm => hg.sources_lt hn hm
  · exact fun n hn m hm => (hg.founded hn).not_reaches hm
  · rw [Finset.card_range]
  · exact hg.wellFormed.resolve_lt hr

theorem Sound.mem_order_of_reaches (h : Walk.Reaches g.sources (g.resolve r) s) :
    s ∈ g.order r := by
  obtain ⟨hord, hmem⟩ := hg.ordered_order hr
  exact List.mem_reverse.mp (hord.mem_of_reaches (List.mem_reverse.mpr hmem) h)

theorem Grows.forall₂_order (h : g.Grows g') :
    List.Forall₂ (fun a b => a = b ∧ a < g.size) (g.order r) (g'.order r) := by
  have hshape : Walk.Shape g.sources g'.sources (Finset.range g.size) (Finset.range g'.size)
      fun a b => a = b ∧ a < g.size := by
    refine ⟨fun {a b} hab => ?_, fun hab hab' => by rw [hab.1, hab'.1], fun {a b} hab => ?_⟩
    · obtain ⟨rfl, ha⟩ := hab
      rw [h.sources_eq hg ha]
      exact List.forall₂_same.mpr fun s hs => ⟨rfl, hg.sources_lt ha hs⟩
    · obtain ⟨rfl, ha⟩ := hab
      exact ⟨Finset.mem_range.mpr ha, Finset.mem_range.mpr (Nat.lt_of_lt_of_le ha h.size_le)⟩
  have hroot := hg.wellFormed.resolve_lt hr
  have hlists := hshape.postorder (Finset.card_range _).le (Finset.card_range _).le ⟨rfl, hroot⟩
  rwa [← order, ← h.resolve_eq hg.wellFormed hr, ← order] at hlists

theorem Grows.order_eq (h : g.Grows g') : g'.order r = g.order r := by
  symm
  rw [← List.forall₂_eq_eq_eq]
  exact (h.forall₂_order hg hr).imp fun _ _ hab => hab.1

theorem Sound.order_lt (hs : s ∈ g.order r) : s < g.size :=
  (List.forall₂_same.mp ((Grows.refl hg.wellFormed).forall₂_order hg hr) s hs).2

theorem Sound.forall_order {P : Ref → Prop} (hroot : P (g.resolve r))
    (hstep : ∀ a, P a → ∀ s ∈ g.sources a, P s) : ∀ s ∈ g.order r, P s := by
  have hshape : Walk.Shape g.sources g.sources (Finset.range g.size) (Finset.range g.size)
      fun a b => a = b ∧ a < g.size ∧ P a := by
    refine ⟨fun {a b} hab => ?_, fun hab hab' => by rw [hab.1, hab'.1], fun {a b} hab => ?_⟩
    · obtain ⟨rfl, ha, hP⟩ := hab
      exact List.forall₂_same.mpr fun s hs => ⟨rfl, hg.sources_lt ha hs, hstep a hP s hs⟩
    · obtain ⟨rfl, ha, -⟩ := hab
      exact ⟨Finset.mem_range.mpr ha, Finset.mem_range.mpr ha⟩
  have hlists := hshape.postorder (Finset.card_range _).le (Finset.card_range _).le
    ⟨rfl, hg.wellFormed.resolve_lt hr, hroot⟩
  exact fun s hs => (List.forall₂_same.mp hlists s hs).2.2

omit hg hr in
theorem nodup_order (g : Graph) (root : Ref) : (g.order root).Nodup :=
  Walk.nodup_postorderFrom _ _ _

theorem Sound.resolve_order : ∀ s ∈ g.order r, g.resolve s = s := by
  refine hg.forall_order hr (hg.wellFormed.resolve_resolve r) fun a _ s hs => ?_
  obtain ⟨x, -, rfl⟩ := List.mem_map.mp hs
  exact hg.wellFormed.resolve_resolve x

theorem Sound.mem_order_iff : s ∈ g.order r ↔ Walk.Reaches g.sources (g.resolve r) s := by
  constructor
  · exact hg.forall_order hr .refl (fun a ha s hs => ha.tail hs) s
  · exact hg.mem_order_of_reaches hr

theorem Sound.sources_mem_order (hs : s ∈ g.order r) (hi : i ∈ g.sources s) : i ∈ g.order r := by
  rw [hg.mem_order_iff hr] at hs ⊢
  exact hs.tail hi

/-! ### Depth -/

/-- No chain of reads from a node has more than `n` nodes. -/
inductive Below (g : Graph) : (n : Nat) → Ref → Prop
  | node {n : Nat} {r : Ref} (h : ∀ s ∈ (g.op r).sources, g.Below n s) : g.Below (n + 1) r

/-- A chain of reads meets no node twice, so the graph has as many nodes as the longest one. -/
theorem Sound.below_size : g.Below g.size r := by
  suffices hgen : ∀ path : Finset Ref, (∀ p ∈ path, p < g.size) →
      (∀ p ∈ path, ¬Walk.Reaches g.sources (g.resolve r) p) → g.Below (g.size - path.card) r by
    simpa using hgen ∅ (by simp) (by simp)
  have hfounded := hg.wellFormed.founded_resolve.mpr (hg.founded hr)
  generalize hq : g.resolve r = q at hfounded
  induction hfounded generalizing r with
  | intro q hacc ih =>
    subst hq
    intro path hlt hpath
    have hnotin : g.resolve r ∉ path := fun h => hpath _ h .refl
    have hlt' : ∀ p ∈ Insert.insert (g.resolve r) path, p < g.size := by
      rw [Finset.forall_mem_insert]
      exact ⟨hg.wellFormed.resolve_lt hr, hlt⟩
    have hcard : path.card + 1 ≤ g.size := by
      rw [← Finset.card_insert_of_notMem hnotin, ← Finset.card_range g.size]
      exact Finset.card_le_card fun p hp => Finset.mem_range.mpr (hlt' p hp)
    rw [show g.size - path.card = g.size - (path.card + 1) + 1 by omega,
      ← Finset.card_insert_of_notMem hnotin]
    refine .node fun s hs => ?_
    have hread : g.resolve s ∈ g.sources (g.resolve r) := by
      rw [hg.wellFormed.sources_resolve]
      exact List.mem_map_of_mem hs
    refine ih _ hread (hg.source_lt hr hs) rfl _ hlt' ?_
    rw [Finset.forall_mem_insert]
    exact ⟨Founded.not_reaches ⟨_, hacc⟩ hread, fun p hp h => hpath p hp (.head hread h)⟩

end Graph

end LazyTensor

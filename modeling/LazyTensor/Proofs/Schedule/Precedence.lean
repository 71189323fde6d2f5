import LazyTensor.Proofs.Except
import LazyTensor.Proofs.Order
import LazyTensor.Schedule.Order
import Mathlib.Data.Fintype.Card
import Mathlib.Data.Set.Finite.List
import Mathlib.Logic.Relation
import Mathlib.Order.WellFounded

/-!
# Precedence of kernels

The queue of kernels takes, over and over, the kernel of the earliest node among those that wait for
no other. It empties exactly if no kernels wait for each other in a circle.
-/

namespace LazyTensor

/-! ### Sets in increasing order -/

theorem insertElem_pairwise {α : Type} {cmp : α → α → Ordering} [Std.TransCmp cmp]
    [Std.LawfulEqCmp cmp] (a : α) {l : List α} (hl : l.Pairwise fun x y => cmp x y = .lt) :
    (insertElem cmp a l).Pairwise fun x y => cmp x y = .lt := by
  induction l with
  | nil => exact List.pairwise_singleton _ a
  | cons b rest ih =>
    obtain ⟨hb, hrest⟩ := List.pairwise_cons.mp hl
    rw [insertElem]
    cases hcompare : cmp a b with
    | lt =>
      refine List.pairwise_cons.mpr ⟨List.forall_mem_cons.mpr ⟨hcompare, fun x hx => ?_⟩, hl⟩
      exact Std.TransCmp.lt_trans hcompare (hb x hx)
    | eq => exact hl
    | gt =>
      refine List.pairwise_cons.mpr ⟨fun x hx => ?_, ih hrest⟩
      rcases mem_insertElem.mp hx with rfl | hx
      · exact Std.OrientedCmp.gt_iff_lt.mp hcompare
      · exact hb x hx

namespace FusedKernel

variable {kernels remaining ordered : List FusedKernel} {p k : FusedKernel} {i j : Nat}

/-! ### Taking the earliest kernel that waits for no other -/

def precedes (a b : FusedKernel) : Bool :=
  a.root != b.root &&
    (b.deps.contains a.root ||
      b.overwrites.any fun target =>
        a.reads.contains target || (a.overwrites == some target && a.root < b.root))

/-- Those of the remaining kernels that wait for no other. -/
def ready (remaining : List FusedKernel) : List FusedKernel :=
  remaining.filter fun k => remaining.all fun p => !p.precedes k

/-- Takes the kernel of the earliest node among those that are ready, over and over. -/
def orderFrom : (count : Nat) → List FusedKernel → Except TensorError (List FusedKernel)
  | 0, _ => .ok []
  | count + 1, remaining =>
    match firstMin? root (ready remaining) with
    | some k => (k :: ·) <$> orderFrom count (remaining.filter fun p => p.root != k.root)
    | none => .error (.cyclicSchedule remaining.length)

theorem orderFrom_ok {count : Nat} (h : orderFrom (count + 1) remaining = .ok ordered) :
    ∃ k rest, ordered = k :: rest ∧ k ∈ remaining ∧ firstMin? root (ready remaining) = some k ∧
      orderFrom count (remaining.filter fun p => p.root != k.root) = .ok rest := by
  rw [orderFrom] at h
  split at h
  next k hk =>
    obtain ⟨rest, hrest, rfl⟩ := map_eq_ok h
    exact ⟨k, rest, rfl, (List.mem_filter.mp (firstMin?_spec hk).1).1, hk, hrest⟩
  next => cases h

theorem not_precedes_of_firstMin? (h : firstMin? root (ready remaining) = some k) :
    ∀ p ∈ remaining, p.precedes k = false := fun p hp => by
  simpa using List.all_eq_true.mp (List.mem_filter.mp (firstMin?_spec h).1).2 p hp

/-! ### Successors -/

theorem position_inj (hnodup : (kernels.map root).Nodup) (hp : kernels[i]? = some p)
    (hk : kernels[j]? = some k) (hroot : p.root = k.root) : i = j := by
  have hi : i < (kernels.map root).length := by
    rw [List.length_map]
    exact (List.getElem?_eq_some_iff.mp hp).1
  refine (List.getElem?_inj hi hnodup).mp ?_
  rw [List.getElem?_map, List.getElem?_map, hp, hk]
  exact congrArg some hroot

theorem producer?_eq_some (hnodup : (kernels.map root).Nodup) {t : Tensor} :
    producer? kernels t = some i ↔ ∃ p, kernels[i]? = some p ∧ p.root = t := by
  rw [producer?, List.findIdx?_eq_some_iff_getElem]
  constructor
  · rintro ⟨hi, hroot, -⟩
    exact ⟨_, List.getElem?_eq_getElem hi, by simpa using hroot⟩
  · rintro ⟨p, hp, rfl⟩
    obtain ⟨hi, rfl⟩ := List.getElem?_eq_some_iff.mp hp
    refine ⟨hi, by simp, fun j hj hroot => ?_⟩
    exact hj.ne (position_inj hnodup (List.getElem?_eq_getElem (hj.trans hi)) hp (beq_iff_eq.mp hroot))

theorem mem_waitsFor (hnodup : (kernels.map root).Nodup) :
    i ∈ waitsFor kernels k ↔ ∃ p, kernels[i]? = some p ∧ (p.root ∈ k.deps ∨
      ∃ target, k.overwrites = some target ∧
        (target ∈ p.reads ∨ p.overwrites = some target ∧ p.root < k.root)) := by
  simp only [waitsFor, List.mem_append, List.mem_filterMap, producer?_eq_some hnodup, List.mem_flatMap,
    Option.mem_toList, Prod.exists, List.mem_zipIdx_iff_getElem?]
  constructor
  · rintro (⟨t, ht, p, hp, rfl⟩ | ⟨target, htarget, p, j, hp, hread | hover⟩)
    · exact ⟨p, hp, .inl ht⟩
    · split at hread
      next hmem =>
        obtain rfl := List.mem_singleton.mp hread
        exact ⟨p, hp, .inr ⟨target, htarget, .inl (List.contains_iff_mem.mp hmem)⟩⟩
      next => cases hread
    · split at hover
      next hmem =>
        obtain rfl := List.mem_singleton.mp hover
        exact ⟨p, hp, .inr ⟨target, htarget, .inr (by simpa using hmem)⟩⟩
      next => cases hover
  · rintro ⟨p, hp, hdep | ⟨target, htarget, hread | ⟨hover, hlt⟩⟩⟩
    · exact .inl ⟨p.root, hdep, p, hp, rfl⟩
    · exact .inr ⟨target, htarget, p, i, hp, .inl (by simp [hread])⟩
    · exact .inr ⟨target, htarget, p, i, hp, .inr (by simp [hover, hlt])⟩

/-- One increasing list for each position, of those that `E` leads to. -/
structure Edges (sets : List (List Nat)) (count : Nat) (E : Nat → Nat → Prop) : Prop where
  length_eq : sets.length = count
  sorted : ∀ i, (sets.getD i []).Pairwise fun x y => compare x y = .lt
  mem_iff : ∀ i j, j ∈ sets.getD i [] ↔ E i j

variable {sets : List (List Nat)} {count : Nat} {E : Nat → Nat → Prop}

theorem Edges.congr {E' : Nat → Nat → Prop} (h : Edges sets count E) (heq : ∀ i j, E i j ↔ E' i j) :
    Edges sets count E' :=
  ⟨h.length_eq, h.sorted, fun i j => (h.mem_iff i j).trans (heq i j)⟩

theorem Edges.addEdge (h : Edges sets count E) {source : Nat} (hsource : source < count) (target : Nat) :
    Edges (addEdge target sets source) count
      fun i j => E i j ∨ j = target ∧ i = source ∧ i ≠ target := by
  rw [FusedKernel.addEdge]
  split
  next heq =>
    refine h.congr fun i j => (or_iff_left ?_).symm
    rintro ⟨-, rfl, hne⟩
    exact hne heq
  next hne =>
    have hget : ∀ i, (sets.modify source (insertElem compare target)).getD i []
        = if source = i then insertElem compare target (sets.getD i []) else sets.getD i [] := by
      intro i
      rw [List.getD_eq_getElem?_getD, List.getElem?_modify, List.getD_eq_getElem?_getD]
      split
      next heq =>
        subst heq
        rw [List.getElem?_eq_getElem (h.length_eq ▸ hsource)]
        rfl
      next => rw [id_map']
    refine ⟨(List.length_modify ..).trans h.length_eq, fun i => ?_, fun i j => ?_⟩
    · rw [hget]
      split
      · exact insertElem_pairwise target (h.sorted i)
      · exact h.sorted i
    · rw [hget]
      split
      next heq =>
        subst heq
        rw [mem_insertElem, h.mem_iff, or_comm]
        simp [hne]
      next hi => rw [h.mem_iff, or_iff_left fun hedge => hi hedge.2.1.symm]

theorem Edges.foldl_addEdge (h : Edges sets count E) {sources : List Nat}
    (hsources : ∀ i ∈ sources, i < count) (target : Nat) :
    Edges (sources.foldl (FusedKernel.addEdge target) sets) count
      fun i j => E i j ∨ j = target ∧ i ∈ sources ∧ i ≠ target := by
  induction sources generalizing sets E with
  | nil => exact h.congr fun i j => by simp
  | cons source sources ih =>
    rw [List.forall_mem_cons] at hsources
    refine (ih (h.addEdge hsources.1 target) hsources.2).congr fun i j => ?_
    rw [List.mem_cons]
    tauto

def PrecedesAt (kernels : List FusedKernel) (i j : Nat) : Prop :=
  ∃ p k, kernels[i]? = some p ∧ kernels[j]? = some k ∧ p.precedes k = true

theorem precedes_iff : p.precedes k = true ↔ p.root ≠ k.root ∧ (p.root ∈ k.deps ∨
    ∃ target, k.overwrites = some target ∧
      (target ∈ p.reads ∨ p.overwrites = some target ∧ p.root < k.root)) := by
  rw [precedes, Bool.and_eq_true, bne_iff_ne, Bool.or_eq_true, List.contains_iff_mem]
  refine and_congr_right fun _ => or_congr_right ?_
  cases k.overwrites with
  | none | some target => simp

theorem successors_edges (hnodup : (kernels.map root).Nodup) :
    Edges (successors kernels) kernels.length (PrecedesAt kernels) := by
  have hfold : ∀ (ps : List (FusedKernel × Nat)) (sets : List (List Nat)) (E : Nat → Nat → Prop),
      Edges sets kernels.length E →
      Edges (ps.foldl (fun sets p => (waitsFor kernels p.1).foldl (FusedKernel.addEdge p.2) sets) sets)
        kernels.length fun i j => E i j ∨ ∃ k, (k, j) ∈ ps ∧ i ∈ waitsFor kernels k ∧ i ≠ j := by
    intro ps
    induction ps with
    | nil => exact fun sets E h => h.congr fun i j => by simp
    | cons p ps ih =>
      intro sets E h
      have hsources : ∀ i ∈ waitsFor kernels p.1, i < kernels.length := by
        intro i hi
        obtain ⟨q, hq, -⟩ := (mem_waitsFor hnodup).mp hi
        exact (List.getElem?_eq_some_iff.mp hq).1
      refine (ih _ _ (h.foldl_addEdge hsources p.2)).congr fun i j => ?_
      obtain ⟨k, t⟩ := p
      simp only [List.mem_cons, Prod.mk.injEq]
      constructor
      · rintro ((hE | ⟨rfl, hi, hne⟩) | ⟨k', hk', hi⟩)
        · exact .inl hE
        · exact .inr ⟨k, .inl ⟨rfl, rfl⟩, hi, hne⟩
        · exact .inr ⟨k', .inr hk', hi⟩
      · rintro (hE | ⟨k', ⟨rfl, rfl⟩ | hk', hi⟩)
        · exact .inl (.inl hE)
        · exact .inl (.inr ⟨rfl, hi⟩)
        · exact .inr ⟨k', hk', hi⟩
  have hstart : Edges (kernels.map fun _ => []) kernels.length fun _ _ => False := by
    have hget : ∀ i, (kernels.map fun _ => ([] : List Nat)).getD i [] = [] := by
      intro i
      rw [List.getD_eq_getElem?_getD, List.getElem?_map]
      cases kernels[i]? <;> rfl
    refine ⟨List.length_map _, fun i => ?_, fun i j => ?_⟩
    · rw [hget]
      exact .nil
    · rw [hget]
      exact ⟨nofun, False.elim⟩
  refine (hfold kernels.zipIdx _ _ hstart).congr fun i j => ?_
  simp only [false_or, List.mem_zipIdx_iff_getElem?, mem_waitsFor hnodup]
  constructor
  · rintro ⟨k, hk, ⟨p, hp, hreason⟩, hne⟩
    exact ⟨p, k, hp, hk, precedes_iff.mpr ⟨fun hroot => hne (position_inj hnodup hp hk hroot), hreason⟩⟩
  · rintro ⟨p, k, hp, hk, hprecedes⟩
    obtain ⟨hroot, hreason⟩ := precedes_iff.mp hprecedes
    refine ⟨k, hk, ⟨p, hp, hreason⟩, ?_⟩
    rintro rfl
    exact hroot (congrArg root (Option.some.inj (hp.symm.trans hk)))

/-! ### Counting -/

/-- The positions that `i` comes after and that are not placed yet. -/
def waits (sets : List (List Nat)) (placed : List Nat) (i : Nat) : List Nat :=
  (List.range sets.length).filter fun j => decide (j ∉ placed ∧ i ∈ sets.getD j [])

theorem mem_waits {placed : List Nat} :
    j ∈ waits sets placed i ↔ j < sets.length ∧ j ∉ placed ∧ i ∈ sets.getD j [] := by
  rw [waits, List.mem_filter, List.mem_range, decide_eq_true_eq]

theorem nodup_waits (sets : List (List Nat)) (placed : List Nat) (i : Nat) : (waits sets placed i).Nodup :=
  List.nodup_range.filter _

theorem waits_cons (sets : List (List Nat)) (placed : List Nat) (i j : Nat) :
    waits sets (j :: placed) i = (waits sets placed i).erase j := by
  rw [(nodup_waits sets placed i).erase_eq_filter, waits, waits, List.filter_filter]
  refine List.filter_congr fun x _ => ?_
  by_cases hx : x = j <;> simp [hx]

theorem getElem?_foldl_modify (xs counts : List Nat) :
    (xs.foldl (fun counts i => counts.modify i (· + 1)) counts)[i]?
      = counts[i]?.map (· + xs.count i) := by
  induction xs generalizing counts with
  | nil => simp
  | cons x xs ih =>
    rw [List.foldl_cons, ih, List.getElem?_modify, List.count_cons]
    by_cases hx : x = i
    · cases counts[i]? <;> simp [hx, Nat.add_comm, Nat.add_left_comm]
    · cases counts[i]? <;> simp [hx]

theorem Edges.nodup (h : Edges sets count E) (i : Nat) : (sets.getD i []).Nodup :=
  (h.sorted i).imp fun hlt => (Nat.compare_eq_lt.mp hlt).ne

theorem Edges.getElem?_waitCounts (h : Edges sets count E) (hi : i < count) :
    (waitCounts sets)[i]? = some (waits sets [] i).length := by
  have hcount : ∀ ls : List (List Nat), (∀ l ∈ ls, l.Nodup) →
      ls.flatten.count i = ls.countP fun l => decide (i ∈ l) := by
    intro ls hls
    induction ls with
    | nil => rfl
    | cons l ls ih =>
      rw [List.forall_mem_cons] at hls
      rw [List.flatten_cons, List.count_append, ih hls.2, List.countP_cons, Nat.add_comm,
        hls.1.count]
      simp
  have hsets : (List.range sets.length).map (fun j => sets.getD j []) = sets := by
    refine List.ext_getElem (by simp) fun j _ hj => ?_
    rw [List.getElem_map, List.getElem_range, List.getD_eq_getElem?_getD, List.getElem?_eq_getElem hj,
      Option.getD_some]
  rw [waitCounts, getElem?_foldl_modify, List.getElem?_map,
    List.getElem?_eq_getElem (h.length_eq.symm ▸ hi), Option.map_some, Option.map_some, Nat.zero_add,
    hcount sets fun l hl => ?_, waits, ← List.countP_eq_length_filter]
  · conv_lhs => rw [← hsets, List.countP_map]
    simp [Function.comp_def]
  · rw [← hsets] at hl
    obtain ⟨j, -, rfl⟩ := List.mem_map.mp hl
    exact h.nodup j

/-! ### The queue -/

instance (kernels : List FusedKernel) : Std.TransCmp (compareAt kernels) :=
  inferInstanceAs (Std.TransCmp (compareLex _ _))

instance (kernels : List FusedKernel) : Std.LawfulEqCmp (compareAt kernels) where
  eq_of_compare h := Std.LawfulEqCmp.eq_of_compare (Ordering.then_eq_eq.mp h).2

namespace Queue

variable {q : Queue} {placed : List Nat}

/-- Some kernels are placed; the queue counts what the others wait for and holds those that can run. -/
structure Tracks (kernels : List FusedKernel) (sets : List (List Nat)) (placed : List Nat) (q : Queue) :
    Prop where
  counts : ∀ i < sets.length, q.counts[i]? = some (waits sets placed i).length
  sorted : q.ready.Pairwise fun i j => compareAt kernels i j = .lt
  ready : ∀ i, i ∈ q.ready ↔ i < sets.length ∧ i ∉ placed ∧ waits sets placed i = []
  done : ∀ i ∈ placed, waits sets placed i = []

theorem release_counts (q : Queue) :
    (q.release kernels i).counts[j]? = if i = j then q.counts[j]?.map (· - 1) else q.counts[j]? := by
  rw [release, List.getElem?_modify]
  split
  · rfl
  · rw [id_map']

theorem mem_release_ready (q : Queue) :
    j ∈ (q.release kernels i).ready ↔ (j = i ∧ q.counts[i]?.map (· - 1) = some 0) ∨ j ∈ q.ready := by
  have hcount : (q.release kernels i).counts[i]? = q.counts[i]?.map (· - 1) :=
    (release_counts q).trans (if_pos rfl)
  rw [← hcount, release]
  dsimp only
  split
  next h =>
    rw [mem_insertElem]
    exact or_congr_left (and_iff_left h).symm
  next h => exact (or_iff_right fun hj => h hj.2).symm

theorem foldl_release {js : List Nat} (hjs : js.Nodup)
    (hsorted : q.ready.Pairwise fun i j => compareAt kernels i j = .lt) :
    (∀ i, (js.foldl (release kernels) q).counts[i]?
        = if i ∈ js then q.counts[i]?.map (· - 1) else q.counts[i]?) ∧
      (∀ i, i ∈ (js.foldl (release kernels) q).ready ↔
        i ∈ q.ready ∨ i ∈ js ∧ q.counts[i]?.map (· - 1) = some 0) ∧
      (js.foldl (release kernels) q).ready.Pairwise fun i j => compareAt kernels i j = .lt := by
  induction js generalizing q with
  | nil => exact ⟨fun i => by simp, fun i => by simp, hsorted⟩
  | cons j js ih =>
    obtain ⟨hj, hjs⟩ := List.nodup_cons.mp hjs
    have hsorted' : (q.release kernels j).ready.Pairwise fun i j => compareAt kernels i j = .lt := by
      rw [release]
      dsimp only
      split
      · exact insertElem_pairwise j hsorted
      · exact hsorted
    obtain ⟨hcounts, hready, hlast⟩ := ih hjs hsorted'
    refine ⟨fun i => ?_, fun i => ?_, hlast⟩
    · rw [List.foldl_cons, hcounts, release_counts]
      by_cases hi : j = i
      · subst hi
        rw [if_neg hj, if_pos rfl, if_pos List.mem_cons_self]
      · simp [hi, Ne.symm hi]
    · rw [List.foldl_cons, hready, mem_release_ready, release_counts, List.mem_cons]
      by_cases hi : j = i
      · subst hi
        simp [hj, or_comm]
      · simp [hi, Ne.symm hi]

theorem tracks_start (h : Edges sets kernels.length E) :
    (start kernels sets).Tracks kernels sets [] where
  counts i hi := h.getElem?_waitCounts (h.length_eq ▸ hi)
  sorted := by
    have hfold : ∀ (new old : List Nat), old.Pairwise (fun i j => compareAt kernels i j = .lt) →
        (insertElems (compareAt kernels) new old).Pairwise fun i j => compareAt kernels i j = .lt := by
      intro new
      induction new with
      | nil => exact fun old hold => hold
      | cons a new ih => exact fun old hold => ih _ (insertElem_pairwise a hold)
    exact hfold _ [] .nil
  ready i := by
    rw [start]
    dsimp only
    rw [mem_insertElems, or_iff_left List.not_mem_nil, List.mem_filter, List.mem_range, h.length_eq]
    refine and_congr_right fun hi => ?_
    rw [h.getElem?_waitCounts hi, beq_iff_eq, Option.some.injEq, List.length_eq_zero_iff,
      and_iff_right List.not_mem_nil]
  done i hi := absurd hi List.not_mem_nil

theorem Tracks.step (h : q.Tracks kernels sets placed)
    (hsets : Edges sets kernels.length (PrecedesAt kernels))
    {first : Nat} {rest : List Nat} (hready : q.ready = first :: rest) :
    ((sets.getD first []).foldl (release kernels) { q with ready := rest }).Tracks kernels sets
      (first :: placed) := by
  obtain ⟨hfirst, hnew, hnone⟩ := (h.ready first).mp (hready ▸ List.mem_cons_self)
  have hsorted := h.sorted
  rw [hready] at hsorted
  obtain ⟨hless, hsorted⟩ := List.pairwise_cons.mp hsorted
  -- A kernel that comes after the first one waits for it, so it is not placed yet.
  have hwaits : ∀ i, i ∈ sets.getD first [] ↔ first ∈ waits sets placed i := fun i => by
    rw [mem_waits]
    exact ⟨fun hi => ⟨hfirst, hnew, hi⟩, fun hi => hi.2.2⟩
  obtain ⟨hcounts, hready', hsorted'⟩ :=
    foldl_release (q := { q with ready := rest }) (hsets.nodup first) hsorted
  refine ⟨fun i hi => ?_, hsorted', fun i => ?_, fun i hi => ?_⟩
  · rw [hcounts, h.counts i hi, waits_cons]
    split
    next hmem => rw [List.length_erase_of_mem ((hwaits i).mp hmem), Option.map_some]
    next hmem => rw [List.erase_of_not_mem fun hin => hmem ((hwaits i).mpr hin)]
  · rw [hready', waits_cons, List.mem_cons, not_or]
    constructor
    · rintro (hrest | ⟨hmem, hcount⟩)
      · obtain ⟨hi, hplaced, hnil⟩ := (h.ready i).mp (hready ▸ List.mem_cons_of_mem first hrest)
        refine ⟨hi, ⟨?_, hplaced⟩, by rw [hnil]; rfl⟩
        rintro rfl
        exact absurd (hless i hrest) (by simp [Std.ReflCmp.compare_self])
      · have hin := (hwaits i).mp hmem
        obtain ⟨p, k, -, hk, -⟩ := (hsets.mem_iff first i).mp hmem
        have hi : i < sets.length := hsets.length_eq ▸ (List.getElem?_eq_some_iff.mp hk).1
        refine ⟨hi, ⟨?_, fun hplaced => ?_⟩, ?_⟩
        · rintro rfl
          rw [hnone] at hin
          cases hin
        · rw [h.done i hplaced] at hin
          cases hin
        · rw [h.counts i hi, Option.map_some, Option.some.injEq] at hcount
          rw [← List.length_eq_zero_iff, List.length_erase_of_mem hin, hcount]
    · rintro ⟨hi, ⟨hne, hplaced⟩, hnil⟩
      by_cases hin : first ∈ waits sets placed i
      · refine .inr ⟨(hwaits i).mpr hin, ?_⟩
        rw [h.counts i hi, Option.map_some, ← List.length_erase_of_mem hin, hnil]
        rfl
      · rw [List.erase_of_not_mem hin] at hnil
        have hmem := (h.ready i).mpr ⟨hi, hplaced, hnil⟩
        rw [hready] at hmem
        exact .inl ((List.mem_cons.mp hmem).resolve_left hne)
  · rw [waits_cons]
    rcases List.mem_cons.mp hi with rfl | hi
    · rw [hnone]
      rfl
    · rw [h.done i hi]
      rfl

end Queue

/-! ### The order -/

theorem perm_filter_root (hnodup : (kernels.map root).Nodup) (hk : k ∈ kernels) :
    kernels.Perm (k :: kernels.filter fun p => p.root != k.root) := by
  refine (List.perm_ext_iff_of_nodup hnodup.of_map ?_).mpr fun p => ?_
  · refine List.nodup_cons.mpr ⟨?_, hnodup.of_map.filter _⟩
    simp
  · rw [List.mem_cons, List.mem_filter, bne_iff_ne]
    constructor
    · intro hp
      by_cases hroot : p.root = k.root
      · exact .inl (List.inj_on_of_nodup_map hnodup hp hk hroot)
      · exact .inr ⟨hp, hroot⟩
    · rintro (rfl | hp)
      · exact hk
      · exact hp.1

theorem firstMin?_root (hnodup : (remaining.map root).Nodup) (hk : k ∈ ready remaining)
    (hleast : ∀ p ∈ ready remaining, k.root ≤ p.root) : firstMin? root (ready remaining) = some k := by
  cases hmin : firstMin? root (ready remaining) with
  | none =>
    cases hlist : ready remaining with
    | nil =>
      rw [hlist] at hk
      cases hk
    | cons a rest =>
      rw [hlist] at hmin
      cases hmin
  | some p =>
    have hroot : p.root = k.root :=
      Nat.le_antisymm ((firstMin?_spec hmin).2 k hk) (hleast p (firstMin?_spec hmin).1)
    have hmem : ∀ q ∈ ready remaining, q ∈ remaining := fun q hq => (List.mem_filter.mp hq).1
    rw [List.inj_on_of_nodup_map hnodup (hmem p (firstMin?_spec hmin).1) (hmem k hk) hroot]

theorem rootAt_le (h : compareAt kernels i j = .lt) : rootAt kernels i ≤ rootAt kernels j := by
  rcases Ordering.then_eq_lt.mp h with hlt | ⟨heq, -⟩
  · exact (Nat.compare_eq_lt.mp hlt).le
  · exact (Nat.compare_eq_eq.mp heq).le

theorem collect_cons (hk : kernels[i]? = some k) (count : Nat) (positions : List Nat) :
    collect kernels (count + 1) (i :: positions) = (k :: ·) <$> collect kernels count positions := by
  rw [collect, collect, List.length_cons, List.filterMap_cons, hk, Nat.add_sub_add_right]
  by_cases hlength : positions.length = count
  · rw [if_pos hlength, if_pos (congrArg (· + 1) hlength)]
    rfl
  · rw [if_neg hlength, if_neg fun heq => hlength (Nat.succ.inj heq)]
    rfl

section Drain

variable {placed : List Nat} {q : Queue} (hsets : Edges sets kernels.length (PrecedesAt kernels))
  (hremaining : ∀ p, p ∈ remaining ↔ ∃ i, kernels[i]? = some p ∧ i ∉ placed)

include hsets hremaining

theorem Queue.Tracks.mem_ready_iff (h : q.Tracks kernels sets placed) (hk : kernels[i]? = some k) :
    i ∈ q.ready ↔ i ∉ placed ∧ k ∈ FusedKernel.ready remaining := by
  have hi : i < sets.length := hsets.length_eq ▸ (List.getElem?_eq_some_iff.mp hk).1
  rw [h.ready, and_iff_right hi]
  refine and_congr_right fun hplaced => ?_
  rw [FusedKernel.ready, List.mem_filter, and_iff_right ((hremaining k).mpr ⟨i, hk, hplaced⟩),
    List.all_eq_true, List.eq_nil_iff_forall_not_mem]
  constructor
  · intro hnone p hp
    rw [Bool.not_eq_true', Bool.eq_false_iff]
    intro hprecedes
    obtain ⟨j, hj, hnew⟩ := (hremaining p).mp hp
    refine hnone j (mem_waits.mpr ⟨?_, hnew, (hsets.mem_iff j i).mpr ⟨p, k, hj, hk, hprecedes⟩⟩)
    exact hsets.length_eq ▸ (List.getElem?_eq_some_iff.mp hj).1
  · intro hnone j hj
    obtain ⟨-, hnew, hedge⟩ := mem_waits.mp hj
    obtain ⟨p, k', hp, hk', hprecedes⟩ := (hsets.mem_iff j i).mp hedge
    obtain rfl : k = k' := Option.some.inj (hk.symm.trans hk')
    have hfree := hnone p ((hremaining p).mpr ⟨j, hp, hnew⟩)
    rw [hprecedes] at hfree
    cases hfree

theorem Queue.Tracks.orderFrom_eq (hnodup : (kernels.map root).Nodup)
    (h : q.Tracks kernels sets placed) (hroots : (remaining.map root).Nodup)
    (hcount : remaining.length = count) :
    orderFrom count remaining = collect kernels count (drain kernels sets count q) := by
  induction count generalizing remaining placed q with
  | zero => rfl
  | succ count ih =>
    rw [orderFrom, drain]
    cases hready : q.ready with
    | nil =>
      have hnone : FusedKernel.ready remaining = [] := by
        refine List.eq_nil_iff_forall_not_mem.mpr fun k hk => ?_
        obtain ⟨i, hi, hnew⟩ := (hremaining k).mp (List.mem_filter.mp hk).1
        have hmem := (h.mem_ready_iff hsets hremaining hi).mpr ⟨hnew, hk⟩
        rw [hready] at hmem
        cases hmem
      rw [hnone, hcount]
      rfl
    | cons first rest =>
      have hmem : first ∈ q.ready := hready ▸ List.mem_cons_self
      have hfirst : first < kernels.length := hsets.length_eq ▸ ((h.ready first).mp hmem).1
      obtain ⟨k, hk⟩ : ∃ k, kernels[first]? = some k := ⟨_, List.getElem?_eq_getElem hfirst⟩
      obtain ⟨hnew, hkready⟩ := (h.mem_ready_iff hsets hremaining hk).mp hmem
      have hsorted := h.sorted
      rw [hready] at hsorted
      -- The queue is in order, so none that can run has an earlier node.
      have hleast : ∀ p ∈ FusedKernel.ready remaining, k.root ≤ p.root := by
        intro p hp
        obtain ⟨j, hj, hjnew⟩ := (hremaining p).mp (List.mem_filter.mp hp).1
        have hjmem := (h.mem_ready_iff hsets hremaining hj).mpr ⟨hjnew, hp⟩
        rw [hready] at hjmem
        rcases List.mem_cons.mp hjmem with rfl | hjmem
        · exact (congrArg root (Option.some.inj (hk.symm.trans hj))).le
        · have hle := rootAt_le (List.rel_of_pairwise_cons hsorted hjmem)
          rwa [rootAt, rootAt, hk, hj] at hle
      rw [firstMin?_root hroots hkready hleast]
      have hkmem : k ∈ remaining := (List.mem_filter.mp hkready).1
      have hlater : ∀ p, p ∈ remaining.filter (fun p => p.root != k.root) ↔
          ∃ i, kernels[i]? = some p ∧ i ∉ first :: placed := by
        intro p
        rw [List.mem_filter, hremaining, bne_iff_ne]
        constructor
        · rintro ⟨⟨i, hi, hinew⟩, hne⟩
          refine ⟨i, hi, fun hmem => (List.mem_cons.mp hmem).elim ?_ hinew⟩
          rintro rfl
          exact hne (congrArg root (Option.some.inj (hi.symm.trans hk)))
        · rintro ⟨i, hi, hinew⟩
          rw [List.mem_cons, not_or] at hinew
          obtain ⟨hne, hinew⟩ := hinew
          exact ⟨⟨i, hi, hinew⟩, fun hroot => hne (position_inj hnodup hi hk hroot)⟩
      have hrest := ih hlater (h.step hsets hready)
        (hroots.sublist (List.filter_sublist.map root))
        (Nat.succ.inj ((perm_filter_root hroots hkmem).length_eq.symm.trans hcount))
      dsimp only
      rw [hrest, collect_cons hk]

end Drain

/-- The queue orders kernels of different nodes by taking the earliest that waits for no other. -/
theorem order_eq_orderFrom (hnodup : (kernels.map root).Nodup) :
    order kernels = orderFrom kernels.length kernels := by
  have hsets := successors_edges hnodup
  refine ((Queue.tracks_start hsets).orderFrom_eq hsets (fun p => ?_) hnodup hnodup rfl).symm
  rw [List.mem_iff_getElem?]
  simp

theorem order_error {e : TensorError} (h : order kernels = .error e) :
    ∃ left, e = .cyclicSchedule left := by
  rw [order, collect] at h
  split at h
  · cases h
  · exact ⟨_, (Except.error.inj h).symm⟩

/-! ### Orders that respect what kernels wait for -/

/-- A kernel computes what another one reads, reads what another one overwrites, or overwrites a buffer
that the kernel of a later node overwrites as well. -/
inductive Before : FusedKernel → FusedKernel → Prop
  | produces {p k : FusedKernel} : p.root ≠ k.root → p.root ∈ k.deps → Before p k
  | reads {p k : FusedKernel} {target : BufferId} :
      p.root ≠ k.root → target ∈ p.reads → k.overwrites = some target → Before p k
  | overwrites {p k : FusedKernel} {target : BufferId} :
      p.root < k.root → p.overwrites = some target → k.overwrites = some target → Before p k

theorem before_iff : Before p k ↔ p.precedes k = true := by
  rw [precedes_iff]
  constructor
  · rintro (⟨hne, hdep⟩ | ⟨hne, hread, hk⟩ | ⟨hlt, hp, hk⟩)
    · exact ⟨hne, .inl hdep⟩
    · exact ⟨hne, .inr ⟨_, hk, .inl hread⟩⟩
    · exact ⟨hlt.ne, .inr ⟨_, hk, .inr ⟨hp, hlt⟩⟩⟩
  · rintro ⟨hne, hdep | ⟨target, hk, hread | ⟨hp, hlt⟩⟩⟩
    · exact .produces hne hdep
    · exact .reads hne hread hk
    · exact .overwrites hlt hp hk

theorem mem_ready : k ∈ ready remaining ↔ k ∈ remaining ∧ ∀ p ∈ remaining, ¬Before p k := by
  simp only [ready, List.mem_filter, List.all_eq_true, before_iff, Bool.not_eq_true', Bool.not_eq_true]

def Step (kernels : List FusedKernel) (p k : FusedKernel) : Prop := p ∈ kernels ∧ k ∈ kernels ∧ Before p k

/-- No kernels wait for each other in a circle. -/
def Acyclic (kernels : List FusedKernel) : Prop := ∀ k, ¬Relation.TransGen (Step kernels) k k

/-- When a kernel is placed, all that come before it are, and of the kernels of which this holds it is
the one of the earliest node. -/
def EarliestFirst (kernels ordered : List FusedKernel) : Prop :=
  ∀ placed k rest, ordered = placed ++ k :: rest →
    (∀ p ∈ kernels, Before p k → p ∈ placed) ∧
      ∀ q ∈ rest, (∀ p ∈ kernels, Before p q → p ∈ placed) → k.root < q.root

section Exact

variable (hnodup : (remaining.map root).Nodup)

include hnodup

theorem earliestFirst_cons {rest : List FusedKernel} (hperm : (k :: rest).Perm remaining) :
    EarliestFirst remaining (k :: rest) ↔ firstMin? root (ready remaining) = some k ∧
      EarliestFirst (remaining.filter fun p => p.root != k.root) rest := by
  have hk : k ∈ remaining := hperm.subset List.mem_cons_self
  have hmem : ∀ {p}, p ∈ rest ↔ p ∈ remaining.filter fun p => p.root != k.root :=
    (hperm.trans (perm_filter_root hnodup hk)).cons_inv.mem_iff
  simp only [List.mem_filter, bne_iff_ne] at hmem
  have hother : ∀ {p}, p ∈ remaining → p = k ∨ p ∈ remaining.filter fun p => p.root != k.root :=
    fun hp => List.mem_cons.mp ((perm_filter_root hnodup hk).subset hp)
  constructor
  · intro h
    obtain ⟨hfree, hleast⟩ := h [] k rest rfl
    refine ⟨firstMin?_root hnodup (mem_ready.mpr ⟨hk, fun p hp hb => List.not_mem_nil (hfree p hp hb)⟩)
      fun p hp => ?_, fun placed k' rest' hrest => ?_⟩
    · obtain ⟨hp, hnone⟩ := mem_ready.mp hp
      rcases List.mem_cons.mp (hperm.mem_iff.mpr hp) with rfl | hp
      · exact le_rfl
      · exact (hleast p hp fun x hx hb => absurd hb (hnone x hx)).le
    · obtain ⟨hplaced, hleast'⟩ := h (k :: placed) k' rest' (congrArg (k :: ·) hrest)
      refine ⟨fun p hp hb => ?_, fun q hq hfree => hleast' q hq fun p hp hb => ?_⟩
      · obtain ⟨hp, hne⟩ := List.mem_filter.mp hp
        refine (List.mem_cons.mp (hplaced p hp hb)).resolve_left ?_
        rintro rfl
        exact bne_iff_ne.mp hne rfl
      · rcases hother hp with rfl | hp
        · exact List.mem_cons_self
        · exact List.mem_cons_of_mem k (hfree p hp hb)
  · rintro ⟨hmin, h⟩ placed k' rest' hsplit
    have hnone := (mem_ready.mp (firstMin?_spec hmin).1).2
    cases placed with
    | nil =>
      cases hsplit
      refine ⟨fun p hp hb => absurd hb (hnone p hp), fun q hq hfree => ?_⟩
      obtain ⟨hq, hne⟩ := hmem.mp hq
      have hready : q ∈ ready remaining :=
        mem_ready.mpr ⟨hq, fun p hp hb => List.not_mem_nil (hfree p hp hb)⟩
      exact lt_of_le_of_ne ((firstMin?_spec hmin).2 q hready) (Ne.symm hne)
    | cons first placed =>
      cases hsplit
      obtain ⟨hplaced, hleast⟩ := h placed k' rest' rfl
      refine ⟨fun p hp hb => ?_, fun q hq hfree => hleast q hq fun p hp hb => ?_⟩
      · rcases hother hp with rfl | hp
        · exact List.mem_cons_self
        · exact List.mem_cons_of_mem k (hplaced p hp hb)
      · obtain ⟨hp, hne⟩ := List.mem_filter.mp hp
        refine (List.mem_cons.mp (hfree p hp hb)).resolve_left ?_
        rintro rfl
        exact bne_iff_ne.mp hne rfl

theorem orderFrom_eq_ok_iff (hcount : remaining.length = count) :
    orderFrom count remaining = .ok ordered ↔
      ordered.Perm remaining ∧ EarliestFirst remaining ordered := by
  induction count generalizing remaining ordered with
  | zero =>
    obtain rfl := List.eq_nil_of_length_eq_zero hcount
    rw [orderFrom, Except.ok.injEq, List.perm_nil, eq_comm]
    refine (and_iff_left_of_imp ?_).symm
    rintro rfl placed k rest hsplit
    exact absurd hsplit (List.append_ne_nil_of_right_ne_nil placed (List.cons_ne_nil k rest)).symm
  | succ count ih =>
    have hlater : ∀ {k}, k ∈ remaining → ∀ {rest},
        orderFrom count (remaining.filter fun p => p.root != k.root) = .ok rest ↔
          rest.Perm (remaining.filter fun p => p.root != k.root) ∧
            EarliestFirst (remaining.filter fun p => p.root != k.root) rest := fun hk =>
      ih (hnodup.sublist (List.filter_sublist.map root))
        (Nat.succ.inj ((perm_filter_root hnodup hk).length_eq.symm.trans hcount))
    constructor
    · intro h
      obtain ⟨k, rest, rfl, hk, hmin, hrest⟩ := orderFrom_ok h
      obtain ⟨hperm, hearliest⟩ := (hlater hk).mp hrest
      have hperm' := (hperm.cons k).trans (perm_filter_root hnodup hk).symm
      exact ⟨hperm', (earliestFirst_cons hnodup hperm').mpr ⟨hmin, hearliest⟩⟩
    · rintro ⟨hperm, hearliest⟩
      obtain ⟨k, rest, rfl⟩ := List.exists_cons_of_length_eq_add_one (hperm.length_eq.trans hcount)
      have hk : k ∈ remaining := hperm.subset List.mem_cons_self
      obtain ⟨hmin, hearliest⟩ := (earliestFirst_cons hnodup hperm).mp hearliest
      have hrest := (hlater hk).mpr
        ⟨(hperm.trans (perm_filter_root hnodup hk)).cons_inv, hearliest⟩
      rw [orderFrom, hmin]
      dsimp only
      rw [hrest]
      rfl

end Exact

theorem EarliestFirst.mem_placed {placed rest : List FusedKernel} (h : EarliestFirst kernels ordered)
    (hpath : Relation.TransGen (Step kernels) p k) (hsplit : ordered = placed ++ k :: rest) :
    p ∈ placed := by
  induction hpath generalizing placed rest with
  | single hstep => exact (h placed _ rest hsplit).1 p hstep.1 hstep.2.2
  | @tail k k' _ hstep ih =>
    obtain ⟨before, after, rfl⟩ := List.append_of_mem ((h placed k' rest hsplit).1 k hstep.1 hstep.2.2)
    rw [List.append_assoc, List.cons_append] at hsplit
    exact List.mem_append_left _ (ih hsplit)

theorem acyclic_of_earliestFirst (hnodup : (kernels.map root).Nodup) (hperm : ordered.Perm kernels)
    (h : EarliestFirst kernels ordered) : Acyclic kernels := by
  intro k hpath
  have hk : k ∈ kernels := by
    obtain ⟨p, -, hstep⟩ := Relation.TransGen.tail'_iff.mp hpath
    exact hstep.2.1
  obtain ⟨placed, rest, hsplit⟩ := List.append_of_mem (hperm.mem_iff.mpr hk)
  have hunique := hperm.nodup_iff.mpr hnodup.of_map
  rw [hsplit, List.nodup_append] at hunique
  exact hunique.2.2 k (h.mem_placed hpath hsplit) k List.mem_cons_self rfl

theorem Acyclic.exists_ready (h : Acyclic kernels) (hsub : ∀ k ∈ remaining, k ∈ kernels)
    (hne : remaining ≠ []) : ∃ k, firstMin? root (ready remaining) = some k := by
  have : Finite { k // k ∈ kernels } := List.finite_toSet kernels
  let R := fun p k : { k // k ∈ kernels } => Relation.TransGen (Step kernels) p.1 k.1
  have : IsTrans _ R := ⟨fun _ _ _ => .trans⟩
  have : Std.Irrefl R := ⟨fun k => h k.1⟩
  obtain ⟨first, hfirst⟩ := List.exists_mem_of_ne_nil remaining hne
  obtain ⟨k, hk, hmin⟩ := (Finite.wellFounded_of_trans_of_irrefl R).has_min
    { k | k.1 ∈ remaining } ⟨⟨first, hsub first hfirst⟩, hfirst⟩
  have hready : k.1 ∈ ready remaining := mem_ready.mpr ⟨hk, fun p hp hb =>
    hmin ⟨p, hsub p hp⟩ hp (.single ⟨hsub p hp, k.2, hb⟩)⟩
  cases hlist : ready remaining with
  | nil =>
    rw [hlist] at hready
    cases hready
  | cons k rest => exact ⟨_, rfl⟩

theorem Acyclic.exists_orderFrom (h : Acyclic kernels) (hsub : ∀ k ∈ remaining, k ∈ kernels)
    (hnodup : (remaining.map root).Nodup) (hcount : remaining.length = count) :
    ∃ ordered, orderFrom count remaining = .ok ordered := by
  induction count generalizing remaining with
  | zero => exact ⟨[], rfl⟩
  | succ count ih =>
    obtain ⟨k, hmin⟩ := h.exists_ready hsub (List.ne_nil_of_length_eq_add_one hcount)
    have hk : k ∈ remaining := (List.mem_filter.mp (firstMin?_spec hmin).1).1
    obtain ⟨rest, hrest⟩ := ih (fun p hp => hsub p (List.mem_filter.mp hp).1)
      (hnodup.sublist (List.filter_sublist.map root))
      (Nat.succ.inj ((perm_filter_root hnodup hk).length_eq.symm.trans hcount))
    refine ⟨k :: rest, ?_⟩
    rw [orderFrom, hmin]
    dsimp only
    rw [hrest]
    rfl

theorem Acyclic.exists_order (h : Acyclic kernels) (hnodup : (kernels.map root).Nodup) :
    ∃ ordered, order kernels = .ok ordered := by
  rw [order_eq_orderFrom hnodup]
  exact h.exists_orderFrom (fun _ => id) hnodup rfl

/-- Kernels of different nodes are ordered exactly if none wait for each other in a circle. The order
has each of them once, and is the one that always goes on with the kernel of the earliest node among
those for which all that come before are placed. -/
theorem order_exact (hnodup : (kernels.map root).Nodup) :
    (∀ ordered, order kernels = .ok ordered ↔ ordered.Perm kernels ∧ EarliestFirst kernels ordered) ∧
      ((∃ ordered, order kernels = .ok ordered) ↔ Acyclic kernels) ∧
      (¬Acyclic kernels → ∃ left, order kernels = .error (.cyclicSchedule left)) := by
  have hiff : ∀ ordered, order kernels = .ok ordered ↔
      ordered.Perm kernels ∧ EarliestFirst kernels ordered := by
    intro ordered
    rw [order_eq_orderFrom hnodup]
    exact orderFrom_eq_ok_iff hnodup rfl
  have hacyclic : (∃ ordered, order kernels = .ok ordered) ↔ Acyclic kernels := by
    refine ⟨?_, fun h => h.exists_order hnodup⟩
    rintro ⟨ordered, hok⟩
    obtain ⟨hperm, hearliest⟩ := (hiff ordered).mp hok
    exact acyclic_of_earliestFirst hnodup hperm hearliest
  refine ⟨hiff, hacyclic, fun hcyclic => ?_⟩
  cases hresult : order kernels with
  | ok ordered => exact absurd (hacyclic.mp ⟨ordered, hresult⟩) hcyclic
  | error e =>
    obtain ⟨left, rfl⟩ := order_error hresult
    exact ⟨left, rfl⟩

/-- An assignment to a buffer that a kernel of a later node reads as it was before, and a kernel that
reads what is assigned. -/
def readFirst : List FusedKernel :=
  [⟨⟨2, {}, 0, [1], []⟩, [], [1], some 0, []⟩, ⟨⟨4, {}, 2, [0], []⟩, [], [0], none, []⟩,
    ⟨⟨5, {}, 3, [0], []⟩, [2], [], none, []⟩]

theorem order_exact_readFirst :
    (readFirst.map root).Nodup ∧ ∃ ordered, order readFirst = .ok ordered ∧
      ordered.map root = [4, 2, 5] ∧ EarliestFirst readFirst ordered ∧ Acyclic readFirst := by
  have hnodup : (readFirst.map root).Nodup := by decide
  obtain ⟨hiff, hacyclic, -⟩ := order_exact hnodup
  have hroots : (order readFirst).toOption.map (·.map root) = some [4, 2, 5] := by decide +kernel
  cases hresult : order readFirst with
  | error e =>
    rw [hresult] at hroots
    cases hroots
  | ok ordered =>
    rw [hresult] at hroots
    exact ⟨hnodup, ordered, rfl, Option.some.inj hroots, ((hiff ordered).mp hresult).2,
      hacyclic.mp ⟨ordered, hresult⟩⟩

end FusedKernel

end LazyTensor

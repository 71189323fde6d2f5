import LazyTensor.Proofs.Order
import LazyTensor.Schedule.MemoryPlan
import Mathlib.Algebra.Order.Ring.Nat
import Mathlib.Data.List.Nodup
import Mathlib.Data.List.Pairwise

/-!
# Packing buffers

Buffers are placed one after the other, and each keeps what was placed before it apart: on one host
no two buffers are needed at the same time. A buffer gets storage of its own only if every earlier
host that it fits on is needed while it is.
-/

namespace LazyTensor

namespace Schedule

/-- A buffer is an argument of the item at a step. -/
def Needs (s : Schedule) (step : Nat) (id : BufferId) : Prop :=
  ∃ item, s.items[step]? = some item ∧ id ∈ item.buffers

/-- A buffer of the schedule whose storage is for the schedule to decide. -/
structure Plans (s : Schedule) (m : Memory) (id : BufferId) : Prop where
  not_allocated : m.isAllocated id = false
  not_output : id ∉ s.outputs
  needed : ∃ step, s.Needs step id

theorem plans_iff {s : Schedule} {m : Memory} {id : BufferId} :
    s.Plans m id ↔ ∃ step, s.Needs step id ∧ s.isPlannable m id = true := by
  have hiff : s.isPlannable m id = true ↔ m.isAllocated id = false ∧ id ∉ s.outputs := by
    simp [isPlannable]
  rw [hiff]
  constructor
  · rintro ⟨hfree, hout, step, hstep⟩
    exact ⟨step, hstep, hfree, hout⟩
  · rintro ⟨step, hstep, hfree, hout⟩
    exact ⟨hfree, hout, step, hstep⟩

end Schedule

/-! ### Lifetimes -/

namespace Lifetime

variable {needs : Nat → BufferId → Prop} {live : List Lifetime} {l k : Lifetime} {step : Nat}
  {id : BufferId}

/-- A lifetime reaches from the first step at which its buffer is needed to the last. -/
structure Of (needs : Nat → BufferId → Prop) (l : Lifetime) : Prop where
  first : needs l.first l.buffer
  last : needs l.last l.buffer
  between : ∀ step, needs step l.buffer → l.first ≤ step ∧ step ≤ l.last

/-- Every buffer that is needed has one lifetime in a list. -/
structure Tracks (needs : Nat → BufferId → Prop) (live : List Lifetime) : Prop where
  nodup : (live.map (·.buffer)).Nodup
  of : ∀ l ∈ live, l.Of needs
  complete : ∀ step id, needs step id → ∃ l ∈ live, l.buffer = id

theorem Of.unique (hl : l.Of needs) (hk : k.Of needs) (h : l.buffer = k.buffer) : l = k := by
  obtain ⟨buffer, first, last⟩ := l
  obtain ⟨buffer', first', last'⟩ := k
  obtain rfl : buffer = buffer' := h
  have hfirst := (hl.between first' hk.first).1
  have hfirst' := (hk.between first hl.first).1
  have hlast := (hl.between last' hk.last).2
  have hlast' := (hk.between last hl.last).2
  obtain rfl : first = first' := Nat.le_antisymm hfirst hfirst'
  obtain rfl : last = last' := Nat.le_antisymm hlast' hlast
  rfl

theorem overlaps_comm (k l : Lifetime) : k.overlaps l = l.overlaps k := Bool.and_comm _ _

instance : Std.Symm fun k l : Lifetime => k.overlaps l = false :=
  ⟨fun k l h => (overlaps_comm l k).trans h⟩

theorem overlaps_eq_false_iff : l.overlaps k = false ↔ l.last < k.first ∨ k.last < l.first := by
  rw [overlaps, Bool.and_eq_false_iff, decide_eq_false_iff_not, decide_eq_false_iff_not,
    Nat.not_le, Nat.not_le, or_comm]

theorem buffer_extend :
    (extend step id live).map (·.buffer)
      = if id ∈ live.map (·.buffer) then live.map (·.buffer) else live.map (·.buffer) ++ [id] := by
  induction live with
  | nil => rfl
  | cons l live ih =>
    rw [extend]
    by_cases hid : l.buffer = id
    · rw [if_pos hid, if_pos (by rw [← hid]; exact List.mem_cons_self)]
      rfl
    · rw [if_neg hid, List.map_cons, List.map_cons, ih]
      by_cases hmem : id ∈ live.map (·.buffer)
      · rw [if_pos hmem, if_pos (List.mem_cons_of_mem _ hmem)]
      · rw [if_neg hmem, if_neg fun h => (List.mem_cons.mp h).elim (Ne.symm hid) hmem]
        rfl

theorem mem_extend (hnodup : (live.map (·.buffer)).Nodup) (h : l ∈ extend step id live) :
    l ∈ live ∧ l.buffer ≠ id ∨ (∃ k ∈ live, k.buffer = id ∧ l = { k with last := step }) ∨
      id ∉ live.map (·.buffer) ∧ l = ⟨id, step, step⟩ := by
  induction live with
  | nil => exact .inr (.inr ⟨List.not_mem_nil, List.mem_singleton.mp h⟩)
  | cons k live ih =>
    rw [List.map_cons, List.nodup_cons] at hnodup
    rw [extend] at h
    by_cases hid : k.buffer = id
    · rw [if_pos hid, List.mem_cons] at h
      rcases h with rfl | h
      · exact .inr (.inl ⟨k, List.mem_cons_self, hid, rfl⟩)
      · refine .inl ⟨List.mem_cons_of_mem k h, fun hl => hnodup.1 ?_⟩
        rw [hid, ← hl]
        exact List.mem_map_of_mem h
    · rw [if_neg hid, List.mem_cons] at h
      rcases h with rfl | h
      · exact .inl ⟨List.mem_cons_self, hid⟩
      · rcases ih hnodup.2 h with ⟨hl, hne⟩ | ⟨k', hk', hbuffer, rfl⟩ | ⟨hmem, rfl⟩
        · exact .inl ⟨List.mem_cons_of_mem k hl, hne⟩
        · exact .inr (.inl ⟨k', List.mem_cons_of_mem k hk', hbuffer, rfl⟩)
        · refine .inr (.inr ⟨fun h => ?_, rfl⟩)
          exact (List.mem_cons.mp h).elim (Ne.symm hid) hmem

theorem Tracks.congr (h : Tracks needs live) {needs' : Nat → BufferId → Prop}
    (heq : ∀ step id, needs' step id ↔ needs step id) : Tracks needs' live := by
  obtain rfl : needs' = needs := funext fun step => funext fun id => propext (heq step id)
  exact h

theorem Tracks.extend (h : Tracks needs live) (hlate : ∀ i id, needs i id → i ≤ step)
    (id : BufferId) :
    Tracks (fun i x => needs i x ∨ i = step ∧ x = id) (Lifetime.extend step id live) := by
  constructor
  · rw [buffer_extend]
    split
    · exact h.nodup
    next hmem =>
      refine List.nodup_append.mpr ⟨h.nodup, List.pairwise_singleton _ id, fun x hx y hy heq => hmem ?_⟩
      rw [← List.mem_singleton.mp hy, ← heq]
      exact hx
  · intro l hl
    rcases mem_extend h.nodup hl with ⟨hl, hne⟩ | ⟨k, hk, rfl, rfl⟩ | ⟨hmem, rfl⟩
    · have hof := h.of l hl
      refine ⟨.inl hof.first, .inl hof.last, fun i hi => hof.between i ?_⟩
      exact hi.resolve_right fun hnew => hne hnew.2
    · have hof := h.of k hk
      refine ⟨.inl hof.first, .inr ⟨rfl, rfl⟩, ?_⟩
      rintro i (hi | ⟨rfl, -⟩)
      · exact ⟨(hof.between i hi).1, hlate i _ hi⟩
      · exact ⟨hlate _ _ hof.first, Nat.le_refl _⟩
    · refine ⟨.inr ⟨rfl, rfl⟩, .inr ⟨rfl, rfl⟩, ?_⟩
      rintro i (hi | ⟨rfl, -⟩)
      · obtain ⟨k, hk, hbuffer⟩ := h.complete i id hi
        exact absurd (List.mem_map.mpr ⟨k, hk, hbuffer⟩) hmem
      · exact ⟨Nat.le_refl _, Nat.le_refl _⟩
  · intro i x hx
    have hmem : x ∈ (Lifetime.extend step id live).map (·.buffer) := by
      rw [buffer_extend]
      rcases hx with hold | ⟨-, rfl⟩
      · obtain ⟨l, hl, rfl⟩ := h.complete i x hold
        split
        · exact List.mem_map_of_mem hl
        · exact List.mem_append_left _ (List.mem_map_of_mem hl)
      · split
        next hmem => exact hmem
        next => exact List.mem_append_right _ (List.mem_singleton_self x)
    exact List.mem_map.mp hmem

theorem Tracks.extendAll (h : Tracks needs live) (hlate : ∀ i id, needs i id → i ≤ step)
    (ids : List BufferId) :
    Tracks (fun i x => needs i x ∨ i = step ∧ x ∈ ids) (ids.foldr (Lifetime.extend step) live) := by
  induction ids with
  | nil => exact h.congr fun i x => or_iff_left fun hx => List.not_mem_nil hx.2
  | cons id ids ih =>
    refine (ih.extend (fun i x hx => ?_) id).congr fun i x => ?_
    · exact hx.elim (hlate i x) fun hnew => Nat.le_of_eq hnew.1
    · rw [List.mem_cons, or_assoc, ← and_or_left, or_comm (a := x = id)]

end Lifetime

/-! ### Lifetimes of a schedule -/

namespace Schedule

variable {s : Schedule} {m : Memory}

theorem tracks_foldl {needs : Nat → BufferId → Prop} {live : List Lifetime} (items : List ScheduleItem)
    (start : Nat) (h : Lifetime.Tracks needs live) (hlate : ∀ i id, needs i id → i < start) :
    Lifetime.Tracks
      (fun i x => needs i x ∨ ∃ k item, items[k]? = some item ∧ i = start + k ∧
        x ∈ item.buffers.filter (s.isPlannable m))
      ((items.zipIdx start).foldl (fun live (item, step) =>
        (item.buffers.filter (s.isPlannable m)).foldr (Lifetime.extend step) live) live) := by
  induction items generalizing start needs live with
  | nil =>
    refine h.congr fun i x => or_iff_left ?_
    rintro ⟨k, item, hitem, -⟩
    cases hitem
  | cons item items ih =>
    have hnow := h.extendAll (fun i x hx => Nat.le_of_lt (hlate i x hx))
      (item.buffers.filter (s.isPlannable m))
    refine (ih (start + 1) hnow fun i x hx => ?_).congr fun i x => ?_
    · exact hx.elim (fun hold => Nat.lt_succ_of_lt (hlate i x hold)) fun hnew => by omega
    · rw [or_assoc]
      refine or_congr_right ⟨?_, ?_⟩
      · rintro ⟨k, item', hitem, hi, hx⟩
        cases k with
        | zero =>
          rw [List.getElem?_cons_zero, Option.some.injEq] at hitem
          exact .inl ⟨hi, hitem ▸ hx⟩
        | succ k => exact .inr ⟨k, item', hitem, by omega, hx⟩
      · rintro (⟨hi, hx⟩ | ⟨k, item', hitem, hi, hx⟩)
        · exact ⟨0, item, rfl, hi, hx⟩
        · exact ⟨k + 1, item', hitem, by omega, hx⟩

theorem tracks_lifetimes (s : Schedule) (m : Memory) :
    Lifetime.Tracks (fun step id => s.Needs step id ∧ s.isPlannable m id = true) (s.lifetimes m) := by
  have hempty : Lifetime.Tracks (fun _ _ => False) [] :=
    ⟨List.nodup_nil, nofun, fun _ _ h => h.elim⟩
  refine (tracks_foldl s.items 0 hempty fun _ _ h => h.elim).congr fun step id => ?_
  rw [false_or]
  constructor
  · rintro ⟨⟨item, hitem, hmem⟩, hplannable⟩
    exact ⟨step, item, hitem, (Nat.zero_add step).symm, List.mem_filter.mpr ⟨hmem, hplannable⟩⟩
  · rintro ⟨k, item, hitem, rfl, hmem⟩
    obtain ⟨hmem, hplannable⟩ := List.mem_filter.mp hmem
    exact ⟨⟨item, by rw [Nat.zero_add]; exact hitem, hmem⟩, hplannable⟩

end Schedule

/-! ### Placing -/

namespace Schedule

variable {m : Memory} {l : Lifetime} {hosts hosts' : List Host} {id : BufferId}

theorem settleOn_eq_some (h : settleOn m l hosts = some (id, hosts')) :
    ∃ before host after, hosts = before ++ host :: after ∧ id = host.buffer ∧
      hosts' = before ++ { host with tenants := host.tenants ++ [l] } :: after ∧
      m.fits host.buffer l.buffer = true ∧ ∀ t ∈ host.tenants, t.overlaps l = false := by
  induction hosts generalizing hosts' with
  | nil => cases h
  | cons host rest ih =>
    rw [settleOn] at h
    split at h
    next hroom =>
      cases h
      rw [Bool.and_eq_true, List.all_eq_true] at hroom
      exact ⟨[], host, rest, rfl, rfl, rfl, hroom.1, fun t ht => by simpa using hroom.2 t ht⟩
    next =>
      rw [Option.map_eq_some_iff] at h
      obtain ⟨⟨id', rest'⟩, hrest, heq⟩ := h
      cases heq
      obtain ⟨before, host', after, rfl, hid, rfl, hroom⟩ := ih hrest
      exact ⟨host :: before, host', after, rfl, hid, rfl, hroom⟩

theorem settleOn_eq_none (h : settleOn m l hosts = none) :
    ∀ host ∈ hosts, m.fits host.buffer l.buffer = true → ∃ t ∈ host.tenants, t.overlaps l = true := by
  induction hosts with
  | nil => exact nofun
  | cons host rest ih =>
    rw [settleOn] at h
    split at h
    next => cases h
    next hroom =>
      refine List.forall_mem_cons.mpr ⟨fun hfits => ?_, ih (Option.map_eq_none_iff.mp h)⟩
      by_contra hnone
      refine hroom ?_
      rw [hfits, Bool.true_and, List.all_eq_true]
      intro t ht
      rw [Bool.not_eq_true', Bool.eq_false_iff]
      exact fun hoverlap => hnone ⟨t, ht, hoverlap⟩

end Schedule

def MemoryPlan.home (plan : MemoryPlan) (id : BufferId) : BufferId :=
  (plan.replacements.lookup id).getD id

def MemoryPlan.moved (plan : MemoryPlan) : List BufferId := plan.replacements.map (·.1)

namespace Host

/-- A buffer with a host of its own did not fit beside what was on an earlier one. -/
def Bars (m : Memory) (placed : List Lifetime) (a b : Host) : Prop :=
  m.fits a.buffer b.buffer = true →
    ∃ t ∈ a.tenants, ∃ l ∈ placed, l.buffer = b.buffer ∧ t.overlaps l = true

theorem Bars.grows {m : Memory} {placed : List Lifetime} {a a' b b' : Host} (h : Bars m placed a b)
    (ha : a'.buffer = a.buffer) (htenants : a.tenants ⊆ a'.tenants) (hb : b'.buffer = b.buffer)
    (l : Lifetime) : Bars m (placed ++ [l]) a' b' := by
  intro hfits
  rw [ha, hb] at hfits
  obtain ⟨t, ht, k, hk, hbuffer, hoverlap⟩ := h hfits
  exact ⟨t, htenants ht, k, List.mem_append_left _ hk, hbuffer.trans hb.symm, hoverlap⟩

end Host

/-- How the buffers that have been placed are kept. -/
structure Packed (m : Memory) (placed : List Lifetime) (hosts : List Host) (plan : MemoryPlan) :
    Prop where
  /-- Every buffer is kept on itself or is moved, and not both. -/
  parts : (hosts.map (·.buffer) ++ plan.moved).Perm (placed.map (·.buffer))
  hosted : ∀ l ∈ placed, ∃ host ∈ hosts, l ∈ host.tenants
  tenants : ∀ host ∈ hosts, ∀ l ∈ host.tenants, l ∈ placed ∧
    (l.buffer = host.buffer ∨ (l.buffer, host.buffer) ∈ plan.replacements)
  fits : ∀ id host, (id, host) ∈ plan.replacements →
    host ∈ hosts.map (·.buffer) ∧ m.fits host id = true
  apart : ∀ host ∈ hosts, host.tenants.Pairwise fun a b => a.overlaps b = false
  saved : plan.saved = (plan.moved.map m.byteSize).sum
  order : (hosts.map (·.buffer)).Sublist (placed.map (·.buffer))
  tight : hosts.Pairwise (Host.Bars m placed)

namespace Packed

variable {m : Memory} {placed : List Lifetime} {hosts : List Host} {plan : MemoryPlan} {l : Lifetime}

theorem empty (m : Memory) : Packed m [] [] {} :=
  ⟨.refl _, nofun, nofun, nofun, nofun, rfl, .slnil, .nil⟩

theorem settle {before after : List Host} {host : Host}
    (h : Packed m placed (before ++ host :: after) plan)
    (hfits : m.fits host.buffer l.buffer = true) (hfree : ∀ t ∈ host.tenants, t.overlaps l = false) :
    Packed m (placed ++ [l]) (before ++ { host with tenants := host.tenants ++ [l] } :: after)
      { replacements := plan.replacements ++ [(l.buffer, host.buffer)]
        saved := plan.saved + m.byteSize l.buffer
        reused := plan.reused + 1 } := by
  have hbuffers : (before ++ { host with tenants := host.tenants ++ [l] } :: after).map (·.buffer)
      = (before ++ host :: after).map (·.buffer) := by
    rw [List.map_append, List.map_append]
    rfl
  have hmoved : MemoryPlan.moved
      { replacements := plan.replacements ++ [(l.buffer, host.buffer)]
        saved := plan.saved + m.byteSize l.buffer
        reused := plan.reused + 1 } = plan.moved ++ [l.buffer] := List.map_append
  have hplaced : (placed ++ [l]).map (·.buffer) = placed.map (·.buffer) ++ [l.buffer] :=
    List.map_append
  have htenants := h.tenants
  have happart := h.apart
  have htight := h.tight
  rw [List.forall_mem_append, List.forall_mem_cons] at htenants happart
  rw [List.pairwise_append, List.pairwise_cons] at htight
  obtain ⟨hbefore, ⟨hhost, hafter⟩, hcross⟩ := htight
  have hold : ∀ other : Host, (∀ k ∈ other.tenants, k ∈ placed ∧
      (k.buffer = other.buffer ∨ (k.buffer, other.buffer) ∈ plan.replacements)) →
      ∀ k ∈ other.tenants, k ∈ placed ++ [l] ∧ (k.buffer = other.buffer ∨
        (k.buffer, other.buffer) ∈ plan.replacements ++ [(l.buffer, host.buffer)]) :=
    fun other hother k hk => ⟨List.mem_append_left _ (hother k hk).1,
      (hother k hk).2.imp_right (List.mem_append_left _)⟩
  constructor
  · rw [hbuffers, hmoved, ← List.append_assoc, hplaced]
    exact h.parts.append_right _
  · intro k hk
    rcases List.mem_append.mp hk with hk | hk
    · obtain ⟨other, hother, hmem⟩ := h.hosted k hk
      rcases List.mem_append.mp hother with hother | hother
      · exact ⟨other, List.mem_append_left _ hother, hmem⟩
      · rcases List.mem_cons.mp hother with rfl | hother
        · exact ⟨_, List.mem_append_right _ List.mem_cons_self, List.mem_append_left _ hmem⟩
        · exact ⟨other, List.mem_append_right _ (List.mem_cons_of_mem _ hother), hmem⟩
    · exact ⟨_, List.mem_append_right _ List.mem_cons_self, List.mem_append_right _ hk⟩
  · rw [List.forall_mem_append, List.forall_mem_cons]
    refine ⟨fun other hother => hold other (htenants.1 other hother), fun k hk => ?_,
      fun other hother => hold other (htenants.2.2 other hother)⟩
    rcases List.mem_append.mp hk with hk | hk
    · exact hold host htenants.2.1 k hk
    · obtain rfl := List.mem_singleton.mp hk
      exact ⟨List.mem_append_right _ hk, .inr (List.mem_append_right _ List.mem_cons_self)⟩
  · intro id other hmem
    rw [hbuffers]
    rcases List.mem_append.mp hmem with hmem | hmem
    · exact h.fits id other hmem
    · cases List.mem_singleton.mp hmem
      exact ⟨List.mem_map_of_mem (List.mem_append_right _ List.mem_cons_self), hfits⟩
  · rw [List.forall_mem_append, List.forall_mem_cons]
    refine ⟨happart.1, List.pairwise_append.mpr ⟨happart.2.1, List.pairwise_singleton _ _, ?_⟩,
      happart.2.2⟩
    intro t ht k hk
    rw [List.mem_singleton.mp hk]
    exact hfree t ht
  · rw [hmoved, List.map_append, List.sum_append, ← h.saved]
    rfl
  · rw [hbuffers, hplaced]
    exact h.order.trans (List.sublist_append_left _ _)
  · have hhost' : ∀ b ∈ after,
        Host.Bars m (placed ++ [l]) { host with tenants := host.tenants ++ [l] } b := by
      intro b hb
      apply (hhost b hb).grows
      · rfl
      · exact List.subset_append_left _ _
      · rfl
    rw [List.pairwise_append, List.pairwise_cons]
    refine ⟨hbefore.imp fun hbars => hbars.grows rfl (List.Subset.refl _) rfl l,
      ⟨hhost', hafter.imp fun hbars => hbars.grows rfl (List.Subset.refl _) rfl l⟩, fun a ha => ?_⟩
    have hacross := hcross a ha
    rw [List.forall_mem_cons] at hacross ⊢
    exact ⟨hacross.1.grows rfl (List.Subset.refl _) rfl l,
      fun b hb => (hacross.2 b hb).grows rfl (List.Subset.refl _) rfl l⟩

variable (h : Packed m placed hosts plan)

include h

theorem keep
    (hfull : ∀ host ∈ hosts, m.fits host.buffer l.buffer = true → ∃ t ∈ host.tenants, t.overlaps l =
      true) : Packed m (placed ++ [l]) (hosts ++ [⟨l.buffer, [l]⟩]) plan := by
  have hmem : l ∈ placed ++ [l] := List.mem_append_right _ (List.mem_singleton_self l)
  constructor
  · rw [List.map_append, List.map_append, List.append_assoc]
    refine (List.Perm.append_left _ List.perm_append_comm).trans ?_
    rw [← List.append_assoc]
    exact h.parts.append_right _
  · intro k hk
    rcases List.mem_append.mp hk with hk | hk
    · obtain ⟨host, hhost, hmem⟩ := h.hosted k hk
      exact ⟨host, List.mem_append_left _ hhost, hmem⟩
    · exact ⟨_, List.mem_append_right _ List.mem_cons_self, hk⟩
  · rw [List.forall_mem_append, List.forall_mem_singleton, List.forall_mem_singleton]
    refine ⟨fun host hhost k hk => ?_, hmem, .inl rfl⟩
    exact ⟨List.mem_append_left _ (h.tenants host hhost k hk).1, (h.tenants host hhost k hk).2⟩
  · intro id host hmem
    rw [List.map_append]
    exact ⟨List.mem_append_left _ (h.fits id host hmem).1, (h.fits id host hmem).2⟩
  · rw [List.forall_mem_append, List.forall_mem_singleton]
    exact ⟨h.apart, List.pairwise_singleton _ _⟩
  · exact h.saved
  · rw [List.map_append, List.map_append]
    exact h.order.append (.refl _)
  · refine List.pairwise_append.mpr ⟨h.tight.imp fun hbars =>
      hbars.grows rfl (List.Subset.refl _) rfl l, List.pairwise_singleton _ _, fun a ha b hb hfits => ?_⟩
    obtain rfl := List.mem_singleton.mp hb
    obtain ⟨t, ht, hoverlap⟩ := hfull a ha hfits
    exact ⟨t, ht, l, hmem, rfl, hoverlap⟩

theorem place (l : Lifetime) :
    Packed m (placed ++ [l]) (Schedule.place m (hosts, plan) l).1
      (Schedule.place m (hosts, plan) l).2 := by
  rw [Schedule.place]
  split
  next id hosts' hsettle =>
    obtain ⟨before, host, after, rfl, rfl, rfl, hfits, hfree⟩ := Schedule.settleOn_eq_some hsettle
    exact h.settle hfits hfree
  next hfull => exact h.keep (Schedule.settleOn_eq_none hfull)

theorem placeAll (ls : List Lifetime) :
    Packed m (placed ++ ls) (ls.foldl (Schedule.place m) (hosts, plan)).1
      (ls.foldl (Schedule.place m) (hosts, plan)).2 := by
  induction ls generalizing placed hosts plan with
  | nil =>
    rw [List.append_nil]
    exact h
  | cons l ls ih =>
    have hrest := ih (h.place l)
    rw [List.append_assoc, List.singleton_append] at hrest
    exact hrest

end Packed

/-! ### Plans -/

namespace Memory

variable {m : Memory} {a b : BufferId}

theorem fits_iff : m.fits a b = true ↔ ∃ h k, m.get? b = some k ∧ m.get? a = some h ∧
    h.device = k.device ∧ h.dtype = k.dtype ∧ k.size ≤ h.size := by
  rw [fits]
  cases ha : m.get? a with
  | none => simp
  | some h =>
    cases hb : m.get? b with
    | none => simp
    | some k => simp [and_assoc]

end Memory

theorem lookup_of_mem {l : List (BufferId × BufferId)} {id host : BufferId}
    (hnodup : (l.map (·.1)).Nodup) (h : (id, host) ∈ l) : l.lookup id = some host := by
  induction l with
  | nil => cases h
  | cons x l ih =>
    rw [List.map_cons, List.nodup_cons] at hnodup
    rw [List.lookup_cons]
    rcases List.mem_cons.mp h with rfl | h
    · rw [beq_self_eq_true]
    · have hne : id ≠ x.1 := fun heq => hnodup.1 (heq ▸ List.mem_map.mpr ⟨_, h, rfl⟩)
      rw [beq_false_of_ne hne]
      exact ih hnodup.2 h

namespace Packed

variable {m : Memory} {placed : List Lifetime} {hosts : List Host} {plan : MemoryPlan}
  {l k : Lifetime} {id : BufferId}

section Home

variable (h : Packed m placed hosts plan) (hnodup : (placed.map (·.buffer)).Nodup) {host : Host}
  {a b : BufferId}

include h hnodup

theorem nodup_parts : (hosts.map (·.buffer)).Nodup ∧ plan.moved.Nodup ∧
    ∀ id ∈ hosts.map (·.buffer), id ∉ plan.moved := by
  obtain ⟨hhosts, hmoved, hdisjoint⟩ := List.nodup_append.mp (h.parts.nodup_iff.mpr hnodup)
  exact ⟨hhosts, hmoved, fun id hhost hmem => hdisjoint id hhost id hmem rfl⟩

theorem home_of_mem {host : BufferId} (hmem : (id, host) ∈ plan.replacements) :
    plan.home id = host := by
  rw [MemoryPlan.home, lookup_of_mem (h.nodup_parts hnodup).2.1 hmem, Option.getD_some]

omit h hnodup in
theorem home_of_not_mem (hid : id ∉ plan.moved) : plan.home id = id := by
  have hnone : plan.replacements.lookup id = none := by
    rw [List.lookup_eq_none_iff]
    intro x hx
    rw [bne_iff_ne.mpr]
    rintro rfl
    exact hid (List.mem_map_of_mem hx)
  rw [MemoryPlan.home, hnone, Option.getD_none]

theorem home_of_host (hid : id ∈ hosts.map (·.buffer)) : plan.home id = id :=
  home_of_not_mem ((h.nodup_parts hnodup).2.2 id hid)

theorem home_of_tenant (hhost : host ∈ hosts) (hl : l ∈ host.tenants) :
    plan.home l.buffer = host.buffer := by
  rcases (h.tenants host hhost l hl).2 with hself | hmoved
  · rw [hself]
    exact h.home_of_host hnodup (List.mem_map_of_mem hhost)
  · exact h.home_of_mem hnodup hmoved

theorem host_unique {host' : Host} (hhost : host ∈ hosts) (hhost' : host' ∈ hosts)
    (heq : host.buffer = host'.buffer) : host = host' :=
  List.inj_on_of_nodup_map (h.nodup_parts hnodup).1 hhost hhost' heq

theorem not_overlaps (hl : l ∈ placed) (hk : k ∈ placed) (hne : l.buffer ≠ k.buffer)
    (hhome : plan.home l.buffer = plan.home k.buffer) : l.overlaps k = false := by
  obtain ⟨host, hhost, hlmem⟩ := h.hosted l hl
  obtain ⟨host', hhost', hkmem⟩ := h.hosted k hk
  have hsame : host.buffer = host'.buffer := by
    rw [← h.home_of_tenant hnodup hhost hlmem, hhome, h.home_of_tenant hnodup hhost' hkmem]
  obtain rfl := h.host_unique hnodup hhost hhost' hsame
  exact (h.apart host hhost).forall hlmem hkmem fun heq => hne (heq ▸ rfl)

theorem mem_placed_of_home (hne : a ≠ b) (hhome : plan.home a = plan.home b) :
    a ∈ placed.map (·.buffer) := by
  refine h.parts.mem_iff.mp ?_
  by_cases ha : a ∈ plan.moved
  · exact List.mem_append_right _ ha
  · rw [home_of_not_mem ha] at hhome
    have hb : b ∈ plan.moved := by
      by_contra hb
      exact hne (hhome.trans (home_of_not_mem hb))
    obtain ⟨⟨id, host⟩, hmem, rfl⟩ := List.mem_map.mp hb
    rw [h.home_of_mem hnodup hmem] at hhome
    exact List.mem_append_left _ (hhome ▸ (h.fits id host hmem).1)

end Home

end Packed

namespace Schedule

variable {s : Schedule} {m : Memory} {l : Lifetime}

theorem of_mem_lifetimes (hl : l ∈ s.lifetimes m) : l.Of s.Needs := by
  obtain ⟨hfirst, hlast, hbetween⟩ := (s.tracks_lifetimes m).of l hl
  exact ⟨hfirst.1, hlast.1, fun step hstep => hbetween step ⟨hstep, hfirst.2⟩⟩

theorem exists_packed (s : Schedule) (m : Memory) : ∃ placed hosts,
    Packed m placed hosts (s.planMemory m) ∧
      placed.Pairwise (fun a b => m.byteSize b.buffer ≤ m.byteSize a.buffer) ∧
      (placed.map (·.buffer)).Nodup ∧ (∀ l ∈ placed, l.Of s.Needs) ∧
      ∀ id, s.Plans m id ↔ id ∈ placed.map (·.buffer) := by
  have htracks := s.tracks_lifetimes m
  have hperm := sortBy_perm (placedBefore m) (s.lifetimes m)
  refine ⟨sortBy (placedBefore m) (s.lifetimes m), _, (Packed.empty m).placeAll _, ?_,
    (hperm.map _).nodup_iff.mpr htracks.nodup, fun l hl => ?_, fun id => ?_⟩
  · refine sortBy_pairwise ?_ ?_ ?_ _
    · intro a b h
      simp only [placedBefore, Bool.or_eq_true, decide_eq_true_eq, Bool.and_eq_true, beq_iff_eq] at h
      exact h.elim Nat.le_of_lt fun hsame => Nat.le_of_eq hsame.1.symm
    · intro a b h
      simp only [placedBefore, Bool.or_eq_false_iff, decide_eq_false_iff_not] at h
      exact Nat.le_of_not_lt h.1
    · exact fun a b c hab hbc => Nat.le_trans hbc hab
  · exact of_mem_lifetimes (hperm.mem_iff.mp hl)
  · rw [plans_iff, (hperm.map _).mem_iff, List.mem_map]
    constructor
    · rintro ⟨step, hstep⟩
      exact htracks.complete step id hstep
    · rintro ⟨l, hl, rfl⟩
      exact ⟨l.first, (htracks.of l hl).first⟩

theorem plans_of_mem_replacements {id host : BufferId}
    (hmem : (id, host) ∈ (s.planMemory m).replacements) :
    s.Plans m id ∧ s.Plans m host ∧ host ∉ (s.planMemory m).moved ∧ m.fits host id = true := by
  obtain ⟨placed, hosts, hpacked, -, hnodup, -, hplans⟩ := s.exists_packed m
  obtain ⟨hhost, hfits⟩ := hpacked.fits id host hmem
  have hid : id ∈ (s.planMemory m).moved := List.mem_map.mpr ⟨_, hmem, rfl⟩
  refine ⟨?_, ?_, (hpacked.nodup_parts hnodup).2.2 host hhost, hfits⟩
  · exact (hplans id).mpr (hpacked.parts.mem_iff.mp (List.mem_append_right _ hid))
  · exact (hplans host).mpr (hpacked.parts.mem_iff.mp (List.mem_append_left _ hhost))

theorem apart_of_home_eq {k : Lifetime} (hk : k.Of s.Needs) (hl : l.Of s.Needs)
    (hne : k.buffer ≠ l.buffer)
    (hhome : (s.planMemory m).home k.buffer = (s.planMemory m).home l.buffer) :
    k.last < l.first ∨ l.last < k.first := by
  obtain ⟨placed, hosts, hpacked, -, hnodup, hof, -⟩ := s.exists_packed m
  have hmem : ∀ j : Lifetime, j.Of s.Needs → j.buffer ∈ placed.map (·.buffer) → j ∈ placed := by
    intro j hj hbuffer
    obtain ⟨i, hi, heq⟩ := List.mem_map.mp hbuffer
    exact (hof i hi).unique hj heq ▸ hi
  have hk' := hmem k hk (hpacked.mem_placed_of_home hnodup hne hhome)
  have hl' := hmem l hl (hpacked.mem_placed_of_home hnodup hne.symm hhome.symm)
  exact Lifetime.overlaps_eq_false_iff.mp (hpacked.not_overlaps hnodup hk' hl' hne hhome)

end Schedule

/-! ### A chain of three -/

section Chain

/-- The item of a step that computes one buffer from another. -/
def chainItem (output input : BufferId) : ScheduleItem := ⟨output, {}, output, [input], []⟩

/-- Four steps in a row; what the first and the third compute is never needed at the same time. -/
def chain : Schedule where
  items := [chainItem 1 0, chainItem 2 1, chainItem 3 2, chainItem 4 3]
  outputs := [4]

def chainMemory : Memory where
  buffers := #[Buffer.ofValues .int32 [.int 7], ⟨.cpu, .scalar .int32, 6, none⟩,
    ⟨.cpu, .scalar .int32, 4, none⟩, ⟨.cpu, .scalar .int32, 5, none⟩, ⟨.cpu, .scalar .int32, 1, none⟩]

end Chain

end LazyTensor

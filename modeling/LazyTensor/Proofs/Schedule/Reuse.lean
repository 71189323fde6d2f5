import LazyTensor.Proofs.Schedule.Packing
import Mathlib.Logic.Function.Basic

/-!
# Reusing storage

A schedule whose buffers have been packed computes what it computed before. The two runs go side by
side: while a buffer is still needed, the buffer that it is kept on begins with what it holds.
-/

namespace LazyTensor

def Memory.extent (m : Memory) (id : BufferId) : Nat := ((m.get? id).map (·.size)).getD 0

abbrev Contents (α : Type) := BufferId → List α

/-- What is held after new elements have been written from the start on. -/
def overwrite {α : Type} (new old : List α) : List α := new ++ old.drop new.length

theorem take_overwrite {α : Type} (new old : List α) : (overwrite new old).take new.length = new := by
  rw [overwrite, List.take_left]

namespace Schedule

/-- The items as functions: each one reads the elements of its inputs and determines all elements of
its output. -/
structure Interpretation (s : Schedule) (m : Memory) (α : Type) where
  /-- What the item at a step computes from what its inputs hold. -/
  value : Nat → List (List α) → List α
  reads : ∀ {step item}, s.items[step]? = some item → ∀ c c' : Contents α,
    (∀ id ∈ item.inputs, (c id).take (m.extent id) = (c' id).take (m.extent id)) →
      value step (item.inputs.map c) = value step (item.inputs.map c')
  writes : ∀ {step item}, s.items[step]? = some item → ∀ inputs,
    (value step inputs).length = m.extent item.output

/-- Carries out items one after the other, from a step on. -/
def execute {α : Type} (value : Nat → List (List α) → List α) :
    Nat → List ScheduleItem → Contents α → Contents α
  | _, [], c => c
  | step, item :: rest, c =>
    execute value (step + 1) rest
      (Function.update c item.output (overwrite (value step (item.inputs.map c)) (c item.output)))

/-- A buffer is the output of one item only, the first that needs it, and not an input of it. -/
def WrittenFirst (s : Schedule) (id : BufferId) : Prop :=
  ∃ step item, s.items[step]? = some item ∧ item.output = id ∧ id ∉ item.inputs ∧
    (∀ i, s.Needs i id → step ≤ i) ∧
    ∀ i other, s.items[i]? = some other → other.output = id → i = step

variable {s : Schedule} {m : Memory} {α : Type} {id : BufferId}

/-! ### Homes -/

theorem home_of_not_plans (hid : ¬ s.Plans m id) : (s.planMemory m).home id = id := by
  refine Packed.home_of_not_mem fun hmem => hid ?_
  obtain ⟨⟨id, host⟩, hreplace, rfl⟩ := List.mem_map.mp hmem
  exact (plans_of_mem_replacements hreplace).1

theorem plans_home (hid : s.Plans m id) : s.Plans m ((s.planMemory m).home id) := by
  rw [MemoryPlan.home]
  cases hlookup : (s.planMemory m).replacements.lookup id with
  | none => exact hid
  | some host =>
    exact (plans_of_mem_replacements (mem_of_lookup hlookup)).2.1

theorem Plans.exists_lifetime (hid : s.Plans m id) :
    ∃ l : Lifetime, l.Of s.Needs ∧ l.buffer = id := by
  obtain ⟨step, hstep⟩ := plans_iff.mp hid
  obtain ⟨l, hl, hbuffer⟩ := (s.tracks_lifetimes m).complete step id hstep
  exact ⟨l, of_mem_lifetimes hl, hbuffer⟩

theorem items_replaceBuffers (s : Schedule) (plan : MemoryPlan) :
    (s.replaceBuffers plan).items = s.items.map fun item =>
      { item with output := plan.home item.output, inputs := item.inputs.map plan.home } := rfl

theorem WrittenFirst.at_first {l : Lifetime} (hof : l.Of s.Needs) (h : s.WrittenFirst l.buffer) :
    ∃ item, s.items[l.first]? = some item ∧ item.output = l.buffer ∧ l.buffer ∉ item.inputs ∧
      ∀ i other, s.items[i]? = some other → other.output = l.buffer → i = l.first := by
  obtain ⟨step, item, hitem, houtput, hinputs, hleast, honly⟩ := h
  have hneeds : s.Needs step l.buffer := ⟨item, hitem, houtput ▸ List.mem_cons_self⟩
  obtain rfl : step = l.first :=
    Nat.le_antisymm (hleast l.first hof.first) (hof.between step hneeds).1
  exact ⟨item, hitem, houtput, hinputs, honly⟩

/-! ### Two runs side by side -/

/-- What the run over the packed buffers holds, in terms of the other run. -/
structure Alongside (s : Schedule) (m : Memory) (step : Nat) (c c' : Contents α) : Prop where
  fixed : ∀ id, ¬ s.Plans m id → c' id = c id
  kept : ∀ l : Lifetime, l.Of s.Needs → s.Plans m l.buffer → l.first < step → step ≤ l.last →
    (c' ((s.planMemory m).home l.buffer)).take (m.extent l.buffer)
      = (c l.buffer).take (m.extent l.buffer)

section Step

variable {k : Nat} {item : ScheduleItem} {c c' : Contents α} (h : Alongside s m k c c')
  (hfirst : ∀ id, s.Plans m id → s.WrittenFirst id) (hitem : s.items[k]? = some item) {l : Lifetime}

include hfirst hitem

theorem first_lt_of_ne_output (hof : l.Of s.Needs) (hplans : s.Plans m l.buffer)
    (hle : l.first ≤ k) (hne : l.buffer ≠ item.output) : l.first < k := by
  obtain ⟨item', hitem', houtput, -⟩ := (hfirst _ hplans).at_first hof
  refine Nat.lt_of_le_of_ne hle fun heq => hne ?_
  rw [heq, hitem, Option.some.injEq] at hitem'
  rw [← houtput, hitem']

theorem home_ne_home_output (hof : l.Of s.Needs) (hplans : s.Plans m l.buffer) (hlt : l.first < k)
    (hlater : k < l.last) : (s.planMemory m).home l.buffer ≠ (s.planMemory m).home item.output := by
  intro hhome
  by_cases hout : s.Plans m item.output
  · obtain ⟨o, ho, hobuffer⟩ := hout.exists_lifetime
    obtain ⟨-, -, -, -, honly⟩ := (hfirst _ (hobuffer ▸ hout)).at_first ho
    have hofirst : k = o.first := honly k item hitem hobuffer.symm
    have holast := (ho.between o.first ho.first).2
    have hne : l.buffer ≠ o.buffer := by
      intro heq
      have hsame := hof.unique ho heq
      rw [hsame] at hlt
      omega
    rcases apart_of_home_eq hof ho hne (by rw [hhome, hobuffer]) with hapart | hapart
    · omega
    · omega
  · rw [home_of_not_plans hout] at hhome
    exact hout (hhome ▸ plans_home hplans)

include h

theorem Alongside.value_eq (f : s.Interpretation m α) :
    f.value k ((item.inputs.map (s.planMemory m).home).map c') = f.value k (item.inputs.map c) := by
  rw [List.map_map]
  refine f.reads hitem _ c fun id hid => ?_
  rw [Function.comp_apply]
  by_cases hplans : s.Plans m id
  · obtain ⟨l, hof, rfl⟩ := hplans.exists_lifetime
    obtain ⟨item', hitem', -, hinputs, -⟩ := (hfirst _ hplans).at_first hof
    have hneeds : s.Needs k l.buffer := ⟨item, hitem, List.mem_cons_of_mem _ hid⟩
    obtain ⟨hle, hlater⟩ := hof.between k hneeds
    refine h.kept l hof hplans (Nat.lt_of_le_of_ne hle fun heq => hinputs ?_) hlater
    rw [heq, hitem, Option.some.injEq] at hitem'
    exact hitem' ▸ hid
  · rw [home_of_not_plans hplans, h.fixed id hplans]

theorem Alongside.step (f : s.Interpretation m α) :
    Alongside s m (k + 1)
      (Function.update c item.output (overwrite (f.value k (item.inputs.map c)) (c item.output)))
      (Function.update c' ((s.planMemory m).home item.output)
        (overwrite (f.value k ((item.inputs.map (s.planMemory m).home).map c'))
          (c' ((s.planMemory m).home item.output)))) := by
  rw [h.value_eq hfirst hitem f]
  constructor
  · intro id hid
    by_cases hout : s.Plans m item.output
    · have hne : id ≠ item.output := fun heq => hid (heq ▸ hout)
      have hne' : id ≠ (s.planMemory m).home item.output := fun heq => hid (heq ▸ plans_home hout)
      rw [Function.update_of_ne hne, Function.update_of_ne hne', h.fixed id hid]
    · rw [home_of_not_plans hout, h.fixed _ hout]
      by_cases heq : id = item.output
      · rw [heq, Function.update_self, Function.update_self]
      · rw [Function.update_of_ne heq, Function.update_of_ne heq, h.fixed id hid]
  · intro l hof hplans hlt hlater
    by_cases heq : l.buffer = item.output
    · have htake := take_overwrite (f.value k (item.inputs.map c))
      rw [f.writes hitem] at htake
      rw [heq, Function.update_self, Function.update_self, htake, htake]
    · have hbefore := first_lt_of_ne_output hfirst hitem hof hplans (Nat.le_of_lt_succ hlt) heq
      have hhome := home_ne_home_output hfirst hitem hof hplans hbefore hlater
      rw [Function.update_of_ne heq, Function.update_of_ne hhome]
      exact h.kept l hof hplans hbefore (Nat.le_of_succ_le hlater)

end Step

theorem Alongside.execute (f : s.Interpretation m α)
    (hfirst : ∀ id, s.Plans m id → s.WrittenFirst id) {items done : List ScheduleItem}
    (hitems : s.items = done ++ items) {c c' : Contents α} (h : Alongside s m done.length c c') :
    Alongside s m s.items.length (Schedule.execute f.value done.length items c)
      (Schedule.execute f.value done.length (items.map fun item =>
        { item with output := (s.planMemory m).home item.output,
                    inputs := item.inputs.map (s.planMemory m).home }) c') := by
  induction items generalizing done c c' with
  | nil =>
    rw [hitems, List.append_nil]
    exact h
  | cons item items ih =>
    have hitem : s.items[done.length]? = some item := by
      rw [hitems, List.getElem?_append_right (Nat.le_refl _), Nat.sub_self]
      rfl
    have hdone : (done ++ [item]).length = done.length + 1 := List.length_append
    have hnext := h.step hfirst hitem f
    rw [← hdone] at hnext
    have hrest := ih (by rw [hitems, List.append_assoc, List.singleton_append]) hnext
    rw [hdone] at hrest
    exact hrest

/-- Reusing storage does not change what a schedule computes. If every buffer that may share storage
is written by one item only, the first that needs it, then after the items have been carried out on
the buffers of the memory plan, all other buffers hold what they hold after the items of the schedule
itself, whatever the items compute. -/
theorem execute_replaceBuffers (s : Schedule) (m : Memory)
    (hfirst : ∀ id, s.Plans m id → s.WrittenFirst id) (f : s.Interpretation m α) (c : Contents α)
    (id : BufferId) (hid : ¬ s.Plans m id) :
    execute f.value 0 (s.replaceBuffers (s.planMemory m)).items c id = execute f.value 0 s.items c id := by
  have hstart : Alongside s m 0 c c :=
    ⟨fun _ _ => rfl, nofun⟩
  rw [items_replaceBuffers]
  exact (hstart.execute f hfirst (List.nil_append s.items).symm).fixed id hid

end Schedule

/-! ### Sums along a chain -/

section Chain

theorem chain_getElem? {step : Nat} {item : ScheduleItem} :
    chain.items[step]? = some item ↔ step < 4 ∧ item = chainItem (step + 1) step := by
  rcases step with _ | _ | _ | _ | step
  · simp [chain, eq_comm]
  · simp [chain, eq_comm]
  · simp [chain, eq_comm]
  · simp [chain, eq_comm]
  · have hnot : ¬ step + 4 < 4 := by omega
    simp [chain, hnot]

theorem chain_needs {step id : Nat} :
    chain.Needs step id ↔ step < 4 ∧ (id = step + 1 ∨ id = step) := by
  rw [Schedule.Needs]
  constructor
  · rintro ⟨item, hitem, hmem⟩
    obtain ⟨hlt, rfl⟩ := chain_getElem?.mp hitem
    simpa [chainItem, ScheduleItem.buffers, hlt] using hmem
  · rintro ⟨hlt, hid⟩
    exact ⟨_, chain_getElem?.mpr ⟨hlt, rfl⟩, by simpa [chainItem, ScheduleItem.buffers] using hid⟩

theorem chain_writtenFirst (id : Nat) (h : chain.Plans chainMemory id) :
    chain.WrittenFirst id := by
  obtain ⟨step, hstep⟩ := h.needed
  have hnot : id ≠ 0 := by
    rintro rfl
    exact absurd h.not_allocated (by decide)
  obtain ⟨k, rfl⟩ := Nat.exists_eq_succ_of_ne_zero hnot
  rw [chain_needs] at hstep
  refine ⟨k, chainItem (k + 1) k, chain_getElem?.mpr ⟨?_, rfl⟩, rfl, ?_, fun i hi => ?_,
    fun i other hother houtput => ?_⟩
  · have hout : k + 1 ≠ 4 := fun heq => h.not_output (List.mem_singleton.mpr heq)
    omega
  · simp [chainItem]
  · rw [chain_needs] at hi
    omega
  · obtain ⟨-, rfl⟩ := chain_getElem?.mp hother
    exact Nat.succ.inj houtput

/-- Every step counts on from the sum of what it reads. -/
def chainSums : chain.Interpretation chainMemory Nat where
  value step inputs := (List.range (chainMemory.extent (step + 1))).map
    (((inputs.headD []).take (chainMemory.extent step)).sum + ·)
  reads {step item} hitem c c' hc := by
    obtain ⟨-, rfl⟩ := chain_getElem?.mp hitem
    have hread := hc step (List.mem_singleton_self step)
    simp only [chainItem, List.map_cons, List.headD_cons, hread]
  writes {step item} hitem inputs := by
    obtain ⟨-, rfl⟩ := chain_getElem?.mp hitem
    rw [List.length_map, List.length_range]
    rfl

/-- The third step overwrites what the first has computed, and the last one computes the same. -/
theorem Schedule.execute_replaceBuffers_chain :
    (∀ id, chain.Plans chainMemory id → chain.WrittenFirst id) ∧ ¬ chain.Plans chainMemory 4 ∧
      (chain.planMemory chainMemory).home 3 = 1 ∧
      Schedule.execute chainSums.value 0
        (chain.replaceBuffers (chain.planMemory chainMemory)).items (fun _ => [7]) 4 = [1180] := by
  have hout : ¬ chain.Plans chainMemory 4 := fun h => h.not_output List.mem_cons_self
  refine ⟨chain_writtenFirst, hout, by decide +kernel, ?_⟩
  rw [Schedule.execute_replaceBuffers chain chainMemory chain_writtenFirst chainSums _ 4 hout]
  decide +kernel

end Chain

end LazyTensor

import LazyTensor.Proofs.Graph.Twin
import LazyTensor.Proofs.Order
import LazyTensor.Proofs.Simplify.Uniform

/-!
# What a step of simplification does to a graph

A step adds nodes and finds one to go on with, or it overwrites a loop and goes on with that loop.
Either way the graph stays sound, so every run leaves a sound graph.
-/

namespace LazyTensor

open LazyTensor.Graph

/-! ### Hoisting -/

namespace Rule

variable {g g' : Graph} {r : Ref} {rs rs' : Readers} {C : Correspondence}

/-- Readers that are nodes of a graph. -/
def ReadersIn (n : Nat) (rs : Readers) : Prop := ∀ x ∈ rs, x.1 < n ∧ ∀ y ∈ x.2, y < n

theorem ReadersIn.mono {n m : Nat} (h : ReadersIn n rs) (hnm : n ≤ m) : ReadersIn m rs :=
  fun x hx => ⟨Nat.lt_of_lt_of_le (h x hx).1 hnm,
    fun y hy => Nat.lt_of_lt_of_le ((h x hx).2 y hy) hnm⟩

theorem ReadersIn.rel (h : ReadersIn g.size rs) : ReadersRel .nodes g g rs rs :=
  List.forall₂_same.mpr fun x hx =>
    ⟨⟨rfl, (h x hx).1⟩, List.forall₂_same.mpr fun y hy => ⟨rfl, (h x hx).2 y hy⟩⟩

theorem ReadersRel.left_in (hrs : ReadersRel C g g' rs rs') (hC : C.Over g g') :
    ReadersIn g.size rs :=
  forall_left hrs fun _ _ hxy =>
    ⟨(C.lt_size hC hxy.1).1, forall_left hxy.2 fun _ _ hab => (C.lt_size hC hab).1⟩

theorem ReadersRel.right_in (hrs : ReadersRel C g g' rs rs') (hC : C.Over g g') :
    ReadersIn g'.size rs' :=
  forall_right hrs fun _ _ hxy =>
    ⟨(C.lt_size hC hxy.1).2, forall_right hxy.2 fun _ _ hab => (C.lt_size hC hab).2⟩

theorem counterSum?_eq_some {x y : Ref} (h : counterSum? g r = some (x, y)) :
    (∃ a b, g.op r = .binary .add a b) ∧ x ∈ (g.op r).sources ∧ y ∈ (g.op r).sources := by
  rw [counterSum?] at h
  split at h
  case h_1 a b hop =>
    refine ⟨⟨a, b, hop⟩, ?_⟩
    rw [hop]
    split_ifs at h <;> (obtain ⟨rfl, rfl⟩ := Prod.mk.inj (Option.some.inj h)) <;> simp [Op.sources]
  case h_2 => cases h

/-- A planned shift is of a loop that the sum reads, by an offset without loops. -/
structure Planned (g : Graph) (r : Ref) (s : Shift) (g' : Graph) : Prop where
  sum : (g.op r).kind = .binary
  exists_offset : ∃ start stop offset, g.op s.range = .loop start stop s.axis ∧
    s.range ∈ (g.op r).sources ∧ offset ∈ (g.op r).sources ∧
    (∀ n ∈ g.order offset, (g.op n).isLoop = false) ∧
    g'.op s.start = .binary .add (g.resolve start) (g.resolve offset) ∧
    g'.op s.stop = .binary .add (g.resolve stop) (g.resolve offset)

theorem planShift_planned (rs : Readers) (hg : g.Sound) (hr : r < g.size) :
    Attempt.Ensures (planShift rs r) g (Planned g r) := by
  have hwf := hg.wellFormed
  refine Attempt.ensures_get (Attempt.ensures_ofOption hwf fun p hp => ?_)
  obtain ⟨x, offset⟩ := p
  obtain ⟨⟨a, b, hop⟩, hx, hoffset⟩ := counterSum?_eq_some hp
  simp only
  split
  case h_2 => exact Attempt.ensures_failure hwf
  case h_1 start stop axis hloop =>
    split_ifs with hloops hdirect hdirect
    · exact Attempt.ensures_failure hwf
    · exact Attempt.ensures_failure hwf
    · exact Attempt.ensures_failure hwf
    have hxlt := hg.source_lt hr hx
    have hstop : stop < g.size := hg.source_lt hxlt (by simp [hloop, Op.sources])
    have hofflt := hg.source_lt hr hoffset
    refine (Attempt.ensures_toAttempt (Build.ensures_binary hwf .add start offset)).bind ?_
    rintro s g₁ hgrows ⟨-, -, hs⟩
    refine (Attempt.ensures_toAttempt
      (Build.ensures_binary hgrows.wellFormed .add stop offset)).bind ?_
    rintro e g₂ hgrows' ⟨-, -, he⟩
    have hs' := hgrows'.holds hs
    refine Attempt.ensures_pure hgrows'.wellFormed ⟨by rw [hop]; rfl, start, stop, offset, hloop, hx,
      hoffset, ?_, ?_, ?_⟩
    · intro n hn
      simp only [not_or, Bool.not_eq_true, List.any_eq_false] at hloops
      simpa using hloops.2 n hn
    · rw [op, hs'.get_eq]
      rfl
    · rw [op, he.get_eq]
      simp only [resolved, Op.mapSources, hgrows.resolve_eq hwf hstop,
        hgrows.resolve_eq hwf hofflt]

theorem Planned.sound {s : Shift} (h : Planned g r s g') (hg : g.Sound) (hg' : g'.Sound)
    (hgrows : g.Grows g') (hr : r < g.size) (hstart : s.start < g'.size) (hstop : s.stop < g'.size) :
    (g'.replace s.range s.instr).Sound := by
  obtain ⟨start, stop, offset, hloop, hrange, hoffset, hfree, hs, he⟩ := h.exists_offset
  have hwf := hg.wellFormed
  have hlt := hg.source_lt hr hrange
  have hofflt := hg.source_lt hr hoffset
  have hlt' := Nat.lt_of_lt_of_le hlt hgrows.size_le
  have hresolve : g'.resolve s.range = g.resolve s.range := hgrows.resolve_eq hwf hlt
  have hloop' : g'.op (g'.resolve s.range) = .loop start stop s.axis := by
    rw [op, get_resolve hg'.wellFormed, hgrows.get_eq hwf hlt, ← op, hloop]
  have hsources : ∀ x ∈ [start, stop], x < g.size ∧ g.resolve x ∈ g'.sources (g'.resolve s.range) := by
    intro x hx
    have hmem : x ∈ (g.op s.range).sources := by rw [hloop]; exact hx
    refine ⟨hg.source_lt hlt hmem, ?_⟩
    rw [hg'.wellFormed.sources_resolve, hgrows.sources_eq hg hlt]
    exact List.mem_map_of_mem hmem
  -- The new bounds add the offset to the old ones, and neither leads to the loop.
  have hbound : ∀ x ∈ [start, stop], ∀ y, y < g'.size →
      g'.op y = .binary .add (g.resolve x) (g.resolve offset) →
      ¬Walk.Reaches g'.sources (g'.resolve y) (g'.resolve s.range) := by
    intro x hx y hy hop hreach
    obtain ⟨hxlt, hxmem⟩ := hsources x hx
    rcases hreach.cases_head with heq | ⟨z, hz, hreach⟩
    · rw [← heq, op, get_resolve hg'.wellFormed, ← op, hop] at hloop'
      cases hloop'
    · rw [hg'.wellFormed.sources_resolve, sources, hop] at hz
      simp only [Op.sources, List.map_cons, List.map_nil, List.mem_cons, List.not_mem_nil,
        or_false] at hz
      rw [hgrows.resolve_eq hwf (hwf.resolve_lt hxlt), hwf.resolve_resolve,
        hgrows.resolve_eq hwf (hwf.resolve_lt hofflt), hwf.resolve_resolve] at hz
      rcases hz with rfl | rfl
      · exact (hg'.founded (hg'.wellFormed.resolve_lt hlt')).not_reaches hxmem hreach
      · rw [← hgrows.resolve_eq hwf hofflt, hresolve] at hreach
        have hmem := hg'.mem_order_of_reaches (Nat.lt_of_lt_of_le hofflt hgrows.size_le) hreach
        rw [hgrows.order_eq hg hofflt] at hmem
        have hisloop := hfree _ hmem
        rw [op, get_resolve hwf, ← op, hloop] at hisloop
        cases hisloop
  refine hg'.replace hlt' ?_ ?_
  · simp only [Shift.instr, Op.sources, List.forall_mem_cons]
    exact ⟨hstart, hstop, by simp⟩
  · simp only [Shift.instr, Op.sources, List.forall_mem_cons]
    exact ⟨hbound start (by simp) _ hstart hs, hbound stop (by simp) _ hstop he, by simp⟩

/-- What hoisting does: nothing but add nodes, or overwrite a loop and go on with it. -/
theorem hoistOffset_cases (hg : g.Sound) (hr : r < g.size) (hrs : ReadersIn g.size rs) :
    ((hoistOffset rs r).run.run g).2.Sound ∧ g.size ≤ ((hoistOffset rs r).run.run g).2.size ∧
      (((hoistOffset rs r).run.run g).1 = none ∧ ((planShift rs r).run.run g).1 = none ∧
        ((hoistOffset rs r).run.run g).2 = ((planShift rs r).run.run g).2 ∨
      ((planShift rs r).run.run g).1.isSome ∧ ∃ x, ((hoistOffset rs r).run.run g).1 = some x ∧
        x < ((hoistOffset rs r).run.run g).2.size ∧
        (((hoistOffset rs r).run.run g).2.op x).isLoop = true ∧
        (((hoistOffset rs r).run.run g).2.op r).kind = .binary) := by
  obtain ⟨hleads, hrel⟩ := agree_planShift (C := .nodes) ⟨rfl, hg⟩ hrs.rel ⟨rfl, hr⟩
  have hplanned := (planShift_planned rs hg hr).2
  have hgrows := hleads.left
  have hsound := hleads.after.2
  rw [hoistOffset_eq, Attempt.run_bind]
  generalize hrun : (planShift rs r).run.run g = run at *
  obtain ⟨_ | s, g'⟩ := run
  · exact ⟨hsound, hgrows.size_le, .inl ⟨rfl, rfl, rfl⟩⟩
  · obtain ⟨hshift⟩ := hrel
    have hplan := hplanned s rfl
    have hstart : s.start < g'.size := hshift.start.2
    have hrange : s.range < g'.size := hshift.range.2
    have hget := replace_get (n := s.instr) hsound.wellFormed hrange
    obtain ⟨start, stop, offset, hloop, hmem, -⟩ := hplan.exists_offset
    have hlt := hg.source_lt hr hmem
    have hne : g'.resolve r ≠ g'.resolve s.range := by
      intro heq
      have hkind := hplan.sum
      rw [hgrows.resolve_eq hg.wellFormed hr, hgrows.resolve_eq hg.wellFormed hlt] at heq
      rw [op, ← get_resolve hg.wellFormed r, heq, get_resolve hg.wellFormed, ← op, hloop] at hkind
      cases hkind
    refine ⟨hplan.sound hg hsound hgrows hr hstart hshift.stop.2, ?_, .inr ⟨rfl, s.range, rfl, ?_, ?_,
      ?_⟩⟩
    · change g.size ≤ (g'.replace s.range s.instr).size
      rw [replace_size]
      exact hgrows.size_le
    · change s.range < (g'.replace s.range s.instr).size
      rwa [replace_size]
    · change ((g'.replace s.range s.instr).op s.range).isLoop = true
      rw [op, hget, if_pos rfl]
      rfl
    · change ((g'.replace s.range s.instr).op r).kind = .binary
      rw [op, hget, if_neg hne, hgrows.get_eq hg.wellFormed hr]
      exact hplan.sum

end Rule

namespace RuleTable

variable {C : Correspondence} {g h g' : Graph} {r r' : Ref} {rs rs' : Readers} {rules : List Rule}

/-! ### Steps -/

theorem run_firstMatch_cons (rs : Readers) (r : Ref) (rule : Rule) (rest : List Rule) (g : Graph) :
    (firstMatch rs r (rule :: rest)).run g =
      match (rule.apply rs r).run.run g with
      | (none, g') => (firstMatch rs r rest).run g'
      | (some next, g') =>
        if g'.resolve next = r then (firstMatch rs r rest).run g'
        else (some (rule.name, g'.resolve next), g') := by
  rw [firstMatch, GraphM.run_bind]
  obtain ⟨_ | next, g'⟩ := (rule.apply rs r).run.run g
  · rfl
  · simp only [GraphM.run_get_bind]
    by_cases hnext : g'.resolve next = r
    · simp only [if_pos hnext]
    · simp only [if_neg hnext]
      rfl

theorem run_firstMatch_append (rs : Readers) (r : Ref) (xs ys : List Rule) (g : Graph) :
    (firstMatch rs r (xs ++ ys)).run g =
      match (firstMatch rs r xs).run g with
      | (none, g') => (firstMatch rs r ys).run g'
      | (some x, g') => (some x, g') := by
  induction xs generalizing g with
  | nil => rfl
  | cons rule xs ih =>
    rw [List.cons_append, run_firstMatch_cons, run_firstMatch_cons]
    obtain ⟨_ | next, g'⟩ := (rule.apply rs r).run.run g
    · exact ih g'
    · by_cases hnext : g'.resolve next = r
      · simp only [if_pos hnext]
        exact ih g'
      · simp only [if_neg hnext]

theorem agree_firstMatch (rs rs' : Readers) (hrules : ∀ rule ∈ rules, ∃ apply, (rule.apply = fun _ => apply) ∧
      Rule.Uniform apply) (hC : C.Over g h) (hr : C.Rel g h r r') :
    Attempt.Agree C (OptionT.mk (firstMatch rs r rules)) (OptionT.mk (firstMatch rs' r' rules)) g h
      fun x y g h => x.1 = y.1 ∧ C.Rel g h x.2 y.2 := by
  induction rules generalizing g h with
  | nil => exact ⟨.refl hC, .none⟩
  | cons rule rules ih =>
    rw [List.forall_mem_cons] at hrules
    obtain ⟨⟨apply, happly, huniform⟩, hrules⟩ := hrules
    have hagree := huniform hC hr
    simp only [Attempt.Agree, OptionT.run_mk, run_firstMatch_cons, happly]
    obtain ⟨hleads, hrel⟩ := hagree
    generalize (apply r).run.run g = x, (apply r').run.run h = y at hleads hrel
    obtain ⟨o, g'⟩ := x
    obtain ⟨p, h'⟩ := y
    have hC' := hleads.after
    have hr' := hleads.rel hC hr
    obtain ⟨hleads', hrel'⟩ := ih hrules hC' hr'
    cases hrel with
    | none => exact ⟨hleads.trans hleads', hrel'⟩
    | @some a b hab =>
      have hnext := C.resolve hC' hab
      simp only [C.eq_iff hC' hnext hr']
      by_cases heq : h'.resolve b = r'
      · simp only [if_pos heq]
        exact ⟨hleads.trans hleads', hrel'⟩
      · simp only [if_neg heq]
        exact ⟨hleads, .some ⟨rfl, hnext⟩⟩

variable {hoisting : Bool}

/-- The rules of the table that are tried on a kind of node, before hoisting. -/
def symbolicFor (kind : OpKind) : List Rule := symbolicRules.filter (·.appliesTo kind)

def hoistingFor (kind : OpKind) : List Rule := hoistingRules.filter (·.appliesTo kind)

theorem uniform_symbolicFor (kind : OpKind) : ∀ rule ∈ symbolicFor kind, ∃ apply,
    (rule.apply = fun _ => apply) ∧ Rule.Uniform apply :=
  fun _ hrule => Rule.uniform_symbolicRules (List.mem_of_mem_filter hrule)

theorem run_step (rs : Readers) (r : Ref) (g : Graph) :
    ((kernel hoisting).step rs r).run g =
      match (firstMatch rs (g.resolve r) (symbolicFor (g.op (g.resolve r)).kind)).run g with
      | (none, g') => (firstMatch rs (g.resolve r) (hoistingFor (g.op (g.resolve r)).kind)).run g'
      | (some x, g') => (some x, g') := by
  change (firstMatch rs (g.resolve r)
    ((symbolicRules ++ hoistingRules).filter (·.appliesTo (g.op (g.resolve r)).kind))).run g = _
  rw [List.filter_append, run_firstMatch_append]
  rfl

theorem hoistingFor_eq (kind : OpKind) :
    hoistingFor kind = if kind = .binary then hoistingRules else [] := by
  cases kind <;> rfl

theorem run_step_of_isLoop (hg : g.WellFormed) (hr : (g.op r).isLoop = true) :
    ((kernel hoisting).step rs r).run g = (none, g) := by
  have hkind : (g.op (g.resolve r)).kind = .loop := by
    rw [op, get_resolve hg, ← op]
    cases hop : g.op r with
    | loop => rfl
    | _ => rw [hop] at hr; cases hr
  rw [run_step, hkind]
  rfl

theorem run_hoisting_cases (hg : g.Sound) (hr : r < g.size) (hrs : Rule.ReadersIn g.size rs) :
    ((firstMatch rs r hoistingRules).run g).2.Sound ∧
      g.size ≤ ((firstMatch rs r hoistingRules).run g).2.size ∧
      (((firstMatch rs r hoistingRules).run g).1 = none ∧
          ((Rule.planShift rs r).run.run g).1 = none ∧
          ((firstMatch rs r hoistingRules).run g).2 = ((Rule.planShift rs r).run.run g).2 ∨
        ((Rule.planShift rs r).run.run g).1.isSome ∧
        ∃ x, ((firstMatch rs r hoistingRules).run g).1 = some x ∧
          x.2 < ((firstMatch rs r hoistingRules).run g).2.size ∧
          (((firstMatch rs r hoistingRules).run g).2.op x.2).isLoop = true) := by
  obtain ⟨hsound, hsize, hcases⟩ := Rule.hoistOffset_cases hg hr hrs
  rw [hoistingRules, run_firstMatch_cons]
  generalize (Rule.hoistOffset rs r).run.run g = run at hsound hsize hcases
  obtain ⟨o, g'⟩ := run
  rcases hcases with ⟨rfl, hplan, hsame⟩ | ⟨hplan, x, rfl, hx, hloop, hkind⟩
  · exact ⟨hsound, hsize, .inl ⟨rfl, hplan, hsame⟩⟩
  · have hloop' : (g'.op (g'.resolve x)).isLoop = true := by
      rwa [op, get_resolve hsound.wellFormed, ← op]
    have hne : g'.resolve x ≠ r := by
      intro heq
      rw [heq] at hloop'
      cases hop : g'.op r with
      | loop => rw [hop] at hkind; cases hkind
      | _ => rw [hop] at hloop'; cases hloop'
    simp only [if_neg hne]
    exact ⟨hsound, hsize, .inr ⟨hplan, _, rfl, hsound.wellFormed.resolve_lt hx, hloop'⟩⟩

/-- A step adds nodes and, from a node that is its own twin, leads to one; or it leads to a loop. -/
structure StepOutcome (g : Graph) (r : Ref) (o : Option (String × Ref)) (g' : Graph) : Prop where
  sound : g'.Sound
  size_le : g.size ≤ g'.size
  next_lt : ∀ x, o = some x → x.2 < g'.size
  next : (g.Grows g' ∧ (Twin g g r r → ∀ x, o = some x → Twin g' g' x.2 x.2)) ∨
    ∃ x, o = some x ∧ (g'.op x.2).isLoop = true

theorem step_outcome (hoisting : Bool) (hg : g.Sound) (hr : r < g.size) (hrs : Rule.ReadersIn g.size rs) :
    StepOutcome g r (((kernel hoisting).step rs r).run g).1
      (((kernel hoisting).step rs r).run g).2 := by
  have hq := hg.wellFormed.resolve_lt hr
  have huniform := uniform_symbolicFor (g.op (g.resolve r)).kind
  obtain ⟨hleads, hrel⟩ := agree_firstMatch rs rs (C := .nodes) huniform ⟨rfl, hg⟩ ⟨rfl, hq⟩
  have htwin : Twin g g r r → _ := fun htwin =>
    (agree_firstMatch rs rs (C := .twins) huniform ⟨hg, hg⟩
      (Correspondence.twins.resolve ⟨hg, hg⟩ htwin)).2
  rw [run_step]
  simp only [OptionT.run_mk] at hleads hrel htwin
  generalize (firstMatch rs (g.resolve r) (symbolicFor (g.op (g.resolve r)).kind)).run g = run
    at hleads hrel htwin
  obtain ⟨_ | x, g₁⟩ := run
  · have hg₁ := hleads.after.2
    have hgrows := hleads.left
    have hq₁ := Nat.lt_of_lt_of_le hq hgrows.size_le
    have hrs₁ := hrs.mono hgrows.size_le
    simp only [hoistingFor_eq]
    split_ifs
    · obtain ⟨hsound, hsize, hcases⟩ := run_hoisting_cases hg₁ hq₁ hrs₁
      have hplan := (Rule.agree_planShift (C := .nodes) ⟨rfl, hg₁⟩ hrs₁.rel ⟨rfl, hq₁⟩).1.left
      generalize (firstMatch rs (g.resolve r) hoistingRules).run g₁ = run at hsound hsize hcases
      obtain ⟨o, g₂⟩ := run
      rcases hcases with ⟨rfl, -, rfl⟩ | ⟨-, x, rfl, hx, hloop⟩
      · exact ⟨hsound, hgrows.size_le.trans hsize, nofun, .inl ⟨hgrows.trans hplan, fun _ => nofun⟩⟩
      · refine ⟨hsound, hgrows.size_le.trans hsize, ?_, .inr ⟨x, rfl, hloop⟩⟩
        rintro _ ⟨⟩
        exact hx
    · exact ⟨hg₁, hgrows.size_le, nofun, .inl ⟨hgrows, fun _ => nofun⟩⟩
  · refine ⟨hleads.after.2, hleads.left.size_le, ?_, .inl ⟨hleads.left, fun hr => ?_⟩⟩
    · rintro _ ⟨⟩
      cases hrel with
      | some hx => exact hx.2.2
    · rintro _ ⟨⟩
      cases htwin hr with
      | some hx => exact hx.2

theorem step_none (hC : C.Over g h) (hrs : Rule.ReadersRel C g h rs rs') (hr : C.Rel g h r r')
    (hnone : (((kernel hoisting).step rs r).run g).1 = none) :
    (((kernel hoisting).step rs' r').run h).1 = none ∧
      C.Leads g h (((kernel hoisting).step rs r).run g).2
        (((kernel hoisting).step rs' r').run h).2 := by
  have hq := C.resolve hC hr
  have hkind := C.kind hC hq
  obtain ⟨hleads, hrel⟩ := agree_firstMatch rs rs'
    (uniform_symbolicFor (g.op (g.resolve r)).kind) hC hq
  rw [run_step] at hnone
  rw [run_step, run_step, ← hkind]
  simp only [OptionT.run_mk] at hleads hrel
  generalize (firstMatch rs (g.resolve r) (symbolicFor (g.op (g.resolve r)).kind)).run g = run
    at hleads hrel hnone
  generalize (firstMatch rs' (h.resolve r') (symbolicFor (g.op (g.resolve r)).kind)).run h = run'
    at hleads hrel
  obtain ⟨o, g₁⟩ := run
  obtain ⟨p, h₁⟩ := run'
  cases hrel with
  | some => cases hnone
  | none =>
    simp only [hoistingFor_eq] at hnone ⊢
    split_ifs at hnone ⊢
    · have hC₁ := hleads.after
      have hq₁ := hleads.rel hC hq
      have hrs₁ := hrs.leads hC hleads
      have hleft := run_hoisting_cases (C.sound hC₁).1 (C.lt_size hC₁ hq₁).1 (hrs₁.left_in hC₁)
      have hright := run_hoisting_cases (C.sound hC₁).2 (C.lt_size hC₁ hq₁).2 (hrs₁.right_in hC₁)
      obtain ⟨hleads', hplan⟩ := Rule.agree_planShift hC₁ hrs₁ hq₁
      obtain ⟨-, hplan₁, hsame₁⟩ := hleft.2.2.resolve_right fun hsome => by
        obtain ⟨-, x, hx, -⟩ := hsome
        rw [hnone] at hx
        cases hx
      rw [hplan₁] at hplan
      have hplan₂ : ((Rule.planShift rs' (h.resolve r')).run.run h₁).1 = none := by
        generalize ((Rule.planShift rs' (h.resolve r')).run.run h₁).1 = o at hplan
        cases hplan
        rfl
      obtain ⟨hnone₂, -, hsame₂⟩ := hright.2.2.resolve_right fun hsome => by
        rw [hplan₂] at hsome
        exact absurd hsome.1 (by simp)
      rw [hsame₁, hsame₂]
      exact ⟨hnone₂, hleads.trans hleads'⟩
    · exact ⟨rfl, hleads⟩

/-! ### Runs of steps -/

section Settle

variable {node : Ref} {remaining : Nat}

theorem run_settle (t : RuleTable) (rs : Readers) (node : Ref) (remaining : Nat) (r : Ref)
    (g : Graph) :
    (t.settle rs node remaining r).run.run g =
      match (t.step rs r).run g with
      | (none, g') => (.ok r, g')
      | (some x, g') =>
        match remaining with
        | 0 => (.error (.ruleLoop x.1 node maxApplications), g')
        | n + 1 => (t.settle rs node n x.2).run.run g' := by
  rw [settle.eq_def, Build.run_lift_bind]
  obtain ⟨_ | x, g'⟩ := (t.step rs r).run g
  · rfl
  · cases remaining <;> rfl

theorem run_settle_of_isLoop (hg : g.WellFormed) (hr : (g.op r).isLoop = true) :
    ((kernel hoisting).settle rs node remaining r).run.run g = (.ok r, g) := by
  rw [run_settle, run_step_of_isLoop hg hr]

/-- No rule applied to a node when it was last looked at. -/
structure Settled (hoisting : Bool) (rs : Readers) (g : Graph) (r : Ref) : Prop where
  exists_before : ∃ g₀, g₀.Sound ∧ g₀.Grows g ∧ r < g₀.size ∧ Rule.ReadersIn g₀.size rs ∧
    (((kernel hoisting).step rs r).run g₀).1 = none

theorem Settled.grows (hr : Settled hoisting rs g r) (hgrows : g.Grows g') :
    Settled hoisting rs g' r := by
  obtain ⟨g₀, hsound, hgrows', hrest⟩ := hr.exists_before
  exact ⟨g₀, hsound, hgrows'.trans hgrows, hrest⟩

/-- Steps add nodes and lead to a node to which no rule applies, or they lead to a loop. -/
structure SettleOutcome (hoisting : Bool) (rs : Readers) (g : Graph) (r last : Ref) (g' : Graph) :
    Prop where
  last_lt : last < g'.size
  last : (g.Grows g' ∧ (Twin g g r r → Twin g' g' last last ∧ Settled hoisting rs g' last)) ∨
    ((g.op r).isLoop = false ∧ (g'.op last).isLoop = true)

theorem settleOutcome_of_step_none (hg : g.Sound) (hr : r < g.size)
    (hrs : Rule.ReadersIn g.size rs) (hrun : ((kernel hoisting).step rs r).run g = (none, g'))
    (hstep : StepOutcome g r none g') : SettleOutcome hoisting rs g r r g' := by
  have hgrows := (hstep.next.resolve_right fun ⟨x, hx, _⟩ => by cases hx).1
  refine ⟨Nat.lt_of_lt_of_le hr hstep.size_le, .inl ⟨hgrows, fun htwin => ?_⟩⟩
  exact ⟨htwin.grows hgrows hgrows, ⟨g, hg, hgrows, hr, hrs, by rw [hrun]⟩⟩

theorem settle_outcome (hoisting : Bool) (node : Ref) (remaining : Nat) {g : Graph} {r : Ref}
    (hg : g.Sound) (hr : r < g.size) (hrs : Rule.ReadersIn g.size rs) :
    (((kernel hoisting).settle rs node remaining r).run.run g).2.Sound ∧
      g.size ≤ (((kernel hoisting).settle rs node remaining r).run.run g).2.size ∧
      ∀ last, (((kernel hoisting).settle rs node remaining r).run.run g).1 = .ok last →
        SettleOutcome hoisting rs g r last
          (((kernel hoisting).settle rs node remaining r).run.run g).2 := by
  have hstep := step_outcome hoisting hg hr hrs
  rw [run_settle]
  generalize hrun : ((kernel hoisting).step rs r).run g = run at hstep
  obtain ⟨_ | x, g₁⟩ := run
  · refine ⟨hstep.sound, hstep.size_le, ?_⟩
    rintro _ ⟨⟩
    exact settleOutcome_of_step_none hg hr hrs hrun hstep
  cases remaining with
  | zero => exact ⟨hstep.sound, hstep.size_le, nofun⟩
  | succ remaining =>
    have hnotloop : (g.op r).isLoop = false := by
      by_contra hloop
      rw [run_step_of_isLoop hg.wellFormed (by simpa using hloop)] at hrun
      cases hrun
    obtain ⟨hsound, hsize, hlast⟩ := settle_outcome hoisting node remaining hstep.sound
      (hstep.next_lt x rfl) (hrs.mono hstep.size_le)
    refine ⟨hsound, hstep.size_le.trans hsize, fun last hok => ⟨(hlast last hok).last_lt, ?_⟩⟩
    rcases hstep.next with ⟨hgrows, hvalid⟩ | ⟨y, hy, hloop⟩
    · rcases (hlast last hok).last with ⟨hgrows', hsettled⟩ | ⟨-, hloop⟩
      · exact .inl ⟨hgrows.trans hgrows', fun htwin => hsettled (hvalid htwin x rfl)⟩
      · exact .inr ⟨hnotloop, hloop⟩
    · obtain rfl := Option.some.inj hy
      simp only at hok hloop ⊢
      rw [run_settle_of_isLoop hstep.sound.wellFormed hloop] at hok ⊢
      obtain rfl := Except.ok.inj hok
      exact .inr ⟨hnotloop, hloop⟩

end Settle

/-! ### Visits -/

section Visit

variable {p q : Pass} {node : Ref} {nodes : List Ref} {n : Nat}

/-- A node over the results for its sources. -/
def rebuilt (g : Graph) (p : Pass) (node : Ref) : Instr :=
  ⟨(g.get node).op.mapSources fun s => p.resultFor (g.resolve s), (g.get node).dtype⟩

theorem run_visit (t : RuleTable) (rs : Readers) (p : Pass) (node : Ref) (g : Graph) :
    (t.visit rs p node).run.run g =
      match (t.settle rs node maxApplications (g.insert (rebuilt g p node)).1).run.run
          (g.insert (rebuilt g p node)).2 with
      | (.ok last, g') =>
        (.ok { results := (node, g'.resolve last) :: p.results
               changed := p.changed || g'.resolve last != node || g'.op node != (g.get node).op }, g')
      | (.error e, g') => (.error e, g') := by
  change (t.settle rs node maxApplications (g.insert (rebuilt g p node)).1 >>= fun last => do
      let g' ← MonadState.get
      let last := g'.resolve last
      return { results := (node, last) :: p.results
               changed := p.changed || last != node || g'.op node != (g.get node).op } :
    Build Pass).run.run (g.insert (rebuilt g p node)).2 = _
  rw [Build.run_bind]
  obtain ⟨_ | last, g'⟩ := (t.settle rs node maxApplications _).run.run _ <;> rfl

/-- What nodes have become are nodes of a graph. -/
def Pass.In (n : Nat) (p : Pass) : Prop := ∀ x ∈ p.results, x.2 < n

theorem Pass.In.mono {m : Nat} (h : p.In n) (hnm : n ≤ m) : p.In m :=
  fun x hx => Nat.lt_of_lt_of_le (h x hx) hnm

theorem Pass.In.resultFor_lt (h : p.In n) (hr : r < n) : p.resultFor r < n := by
  rw [Pass.resultFor]
  cases hlookup : p.results.lookup r with
  | none => exact hr
  | some x =>
    exact h (r, x) (mem_of_lookup hlookup)

theorem rebuilt_lt (hg : g.Sound) (hp : p.In g.size) (hnode : node < g.size) :
    ∀ s ∈ (rebuilt g p node).op.sources, s < g.size := by
  simp only [rebuilt, Op.sources_mapSources, List.forall_mem_map]
  exact fun s hs => hp.resultFor_lt (hg.wellFormed.resolve_lt (hg.source_lt hnode hs))

theorem visit_sound (hoisting : Bool) (hg : g.Sound) (hp : p.In g.size)
    (hnode : node < g.size) (hrs : Rule.ReadersIn g.size rs) :
    (((kernel hoisting).visit rs p node).run.run g).2.Sound ∧
      g.size ≤ (((kernel hoisting).visit rs p node).run.run g).2.size ∧
      ∀ q, (((kernel hoisting).visit rs p node).run.run g).1 = .ok q →
        q.In (((kernel hoisting).visit rs p node).run.run g).2.size := by
  have hinsert := hg.insert (rebuilt_lt hg hp hnode)
  obtain ⟨hgrows, hholds⟩ := insert_spec hg.wellFormed (rebuilt g p node)
  obtain ⟨hsound, hsize, hlast⟩ := settle_outcome hoisting node maxApplications hinsert
    hholds.lt_size (hrs.mono hgrows.size_le)
  rw [run_visit]
  generalize ((kernel hoisting).settle rs node maxApplications _).run.run _ = run
    at hsound hsize hlast
  have hle := hgrows.size_le.trans hsize
  obtain ⟨e | last, g'⟩ := run
  · exact ⟨hsound, hle, nofun⟩
  · refine ⟨hsound, hle, ?_⟩
    rintro _ ⟨⟩
    refine List.forall_mem_cons.mpr ⟨?_, hp.mono hle⟩
    exact hsound.wellFormed.resolve_lt (hlast last rfl).last_lt

theorem foldlM_visit_sound (hoisting : Bool) (hg : g.Sound) (hp : p.In g.size)
    (hnodes : ∀ r ∈ nodes, r < g.size) (hrs : Rule.ReadersIn g.size rs) :
    ((nodes.foldlM ((kernel hoisting).visit rs) p).run.run g).2.Sound ∧
      g.size ≤ ((nodes.foldlM ((kernel hoisting).visit rs) p).run.run g).2.size ∧
      ∀ q, ((nodes.foldlM ((kernel hoisting).visit rs) p).run.run g).1 = .ok q →
        q.In ((nodes.foldlM ((kernel hoisting).visit rs) p).run.run g).2.size := by
  induction nodes generalizing g p with
  | nil =>
    refine ⟨hg, Nat.le_refl _, ?_⟩
    rintro _ ⟨⟩
    exact hp
  | cons node nodes ih =>
    rw [List.forall_mem_cons] at hnodes
    obtain ⟨hsound, hsize, hin⟩ := visit_sound hoisting hg hp hnodes.1 hrs
    rw [List.foldlM_cons, Build.run_bind]
    generalize ((kernel hoisting).visit rs p node).run.run g = run at hsound hsize hin
    obtain ⟨e | q, g'⟩ := run
    · exact ⟨hsound, hsize, nofun⟩
    · obtain ⟨hsound', hsize', hin'⟩ := ih hsound (hin q rfl)
        (fun r hr => Nat.lt_of_lt_of_le (hnodes.2 r hr) hsize) (hrs.mono hsize)
      exact ⟨hsound', hsize.trans hsize', hin'⟩

theorem readersIn_readersFor (t : RuleTable) (hg : g.Sound) (hr : r < g.size) :
    Rule.ReadersIn g.size (t.readersFor g r) := by
  rw [readersFor]
  split
  · intro x hx
    simp only [consumers, List.mem_map, List.mem_filter] at hx
    obtain ⟨y, ⟨hy, -⟩, rfl⟩ := hx
    exact ⟨hg.order_lt hr hy, fun z hz => hg.order_lt hr (List.mem_of_mem_filter hz)⟩
  · exact nofun

theorem run_pass (t : RuleTable) (rs : Readers) (root : Ref) (g : Graph) :
    (t.pass rs root).run.run g =
      match ((g.order root).foldlM (t.visit rs) {}).run.run g with
      | (.ok p, g') => (.ok (p.resultFor root, p.changed), g')
      | (.error e, g') => (.error e, g') := by
  change (((g.order root).foldlM (t.visit rs) {} >>= fun p =>
    pure (p.resultFor root, p.changed) : Build (Ref × Bool))).run.run g = _
  rw [Build.run_bind]
  obtain ⟨_ | p, g'⟩ := ((g.order root).foldlM (t.visit rs) {}).run.run g <;> rfl

theorem pass_sound (hoisting : Bool) (hg : g.Sound) (hr : r < g.size) (hrs : Rule.ReadersIn g.size rs) :
    (((kernel hoisting).pass rs r).run.run g).2.Sound ∧
      ∀ x, (((kernel hoisting).pass rs r).run.run g).1 = .ok x →
        x.1 < (((kernel hoisting).pass rs r).run.run g).2.size := by
  obtain ⟨hsound, hsize, hin⟩ := foldlM_visit_sound hoisting (p := {}) hg
    nofun (fun s hs => hg.order_lt hr hs) hrs
  rw [run_pass]
  generalize ((g.order r).foldlM ((kernel hoisting).visit rs) {}).run.run g = run
    at hsound hsize hin
  obtain ⟨e | p, g'⟩ := run
  · exact ⟨hsound, nofun⟩
  · refine ⟨hsound, ?_⟩
    rintro _ ⟨⟩
    exact (hin p rfl).resultFor_lt (Nat.lt_of_lt_of_le hr hsize)

end Visit

end RuleTable

end LazyTensor

import LazyTensor.Proofs.Linear.Listing
import LazyTensor.Proofs.Simplify.Idempotent

/-!
# Stores stay with their arguments

Every store of a graph writes to an argument of the kernel. Neither simplification nor the list that a
graph is put into redirects a store, so the list writes to no argument that the graph did not write to.
-/

namespace LazyTensor

namespace Op

variable {R : Ref → Ref → Prop} {o p : Op} {r : Ref}

theorem Matches.exists_target (h : Matches R o p) (hp : p.target? = some r) :
    ∃ s, o.target? = some s ∧ R s r := by
  cases h with
  | store hb _ _ | gatedStore hb _ _ _ =>
    cases hp
    exact ⟨_, rfl, hb⟩
  | _ => cases hp

theorem Matches.eq_defineGlobal {slot : Nat} (h : Matches R (.defineGlobal slot) p) :
    p = .defineGlobal slot := by
  cases h
  rfl

end Op

namespace Graph

variable {written : Nat → Prop} {g g' g'' : Graph} {r x : Ref} {n : Instr}

theorem op_resolve (hg : g.WellFormed) (r : Ref) : g.op (g.resolve r) = g.op r := by
  rw [op, get_resolve hg, op]

/-- The node is an argument in one of the given slots. -/
def IsArgument (written : Nat → Prop) (g : Graph) (r : Ref) : Prop :=
  ∃ slot, written slot ∧ g.op r = .defineGlobal slot

/-- A sound graph whose stores write to arguments in the given slots only. -/
structure Confined (written : Nat → Prop) (g : Graph) : Prop where
  sound : g.Sound
  argument : ∀ r x, (g.op r).target? = some x → g.IsArgument written x

/-- Nodes may have been added or overwritten, but no arguments among them. -/
structure Confines (written : Nat → Prop) (g g' : Graph) : Prop where
  confined : g'.Confined written
  size_le : g.size ≤ g'.size
  op_iff : ∀ r < g.size, ∀ slot, g'.op r = .defineGlobal slot ↔ g.op r = .defineGlobal slot

theorem Confines.trans (h : g.Confines written g') (h' : g'.Confines written g'') :
    g.Confines written g'' :=
  ⟨h'.confined, h.size_le.trans h'.size_le, fun r hr slot =>
    (h'.op_iff r (Nat.lt_of_lt_of_le hr h.size_le) slot).trans (h.op_iff r hr slot)⟩

theorem Confines.op_eq (h : g.Confines written g') (hg : g.WellFormed) {slot : Nat}
    (hr : g.op r = .defineGlobal slot) : g'.op r = .defineGlobal slot := by
  have hlt : r < g.size := lt_size_of_op hg (by simp [hr])
  exact (h.op_iff r hlt slot).mpr hr

theorem IsArgument.grows (h : g.IsArgument written r) (hg : g.WellFormed) (hgrows : g.Grows g') :
    g'.IsArgument written r := by
  obtain ⟨slot, hslot, hop⟩ := h
  have hlt : r < g.size := lt_size_of_op hg (by simp [hop])
  exact ⟨slot, hslot, by rw [hgrows.op_eq hg hlt, hop]⟩

theorem Confined.grows (hg : g.Confined written) (h : g.Grows g') (hg' : g'.Confined written) :
    g.Confines written g' :=
  ⟨hg', h.size_le, fun r hr slot => by rw [h.op_eq hg.sound.wellFormed hr]⟩

theorem Confined.insert (hg : g.Confined written) (hn : ∀ s ∈ n.op.sources, s < g.size)
    (htarget : ∀ x, n.op.target? = some x → g.IsArgument written x) :
    (g.insert n).2.Confined written := by
  have hwf := hg.sound.wellFormed
  have hsound := hg.sound.insert hn
  obtain ⟨hgrows, hholds⟩ := insert_spec hwf n
  refine ⟨hsound, fun r x hx => ?_⟩
  by_cases hr : r < g.size
  · rw [hgrows.op_eq hwf hr] at hx
    exact (hg.argument r x hx).grows hwf hgrows
  · have hlt : r < (g.insert n).2.size := by
      apply lt_size_of_op hsound.wellFormed
      intro hnoop
      rw [hnoop] at hx
      cases hx
    rw [eq_of_lt_insert hr hlt, op, hholds.get_eq, resolved, Op.target?_mapSources,
      Option.map_eq_some_iff] at hx
    obtain ⟨s, hs, rfl⟩ := hx
    obtain ⟨slot, hslot, hop⟩ := htarget s hs
    exact IsArgument.grows ⟨slot, hslot, by rw [op_resolve hwf, hop]⟩ hwf hgrows

theorem Confined.replace (hg : g.Confined written) (hsound : (g.replace x n).Sound) (hx : x < g.size)
    (hold : ∀ slot, g.op x ≠ .defineGlobal slot) (hnew : ∀ slot, n.op ≠ .defineGlobal slot)
    (htarget : ∀ s, n.op.target? = some s → g.IsArgument written s) :
    g.Confines written (g.replace x n) := by
  have hwf := hg.sound.wellFormed
  have hop : ∀ r, (g.replace x n).op r =
      if g.resolve r = g.resolve x then n.op.mapSources g.resolve else g.op r := by
    intro r
    rw [op, replace_get hwf hx]
    split <;> rfl
  have hiff : ∀ r slot, (g.replace x n).op r = .defineGlobal slot ↔ g.op r = .defineGlobal slot := by
    intro r slot
    rw [hop]
    split
    next heq =>
      rw [← op_resolve hwf r, heq, op_resolve hwf]
      refine iff_of_false (fun h => ?_) (hold slot)
      cases hn : n.op with
      | defineGlobal s => exact hnew s hn
      | _ =>
        rw [hn] at h
        cases h
    next => rfl
  refine ⟨⟨hsound, fun r s hs => ?_⟩, (replace_size).ge, fun r _ slot => hiff r slot⟩
  rw [hop] at hs
  split at hs
  · rw [Op.target?_mapSources, Option.map_eq_some_iff] at hs
    obtain ⟨t, ht, rfl⟩ := hs
    obtain ⟨slot, hslot, hop'⟩ := htarget t ht
    exact ⟨slot, hslot, (hiff _ _).mpr (by rw [op_resolve hwf, hop'])⟩
  · obtain ⟨slot, hslot, hop'⟩ := hg.argument r s hs
    exact ⟨slot, hslot, (hiff _ _).mpr hop'⟩

end Graph

open LazyTensor.Graph

/-- The nodes of one graph with such stores, each with itself. -/
def Correspondence.confined (written : Nat → Prop) : Correspondence where
  Over g h := g = h ∧ g.Confined written
  Rel := nodes.Rel
  Writable g r := g.IsArgument written r
  sound hC := nodes.sound ⟨hC.1, hC.2.sound⟩
  lt_size hC := nodes.lt_size ⟨hC.1, hC.2.sound⟩
  resolve hC := nodes.resolve ⟨hC.1, hC.2.sound⟩
  eq_iff hC := nodes.eq_iff ⟨hC.1, hC.2.sound⟩
  dtype hC := nodes.dtype ⟨hC.1, hC.2.sound⟩
  op hC := nodes.op ⟨hC.1, hC.2.sound⟩
  grows hC hg hh hC' := nodes.grows ⟨hC.1, hC.2.sound⟩ hg hh ⟨hC'.1, hC'.2.sound⟩
  writable hC _ hr := hC.2.argument _ _ hr
  writable_grows hC hg hr := hr.grows hC.2.sound.wellFormed hg
  insert {g h o p t} hC hop hw := by
    obtain ⟨hover, hrel⟩ := nodes.insert (t := t) ⟨hC.1, hC.2.sound⟩ hop fun _ _ => trivial
    refine ⟨⟨hover.1, hC.2.insert ?_ hw⟩, hrel⟩
    exact forall_left hop.sources fun a b hab => hab.2

/-! ### Simplification -/

namespace RuleTable

variable {written : Nat → Prop} {g g' : Graph} {r root node : Ref} {rs : Readers} {hoisting : Bool}
  {p : Pass} {slot : Nat}

theorem hoistOffset_confines (hg : g.Confined written) (hr : r < g.size)
    (hrs : Rule.ReadersIn g.size rs) :
    g.Confines written ((Rule.hoistOffset rs r).run.run g).2 := by
  have hsound := (Rule.hoistOffset_cases hg.sound hr hrs).1
  obtain ⟨hleads, hrel⟩ := Rule.agree_planShift (C := .confined written) ⟨rfl, hg⟩ hrs.rel ⟨rfl, hr⟩
  have hplanned := (Rule.planShift_planned rs hg.sound hr).2
  have hconfines := hg.grows hleads.left hleads.after.2
  rw [Rule.hoistOffset_eq, Attempt.run_bind] at hsound ⊢
  generalize (Rule.planShift rs r).run.run g = run at hleads hrel hplanned hconfines hsound ⊢
  obtain ⟨_ | s, g₁⟩ := run
  · exact hconfines
  · obtain ⟨hshift⟩ := hrel
    obtain ⟨start, stop, offset, hloop, hmem, -⟩ := (hplanned s rfl).exists_offset
    refine hconfines.trans (hconfines.confined.replace hsound hshift.range.2 ?_ nofun nofun)
    intro slot
    rw [hleads.left.op_eq hg.sound.wellFormed (hg.sound.source_lt hr hmem), hloop]
    nofun

theorem step_confines (hoisting : Bool) (hg : g.Confined written) (hr : r < g.size)
    (hrs : Rule.ReadersIn g.size rs) :
    g.Confines written (((kernel hoisting).step rs r).run g).2 := by
  have hq := hg.sound.wellFormed.resolve_lt hr
  have hleads := (agree_firstMatch rs rs (C := .confined written)
    (uniform_symbolicFor (g.op (g.resolve r)).kind) ⟨rfl, hg⟩ ⟨rfl, hq⟩).1
  rw [run_step]
  simp only [OptionT.run_mk] at hleads
  generalize (firstMatch rs (g.resolve r) (symbolicFor (g.op (g.resolve r)).kind)).run g = run
    at hleads
  have hconfines := hg.grows hleads.left hleads.after.2
  obtain ⟨_ | x, g₁⟩ := run
  · simp only [hoistingFor_eq]
    split_ifs
    · have hhoist := hoistOffset_confines hconfines.confined (Nat.lt_of_lt_of_le hq hconfines.size_le)
        (hrs.mono hconfines.size_le)
      rw [hoistingRules, run_firstMatch_cons]
      generalize (Rule.hoistOffset rs (g.resolve r)).run.run g₁ = run at hhoist
      obtain ⟨_ | x, g₂⟩ := run
      · exact hconfines.trans hhoist
      · dsimp only
        split_ifs <;> exact hconfines.trans hhoist
    · exact hconfines
  · exact hconfines

theorem settle_confines (hoisting : Bool) (node : Ref) (remaining : Nat) {g : Graph} {r : Ref}
    (hg : g.Confined written) (hr : r < g.size) (hrs : Rule.ReadersIn g.size rs) :
    g.Confines written (((kernel hoisting).settle rs node remaining r).run.run g).2 := by
  have hstep := step_confines hoisting hg hr hrs
  have hnext := (step_outcome hoisting hg.sound hr hrs).next_lt
  rw [run_settle]
  generalize ((kernel hoisting).step rs r).run g = run at hstep hnext
  obtain ⟨_ | x, g₁⟩ := run
  · exact hstep
  · cases remaining with
    | zero => exact hstep
    | succ remaining =>
      exact hstep.trans (settle_confines hoisting node remaining hstep.confined (hnext x rfl)
        (hrs.mono hstep.size_le))

/-- No rule is tried on an argument. -/
theorem run_settle_of_argument {remaining : Nat} (hg : g.WellFormed)
    (hr : g.op r = .defineGlobal slot) :
    ((kernel hoisting).settle rs node remaining r).run.run g = (.ok r, g) := by
  have hstep : ((kernel hoisting).step rs r).run g = (none, g) := by
    rw [run_step, op_resolve hg, hr]
    rfl
  rw [run_settle, hstep]

/-- What arguments have become are the same arguments. -/
def Pass.Keeps (p : Pass) (g : Graph) : Prop :=
  ∀ x ∈ p.results, x.1 < g.size ∧ ∀ slot, g.op x.1 = .defineGlobal slot → g.op x.2 = .defineGlobal slot

theorem Pass.Keeps.op_resultFor (hp : p.Keeps g) (hr : g.op r = .defineGlobal slot) :
    g.op (p.resultFor r) = .defineGlobal slot := by
  rw [Pass.resultFor]
  cases hlookup : p.results.lookup r with
  | none => exact hr
  | some x =>
    exact (hp (r, x) (mem_of_lookup hlookup)).2 slot hr

theorem Pass.Keeps.confines (hp : p.Keeps g) (hg : g.WellFormed) (h : g.Confines written g') :
    p.Keeps g' := by
  intro x hx
  obtain ⟨hlt, hop⟩ := hp x hx
  refine ⟨Nat.lt_of_lt_of_le hlt h.size_le, fun slot hslot => ?_⟩
  exact h.op_eq hg (hop slot ((h.op_iff x.1 hlt slot).mp hslot))

theorem insert_rebuilt_confines (hg : g.Confined written) (hp : p.In g.size) (hkeeps : p.Keeps g)
    (hnode : node < g.size) : g.Confines written (g.insert (rebuilt g p node)).2 := by
  have hwf := hg.sound.wellFormed
  refine hg.grows (insert_spec hwf _).1 (hg.insert (rebuilt_lt hg.sound hp hnode) fun x hx => ?_)
  rw [rebuilt, Op.target?_mapSources, Option.map_eq_some_iff] at hx
  obtain ⟨s, hs, rfl⟩ := hx
  obtain ⟨slot, hslot, hop⟩ := hg.argument node s hs
  exact ⟨slot, hslot, hkeeps.op_resultFor (by rw [op_resolve hwf, hop])⟩

variable (hoisting) (hg : g.Confined written) (hrs : Rule.ReadersIn g.size rs)

include hg hrs

theorem visit_confines (hp : p.In g.size) (hkeeps : p.Keeps g) (hnode : node < g.size) :
    g.Confines written (((kernel hoisting).visit rs p node).run.run g).2 ∧
      ∀ q, (((kernel hoisting).visit rs p node).run.run g).1 = .ok q →
        q.Keeps (((kernel hoisting).visit rs p node).run.run g).2 := by
  have hwf := hg.sound.wellFormed
  have hinsert := insert_rebuilt_confines hg hp hkeeps hnode
  have hholds := (insert_spec hwf (rebuilt g p node)).2
  have hsettle := settle_confines hoisting node maxApplications hinsert.confined hholds.lt_size
    (hrs.mono hinsert.size_le)
  have hconfines := hinsert.trans hsettle
  rw [run_visit]
  have hsame : ∀ slot, g.op node = .defineGlobal slot →
      ((kernel hoisting).settle rs node maxApplications (g.insert (rebuilt g p node)).1).run.run
        (g.insert (rebuilt g p node)).2
          = (.ok (g.insert (rebuilt g p node)).1, (g.insert (rebuilt g p node)).2) ∧
      (g.insert (rebuilt g p node)).2.op (g.insert (rebuilt g p node)).1 = .defineGlobal slot := by
    intro slot hslot
    have hop : (g.insert (rebuilt g p node)).2.op (g.insert (rebuilt g p node)).1
        = .defineGlobal slot := by
      rw [op] at hslot
      rw [op, hholds.get_eq, resolved, rebuilt, hslot]
      rfl
    exact ⟨run_settle_of_argument hinsert.confined.sound.wellFormed hop, hop⟩
  generalize hrun : ((kernel hoisting).settle rs node maxApplications _).run.run _ = run
    at hconfines hsettle hsame
  obtain ⟨e | last, g₁⟩ := run
  · exact ⟨hconfines, by simp⟩
  · refine ⟨hconfines, ?_⟩
    rintro _ ⟨⟩
    refine List.forall_mem_cons.mpr ⟨⟨Nat.lt_of_lt_of_le hnode hconfines.size_le, ?_⟩,
      hkeeps.confines hwf hconfines⟩
    intro slot hslot
    obtain ⟨heq, hop⟩ := hsame slot ((hconfines.op_iff node hnode slot).mp hslot)
    obtain ⟨hlast, rfl⟩ := Prod.mk.inj heq
    obtain rfl := Except.ok.inj hlast
    rw [op_resolve hconfines.confined.sound.wellFormed, hop]

theorem foldlM_visit_confines {nodes : List Ref} (hp : p.In g.size) (hkeeps : p.Keeps g)
    (hnodes : ∀ r ∈ nodes, r < g.size) :
    ((nodes.foldlM ((kernel hoisting).visit rs) p).run.run g).2.Confined written := by
  induction nodes generalizing g p with
  | nil => exact hg
  | cons node nodes ih =>
    rw [List.forall_mem_cons] at hnodes
    obtain ⟨hconfines, hnext⟩ := visit_confines hoisting hg hrs hp hkeeps hnodes.1
    have hin := (visit_sound hoisting hg.sound hp hnodes.1 hrs).2.2
    rw [List.foldlM_cons, Build.run_bind]
    generalize ((kernel hoisting).visit rs p node).run.run g = run at hconfines hnext hin
    obtain ⟨e | q, g₁⟩ := run
    · exact hconfines.confined
    · exact ih hconfines.confined (hrs.mono hconfines.size_le) (hin q rfl) (hnext q rfl)
        fun r hr => Nat.lt_of_lt_of_le (hnodes.2 r hr) hconfines.size_le

theorem pass_confined (hr : r < g.size) :
    (((kernel hoisting).pass rs r).run.run g).2.Confined written := by
  have hfold := foldlM_visit_confines hoisting hg hrs (p := {}) nofun
    nofun fun s hs => hg.sound.order_lt hr hs
  rw [run_pass]
  generalize ((g.order r).foldlM ((kernel hoisting).visit rs) {}).run.run g = run at hfold
  obtain ⟨e | q, g₁⟩ := run <;> exact hfold

end RuleTable

section Compiled

open Emit

variable {written : Nat → Prop} {g g' : Graph} {root top sink : Ref} {hoisting : Bool} {limit : Nat}
  {is : Array Instr} (hg : g.Confined written)

include hg

theorem Graph.Confined.prune (hroot : Twin g g root root) : (g.prune root).1.Confined written := by
  obtain ⟨hsound, -, honly⟩ := hroot.prune hg.sound
  refine ⟨hsound, fun i x hx => ?_⟩
  have hi : i < (g.prune root).1.size := by
    apply lt_size_of_op hsound.wellFormed
    intro hnoop
    rw [hnoop] at hx
    cases hx
  obtain ⟨r, htwin⟩ := honly i hi
  obtain ⟨s, hs, hsx⟩ := htwin.op_matches.exists_target hx
  obtain ⟨slot, hslot, hop⟩ := hg.argument r s hs
  have hmatches := hsx.op_matches
  rw [hop] at hmatches
  exact ⟨slot, hslot, hmatches.eq_defineGlobal⟩

theorem normalize_confined (hroot : root < g.size)
    (hrun : (normalize (.kernel hoisting) limit root).run.run g = (.ok top, g')) :
    g'.Confined written := by
  have hwf := hg.sound.wellFormed
  rw [run_normalize] at hrun
  obtain ⟨g₀, root₀, G, next, hg₀, hconfined, hroot₀, hlive, hpass, hprune⟩ :=
    exists_last_pass (P := Confined written) (fun g root hg hroot hP =>
      RuleTable.pass_confined hoisting hP (RuleTable.readersIn_readersFor _ hg hroot) hroot)
      hg.sound hg (hwf.resolve_lt hroot) (hwf.resolve_resolve root) hrun
  have hreaders := RuleTable.readersIn_readersFor (.kernel hoisting) hg₀ hroot₀
  have hG := RuleTable.pass_confined hoisting hconfined hreaders hroot₀
  rw [hpass] at hG
  obtain ⟨-, -, rfl, hall⟩ := RuleTable.pass_unchanged hg₀ hroot₀ hreaders hpass
  have hmem := (hg₀.ordered_order hroot₀).2
  rw [hlive] at hmem
  have hself := (hall next hmem).1
  have hpruned := hG.prune hself
  rw [hself.resolve_eq.1] at hprune
  rwa [hprune] at hpruned

/-! ### Lists -/

theorem Graph.Confined.insertBranches (hsink : sink < g.size) :
    (g.insertBranches sink).1.Confined written := by
  refine insertBranches_keeps hg.sound hsink hg ?_
  intro g' waits r hg' hsize hr hconfined
  have hlt : r < g'.size := Nat.lt_of_lt_of_le (hg.sound.order_lt hsink hr) hsize
  have hsound : (g'.branchStore waits r).1.Sound := hg'.branchStore hlt
  rcases branchStore_cases g' waits r with heq | ⟨b, i, v, c, hop, heq⟩
  · rwa [heq]
  rw [heq] at hsound ⊢
  have hbranch : (g'.insert ⟨.branch c, .void⟩).2.Confined written := by
    refine hconfined.insert (List.forall_mem_singleton.mpr (hg'.source_lt hlt ?_)) (by rintro _ ⟨⟩)
    rw [hop]
    simp [Op.sources]
  have hgrows := (insert_spec hg'.wellFormed ⟨.branch c, .void⟩).1
  have hstore := hgrows.op_eq hg'.wellFormed hlt
  rw [hop] at hstore
  refine (hbranch.replace hsound (Nat.lt_of_lt_of_le hlt hgrows.size_le) ?_ (by simp) ?_).confined
  · intro slot h
    rw [hstore] at h
    cases h
  · rintro s ⟨⟩
    exact hbranch.argument r b (by rw [hstore]; rfl)

theorem linearize_confined {hash : NodeHash} (h : linearize g sink hash = .ok is) {p b : Nat}
    (hb : (instrAt is p).op.target? = some b) :
    ∃ slot, written slot ∧ (instrAt is b).op = .defineGlobal slot := by
  obtain ⟨hsink, g', waits, s, es, rs, hbranches, hsound, hsize, hresolve, hop, hs, hes, his, -⟩ :=
    exists_of_linearize hg.sound h
  have hconfined := hg.insertBranches hsink
  rw [hbranches] at hconfined
  obtain ⟨-, -, -, -, hnodes⟩ := entries_stands hsound hsize hresolve hop hs hes
  have hclosed : ∀ r, .node r ∈ es → ∀ d ∈ g'.sources r, .node d ∈ es := by
    intro r hr d hd
    rw [hnodes] at hr ⊢
    exact hsound.sources_mem_order hsize hr hd
  have hentry : ∃ e, es[p]? = some e := by
    by_contra hnone
    have hat := getElem?_of_entries his p
    rw [not_exists] at hnone
    rw [Option.eq_none_iff_forall_ne_some.mpr hnone, Option.map_none] at hat
    rw [instrAt, Array.getD_eq_getD_getElem?, hat] at hb
    cases hb
  obtain ⟨e, hentry⟩ := hentry
  cases e with
  | close r =>
    have hclose := getElem?_of_entries his p
    rw [hentry, Option.map_some] at hclose
    rw [instrAt_of_getElem? hclose, instr] at hb
    -- an end marker writes nothing
    split at hb <;> cases hb
  | node r =>
    rw [instrAt_of_getElem? (getElem?_node hclosed his hentry), Op.target?_mapSources, Option.map_eq_some_iff] at hb
    obtain ⟨s, hs, rfl⟩ := hb
    obtain ⟨slot, hslot, hop⟩ := hconfined.argument r s hs
    -- The argument is read by a node of the list, so that it stands in the list too.
    have hmem : .node (g'.resolve s) ∈ es :=
      hclosed r (List.mem_of_getElem? hentry) _
        (List.mem_map_of_mem (Op.mem_sources_of_target? hs))
    refine ⟨slot, hslot, ?_⟩
    rw [instrAt_of_getElem? (getElem?_node hclosed his (getElem?_placeIn hmem)),
      op_resolve hconfined.sound.wellFormed, hop]
    rfl

end Compiled

end LazyTensor

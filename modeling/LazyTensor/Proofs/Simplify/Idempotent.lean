import LazyTensor.Proofs.Simplify.Pass

/-!
# Simplified graphs are fixed

A pass that changes nothing has looked at every node under the root and found no rule to apply. The
pruned graph has a twin of each, so a second simplification finds no rule either and prunes to what is
there.
-/

namespace LazyTensor

open LazyTensor.Graph

namespace RuleTable

variable {g h g' g₀ P : Graph} {root node r : Ref} {rs : Readers} {p q : Pass} {hoisting : Bool}
  {nodes : List Ref}

/-! ### A pass that changes nothing -/

theorem changed_of_visit (hrun : ((kernel hoisting).visit rs p node).run.run g = (.ok q, g')) :
    q.changed = false → p.changed = false := by
  rw [run_visit] at hrun
  generalize ((kernel hoisting).settle rs node maxApplications _).run.run _ = run at hrun
  obtain ⟨e | last, g''⟩ := run
  · cases hrun
  · obtain ⟨⟨rfl⟩, rfl⟩ := Prod.mk.inj hrun
    simp only [Bool.or_eq_false_iff]
    exact fun h => h.1.1

theorem changed_of_foldlM
    (hrun : (nodes.foldlM ((kernel hoisting).visit rs) p).run.run g = (.ok q, g')) :
    q.changed = false → p.changed = false := by
  induction nodes generalizing p g with
  | nil =>
    obtain ⟨⟨rfl⟩, rfl⟩ := Prod.mk.inj hrun
    exact id
  | cons node nodes ih =>
    rw [List.foldlM_cons, Build.run_bind] at hrun
    generalize hvisit : ((kernel hoisting).visit rs p node).run.run g = run at hrun
    obtain ⟨e | p', g''⟩ := run
    · cases hrun
    · exact fun hq => changed_of_visit hvisit (ih hrun hq)

/-- Nothing has become anything else. -/
def Pass.Fixes (p : Pass) : Prop := ∀ x, p.resultFor x = x

theorem Pass.Fixes.cons (hp : p.Fixes) {changed : Bool} :
    Pass.Fixes ⟨(node, node) :: p.results, changed⟩ := by
  intro x
  rw [Pass.resultFor, List.lookup_cons]
  by_cases hx : x = node
  · rw [hx, beq_self_eq_true, Option.getD_some]
  · rw [beq_false_of_ne hx]
    exact hp x

theorem isLoop_mapSources (f : Ref → Ref) (o : Op) : (o.mapSources f).isLoop = o.isLoop := by
  cases o <;> rfl

theorem visit_unchanged (hg : g.Sound) (hp : p.Fixes) (hnode : node < g.size)
    (hsources : ∀ s ∈ g.sources node, Twin g g s s) (hrs : Rule.ReadersIn g.size rs)
    (hrun : ((kernel hoisting).visit rs p node).run.run g = (.ok q, g')) (hq : q.changed = false) :
    g'.Sound ∧ g.Grows g' ∧ q.Fixes ∧ Twin g' g' node node ∧ Settled hoisting rs g' node := by
  have hrebuilt : rebuilt g p node = ⟨(g.op node).mapSources g.resolve, g.dtype node⟩ := by
    rw [rebuilt, funext fun s => hp (g.resolve s)]
    rfl
  have hsources' : ∀ s ∈ ((g.op node).mapSources g.resolve).sources, Twin g g s (id s) := by
    rw [Op.sources_mapSources]
    exact hsources
  have hinsert : (g.insert (rebuilt g p node)).2.Sound := by
    rw [hrebuilt]
    exact hg.insert fun s hs => (hsources' s hs).lt_size.1
  obtain ⟨hgrows, hholds⟩ := insert_spec hg.wellFormed (rebuilt g p node)
  have htwin := twin_insert (t := g.dtype node) hg hg hsources'
  rw [Op.mapSources_id, ← hrebuilt] at htwin
  have hstart : ((g.insert (rebuilt g p node)).2.op (g.insert (rebuilt g p node)).1).isLoop =
      (g.op node).isLoop := by
    rw [op, hholds.get_eq, resolved, hrebuilt, isLoop_mapSources, isLoop_mapSources]
  obtain ⟨hsound, -, hlast⟩ := settle_outcome hoisting node maxApplications hinsert
    hholds.lt_size (hrs.mono hgrows.size_le)
  rw [run_visit] at hrun
  generalize ((kernel hoisting).settle rs node maxApplications _).run.run _ = run
    at hsound hlast hrun
  obtain ⟨e | last, g₁⟩ := run
  · cases hrun
  obtain ⟨⟨rfl⟩, rfl⟩ := Prod.mk.inj hrun
  simp only [Bool.or_eq_false_iff, bne_eq_false_iff_eq] at hq
  obtain ⟨⟨-, hresult⟩, hop⟩ := hq
  rcases (hlast last rfl).last with ⟨hgrows', hsettled⟩ | ⟨hnotloop, hloop⟩
  · obtain ⟨hvalid, hnone⟩ := hsettled htwin
    have hlive : g₁.resolve last = last := hvalid.resolve_eq.1
    rw [hlive] at hresult
    subst hresult
    refine ⟨hsound, hgrows.trans hgrows', ?_, hvalid, hnone⟩
    rw [hlive]
    exact hp.cons
  · -- Hoisting would have led to a loop, so the node would be one, and no rule is tried on it.
    rw [op, ← get_resolve hsound.wellFormed, hresult, ← op, hop, ← op, ← hstart, hnotloop] at hloop
    cases hloop

theorem foldlM_unchanged (hg₀ : g₀.Sound) (hroot : root < g₀.size)
    (hrs : Rule.ReadersIn g₀.size rs) (before : List Ref) {after : List Ref}
    (horder : g₀.order root = before ++ after) (hg : g.Sound) (hgrows : g₀.Grows g) (hp : p.Fixes)
    (hbefore : ∀ r ∈ before, Twin g g r r ∧ Settled hoisting rs g r)
    (hrun : (after.foldlM ((kernel hoisting).visit rs) p).run.run g = (.ok q, g'))
    (hq : q.changed = false) :
    g'.Sound ∧ g₀.Grows g' ∧ q.Fixes ∧
      ∀ r ∈ g₀.order root, Twin g' g' r r ∧ Settled hoisting rs g' r := by
  induction after generalizing before g p with
  | nil =>
    obtain ⟨⟨rfl⟩, rfl⟩ := Prod.mk.inj hrun
    rw [List.append_nil] at horder
    rw [horder]
    exact ⟨hg, hgrows, hp, hbefore⟩
  | cons node after ih =>
    have hmem : node ∈ g₀.order root := by rw [horder]; simp
    have hlt := hg₀.order_lt hroot hmem
    have hsources : ∀ s ∈ g.sources node, Twin g g s s := by
      rw [hgrows.sources_eq hg₀ hlt]
      exact fun s hs => (hbefore s (hg₀.sources_done hroot horder s hs)).1
    rw [List.foldlM_cons, Build.run_bind] at hrun
    generalize hvisit : ((kernel hoisting).visit rs p node).run.run g = run at hrun
    obtain ⟨e | p', g₁⟩ := run
    · cases hrun
    obtain ⟨hsound, hgrows', hp', htwin, hsettled⟩ := visit_unchanged hg hp
      (Nat.lt_of_lt_of_le hlt hgrows.size_le) hsources (hrs.mono hgrows.size_le) hvisit
      (changed_of_foldlM hrun hq)
    refine ih (before ++ [node]) (by rw [horder]; simp) hsound (hgrows.trans hgrows') hp'
      (fun r hr => ?_) hrun
    rcases List.mem_append.mp hr with hr | hr
    · obtain ⟨ht, hs⟩ := hbefore r hr
      exact ⟨ht.grows hgrows' hgrows', hs.grows hgrows'⟩
    · rw [List.mem_singleton.mp hr]
      exact ⟨htwin, hsettled⟩

/-- A pass that changes nothing has settled every node under the root. -/
theorem pass_unchanged {next : Ref} (hg : g.Sound) (hroot : root < g.size)
    (hrs : Rule.ReadersIn g.size rs)
    (hrun : ((kernel hoisting).pass rs root).run.run g = (.ok (next, false), g')) :
    g'.Sound ∧ g.Grows g' ∧ next = root ∧
      ∀ r ∈ g.order root, Twin g' g' r r ∧ Settled hoisting rs g' r := by
  rw [run_pass] at hrun
  generalize hfold : ((g.order root).foldlM ((kernel hoisting).visit rs) {}).run.run g = run at hrun
  obtain ⟨e | p, g₁⟩ := run
  · cases hrun
  obtain ⟨hresult, rfl⟩ := Prod.mk.inj hrun
  obtain ⟨rfl, hchanged⟩ := Prod.mk.inj (Except.ok.inj hresult)
  obtain ⟨hsound, hgrows, hp, hall⟩ := foldlM_unchanged hg hroot hrs [] rfl hg
    (.refl hg.wellFormed) (fun x => rfl) (by simp) hfold hchanged
  exact ⟨hsound, hgrows, hp root, hall⟩

/-! ### A pass over settled nodes -/

/-- No rule applies to a node, in `h` or after it has grown. -/
def Normal (hoisting : Bool) (rs : Readers) (h : Graph) (r : Ref) : Prop :=
  ∀ h', h.Grows h' → h'.Sound → (((kernel hoisting).step rs r).run h').1 = none ∧
    h'.Grows (((kernel hoisting).step rs r).run h').2 ∧ (((kernel hoisting).step rs r).run h').2.Sound

theorem rebuilt_eq_get (hp : p.Fixes) (hnode : Twin h h node node) :
    h.resolved (rebuilt h p node) = h.get node := by
  obtain @⟨_, _, o, t, f, hholds, _, hsource⟩ := hnode
  have hlive : ∀ s ∈ o.sources, h.resolve s = s := fun s hs => (hsource s hs).resolve_eq.1
  have hrebuilt : rebuilt h p node = ⟨o, t⟩ := by
    rw [rebuilt, funext fun s => hp (h.resolve s), hholds.get_eq, Op.mapSources_eq_self hlive]
  rw [hrebuilt, resolved_eq_self hlive, hholds.get_eq]

theorem visit_normal (hh : h.Sound) (hp : p.Fixes) (hnode : Twin h h node node)
    (hnone : (((kernel hoisting).step rs node).run h).1 = none)
    (hgrows : h.Grows (((kernel hoisting).step rs node).run h).2) :
    ((kernel hoisting).visit rs p node).run.run h =
      (.ok ⟨(node, node) :: p.results, p.changed⟩, (((kernel hoisting).step rs node).run h).2) := by
  have hlt := hnode.lt_size.1
  have hholds := hh.wellFormed.holds_resolve hlt
  rw [hnode.resolve_eq.1, ← rebuilt_eq_get hp hnode] at hholds
  rw [run_visit, insert_of_holds hh.unique hholds, run_settle]
  generalize ((kernel hoisting).step rs node).run h = run at hnone hgrows
  obtain ⟨o, h'⟩ := run
  subst hnone
  have hlive : h'.resolve node = node := by
    rw [hgrows.resolve_eq hh.wellFormed hlt, hnode.resolve_eq.1]
  have hop : h'.op node = (h.get node).op := by rw [op, hgrows.get_eq hh.wellFormed hlt]
  simp only [hlive, hop, bne_self_eq_false, Bool.or_false]

theorem foldlM_normal (hnodes : ∀ r ∈ nodes, Twin P P r r ∧ Normal hoisting rs P r)
    (hgrows : P.Grows h) (hh : h.Sound) (hp : p.Fixes) :
    ∃ q h', (nodes.foldlM ((kernel hoisting).visit rs) p).run.run h = (.ok q, h') ∧ P.Grows h' ∧
      h'.Sound ∧ q.Fixes ∧ q.changed = p.changed := by
  induction nodes generalizing h p with
  | nil => exact ⟨p, h, rfl, hgrows, hh, hp, rfl⟩
  | cons node nodes ih =>
    rw [List.forall_mem_cons] at hnodes
    obtain ⟨⟨htwin, hnormal⟩, hnodes⟩ := hnodes
    obtain ⟨hnone, hgrows', hsound⟩ := hnormal h hgrows hh
    rw [List.foldlM_cons, Build.run_bind,
      visit_normal hh hp (htwin.grows hgrows hgrows) hnone hgrows']
    exact ih hnodes (hgrows.trans hgrows') hsound hp.cons

theorem pass_normal (hP : P.Sound)
    (hnodes : ∀ r ∈ P.order root, Twin P P r r ∧ Normal hoisting rs P r) :
    ∃ h, ((kernel hoisting).pass rs root).run.run P = (.ok (root, false), h) ∧ P.Grows h ∧ h.Sound := by
  obtain ⟨q, h, hrun, hgrows, hh, hq, hchanged⟩ :=
    foldlM_normal (p := {}) hnodes (.refl hP.wellFormed) hP fun x => rfl
  refine ⟨h, ?_, hgrows, hh⟩
  rw [run_pass, hrun]
  simp only [hq root, hchanged]

/-! ### From a graph to its pruned twin -/

theorem readers_eq (hg : g.Sound) (hgrows : g.Grows g') (hnodes : ∀ r ∈ nodes, r < g.size)
    (r : Ref) : g'.readers nodes r = g.readers nodes r :=
  List.filter_congr fun n hn => by rw [hgrows.sources_eq hg (hnodes n hn)]

theorem readersFor_eq (t : RuleTable) (hg : g.Sound) (hgrows : g.Grows g') (hroot : root < g.size) :
    t.readersFor g' root = t.readersFor g root := by
  have hreaders := readers_eq hg hgrows fun r hr => hg.order_lt hroot hr
  simp only [readersFor, consumers, hgrows.order_eq hg hroot, hreaders]

theorem readersRel_readersFor {C : Correspondence} {a b : Ref} (t : RuleTable) (hC : C.Over g h)
    (hab : C.Rel g h a b) : Rule.ReadersRel C g h (t.readersFor g a) (t.readersFor h b) := by
  have horder := C.order hC hab
  have hreaders : ∀ {x y}, C.Rel g h x y →
      List.Forall₂ (C.Rel g h) (g.readers (g.order a) x) (h.readers (h.order b) y) := fun hxy =>
    List.rel_filter (fun _ _ hn => Bool.eq_iff_iff.mp (C.contains hC hxy (C.sources hC hn))) horder
  rw [readersFor, readersFor]
  split
  · refine List.rel_map (fun _ _ hxy => ⟨hxy, hreaders hxy⟩) (List.rel_filter (fun x y hxy => ?_) horder)
    have hlength := (hreaders hxy).length_eq
    simp only [Bool.not_eq_true', ← List.length_eq_zero_iff, List.isEmpty_eq_false_iff, ne_eq, hlength]
  · exact .nil

theorem Settled.normal {rs' : Readers} {i : Ref} (hr : Settled hoisting rs g r) (hP : P.Sound)
    (hrs : Rule.ReadersRel .twins g P rs rs') (htwin : Twin g P r i) : Normal hoisting rs' P i := by
  obtain ⟨g₀, hg₀, hgrows₀, hlt, hin, hnone⟩ := hr.exists_before
  intro h hgrows hh
  have hback : ∀ {a b}, a < g₀.size → Twin g P a b → Twin g₀ h a b := fun ha hab =>
    (hab.of_grows hg₀ hP hgrows₀ (.refl hP.wellFormed) ha hab.lt_size.2).grows
      (.refl hg₀.wellFormed) hgrows
  have hrs₀ : Rule.ReadersRel .twins g₀ h rs rs' := by
    refine ((List.forall₂_and_left rs rs').mpr ⟨hin, hrs⟩).imp fun x y hxy => ?_
    obtain ⟨⟨hx, hxs⟩, htwin, htwins⟩ := hxy
    exact ⟨hback hx htwin,
      ((List.forall₂_and_left _ _).mpr ⟨hxs, htwins⟩).imp fun _ _ hab => hback hab.1 hab.2⟩
  obtain ⟨hnone', hleads⟩ := step_none (C := .twins) ⟨hg₀, hh⟩ hrs₀ (hback hlt htwin) hnone
  exact ⟨hnone', hleads.right, hleads.after.2⟩

end RuleTable

section Normalize

variable {g g' h : Graph} {root top : Ref} {hoisting : Bool} {limit passes : Nat}

theorem run_normalizeFrom_succ (t : RuleTable) (limit passes : Nat) (root : Ref) (g : Graph) :
    (normalizeFrom t limit (passes + 1) root).run.run g =
      match (t.pass (t.readersFor g root) root).run.run g with
      | (.ok (next, changed), g') =>
        if changed then (normalizeFrom t limit passes (g'.resolve next)).run.run g'
        else (.ok (g'.prune (g'.resolve next)).2, (g'.prune (g'.resolve next)).1)
      | (.error e, g') => (.error e, g') := by
  rw [normalizeFrom, Build.run_get_bind, Build.run_bind]
  obtain ⟨_ | ⟨next, _ | _⟩, g'⟩ := (t.pass (t.readersFor g root) root).run.run g
  · rfl
  · simp only [Build.run_get_bind, Bool.false_eq_true, if_false]
    generalize g'.prune (g'.resolve next) = pruned
    rfl
  · simp only [Build.run_get_bind, if_true]

theorem run_normalize (t : RuleTable) (limit : Nat) (root : Ref) (g : Graph) :
    (normalize t limit root).run.run g = (normalizeFrom t limit limit (g.resolve root)).run.run g := by
  rw [normalize, Build.run_get_bind]

theorem exists_last_pass {P : Graph → Prop}
    (hkeeps : ∀ g root, g.Sound → root < g.size → P g → P (((RuleTable.kernel hoisting).pass
      ((RuleTable.kernel hoisting).readersFor g root) root).run.run g).2)
    (hg : g.Sound) (hP : P g) (hroot : root < g.size) (hlive : g.resolve root = root)
    (hrun : (normalizeFrom (.kernel hoisting) limit passes root).run.run g = (.ok top, g')) :
    ∃ g₀ root₀ G next, g₀.Sound ∧ P g₀ ∧ root₀ < g₀.size ∧ g₀.resolve root₀ = root₀ ∧
      ((RuleTable.kernel hoisting).pass ((RuleTable.kernel hoisting).readersFor g₀ root₀)
        root₀).run.run g₀ = (.ok (next, false), G) ∧
      G.prune (G.resolve next) = (g', top) := by
  induction passes generalizing g root with
  | zero => cases hrun
  | succ passes ih =>
    have hsound := RuleTable.pass_sound hoisting hg hroot
      (RuleTable.readersIn_readersFor (.kernel hoisting) hg hroot)
    have hkept := hkeeps g root hg hroot hP
    rw [run_normalizeFrom_succ] at hrun
    generalize hpass : ((RuleTable.kernel hoisting).pass
      ((RuleTable.kernel hoisting).readersFor g root) root).run.run g = run at hsound hkept hrun
    obtain ⟨e | ⟨next, _ | _⟩, G⟩ := run
    · cases hrun
    · obtain ⟨⟨rfl⟩, rfl⟩ := Prod.mk.inj hrun
      exact ⟨g, root, G, next, hg, hP, hroot, hlive, hpass, rfl⟩
    · have hwf := hsound.1.wellFormed
      exact ih hsound.1 hkept (hwf.resolve_lt (hsound.2 _ rfl)) (hwf.resolve_resolve next) hrun

theorem normalizeFrom_of_normal (hg : g.Sound) (htop : Twin g g top top)
    (hnodes : ∀ r ∈ g.order top, RuleTable.Normal hoisting
      ((RuleTable.kernel hoisting).readersFor g top) g r) (hprune : g.prune top = (g, top)) :
    (normalizeFrom (.kernel hoisting) limit (passes + 1) top).run.run g = (.ok top, g) := by
  obtain ⟨h, hpass, hgrows, hh⟩ := RuleTable.pass_normal hg fun r hr =>
    ⟨htop.order_left hg r hr, hnodes r hr⟩
  have htwin : Twin g h top top := htop.grows (.refl hg.wellFormed) hgrows
  rw [run_normalizeFrom_succ, hpass]
  simp only [Bool.false_eq_true, if_false, htwin.resolve_eq.2, ← htwin.prune_eq hg hh, hprune]

theorem normalizeFrom_normalizeFrom (hg : g.Sound) (hroot : root < g.size)
    (hlive : g.resolve root = root)
    (hrun : (normalizeFrom (.kernel hoisting) limit passes root).run.run g = (.ok top, g')) :
    g'.resolve top = top ∧ ∀ limit n,
      (normalizeFrom (.kernel hoisting) limit (n + 1) top).run.run g' = (.ok top, g') := by
  obtain ⟨g₀, root₀, G, next, hg₀, -, hroot₀, hlive₀, hpass, hprune⟩ :=
    exists_last_pass (P := fun _ => True) (fun _ _ _ _ _ => trivial) hg trivial hroot hlive hrun
  obtain ⟨hG, hgrows, rfl, hall⟩ := RuleTable.pass_unchanged hg₀ hroot₀
    (RuleTable.readersIn_readersFor _ hg₀ hroot₀) hpass
  have hmem := (hg₀.ordered_order hroot₀).2
  rw [hlive₀] at hmem
  have hself := (hall next hmem).1
  rw [hself.resolve_eq.1] at hprune
  obtain ⟨hsound, htwin, -⟩ := hself.prune hG
  rw [hprune] at hsound htwin
  -- Every node of the result is the twin of one that the last pass has looked at.
  have hsettled := (List.forall₂_and_left _ _).mpr
    ⟨fun r hr => (hall r (by rwa [← hgrows.order_eq hg₀ hroot₀])).2,
      Correspondence.twins.order ⟨hG, hsound⟩ htwin⟩
  have hreaders := RuleTable.readersRel_readersFor (.kernel hoisting) (C := .twins) ⟨hG, hsound⟩ htwin
  rw [RuleTable.readersFor_eq _ hg₀ hgrows hroot₀] at hreaders
  refine ⟨htwin.resolve_eq.2, fun limit n => normalizeFrom_of_normal hsound htwin.right ?_ ?_⟩
  · exact forall_right hsettled fun r i hri => hri.1.normal hsound hreaders hri.2
  · rw [← htwin.prune_eq hG hsound, hprune]

end Normalize

/-! ### Simplifying twice -/

/-- Simplifying what simplification has left takes one pass and changes neither the nodes nor the
root. -/
theorem normalize_normalize {g g' : Graph} {root top : Ref} {hoisting : Bool} {limit passes : Nat}
    (hg : g.Built) (hroot : root < g.size)
    (hrun : (normalize (.kernel hoisting) limit root).run.run g = (.ok top, g'))
    (hpasses : 1 ≤ passes) :
    (normalize (.kernel hoisting) passes top).run.run g' = (.ok top, g') := by
  have hsound := hg.sound
  rw [run_normalize] at hrun ⊢
  obtain ⟨hlive, hfixed⟩ := normalizeFrom_normalizeFrom hsound
    (hsound.wellFormed.resolve_lt hroot) (hsound.wellFormed.resolve_resolve root) hrun
  obtain ⟨n, rfl⟩ := Nat.exists_eq_add_of_le' hpasses
  rw [hlive]
  exact hfixed (n + 1) n

/-- A sum of a loop and an offset. -/
def offsetLoop : Graph :=
  let zero : Instr := ⟨.const (.int 0), .index⟩
  let four : Instr := ⟨.const (.int 4), .index⟩
  let three : Instr := ⟨.const (.int 3), .index⟩
  [zero, four, ⟨.loop 0 1 ⟨.reduce, 0⟩, .index⟩, three, ⟨.binary .add 2 3, .index⟩].foldl
    (fun g n => (g.insert n).2) {}

theorem built_offsetLoop : offsetLoop.Built :=
  .insert (.insert (.insert (.insert (.insert .empty (by decide)) (by decide)) (by decide))
    (by decide)) (by decide)

/-- The loop with the offset in its bounds. -/
def shiftedLoop : Graph where
  nodes := #[⟨.const (.int 3), .index⟩, ⟨.const (.int 7), .index⟩, ⟨.loop 0 1 ⟨.reduce, 0⟩, .index⟩]
  home := #[0, 1, 2]

theorem normalize_normalize_offsetLoop :
    (normalize (.kernel true) 8 4).run.run offsetLoop = (.ok 2, shiftedLoop) ∧
      (normalize (.kernel true) 1 2).run.run shiftedLoop = (.ok 2, shiftedLoop) := by
  have hrun : (normalize (.kernel true) 8 4).run.run offsetLoop = (.ok 2, shiftedLoop) :=
    Build.run_eq_ok (by decide +kernel) (by decide +kernel)
  exact ⟨hrun, normalize_normalize built_offsetLoop (by decide +kernel) hrun (Nat.le_refl 1)⟩

end LazyTensor

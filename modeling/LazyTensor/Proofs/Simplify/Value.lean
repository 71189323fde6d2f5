import LazyTensor.Proofs.Simplify.Idempotent
import LazyTensor.Proofs.Simplify.Split

/-!
# Simplification keeps the value of index arithmetic

Every rule leads from a node to one that can stand for it. A pass builds, for every node that it
visits, a node that stands for it over those that stand for its sources, and pruning keeps what the
root unfolds to.
-/

namespace LazyTensor

open LazyTensor.Graph

namespace Graph

variable {S : Setting} {g g' g'' : Graph} {r r' r'' : Ref}

/-- A node that can take the place of `r` for everything that reads it. -/
structure StandsFor (S : Setting) (g : Graph) (r r' : Ref) (g' : Graph) : Prop where
  replaces : g.Replaces S (fun _ => True) r r' g'
  keeps : g.Keeps r g' r'

theorem StandsFor.term (h : g.StandsFor S r r' g') : g'.Term S (fun _ => True) r' := h.replaces.term

theorem StandsFor.trans (h : g.StandsFor S r r' g') (h' : g'.StandsFor S r' r'' g'') :
    g.StandsFor S r r'' g'' := by
  refine ⟨⟨h'.term, h'.replaces.dtype.trans h.replaces.dtype, fun env v hv => ?_⟩,
    h.keeps.trans h'.keeps⟩
  exact h'.replaces.value env v (h.replaces.value env v hv)

theorem standsFor_self (hr : g.Term S (fun _ => True) r) : g.StandsFor S r r g :=
  ⟨hr.result, .refl g r⟩

theorem Grows.standsFor (h : g.Grows g') (hg : g.WellFormed) (hr : g.Term S (fun _ => True) r) :
    g.StandsFor S r r g' :=
  ⟨hr.result.grows hg h, keeps_of_get (h.get_eq hg (hr.lt_size hg))⟩

theorem StandsFor.grows (h : g.StandsFor S r r' g') (hg' : g'.WellFormed) (hgrows : g'.Grows g'') :
    g.StandsFor S r r' g'' :=
  h.trans (hgrows.standsFor hg' h.term)

theorem StandsFor.resolve (h : g.StandsFor S r r' g') (hg' : g'.WellFormed) :
    g.StandsFor S r (g'.resolve r') g' :=
  h.trans ⟨h.term.result.resolve hg', keeps_of_get (get_resolve hg' r')⟩

theorem StandsFor.of_resolve (h : g.StandsFor S (g.resolve r) r' g') (hg : g.WellFormed) :
    g.StandsFor S r r' g' := by
  refine ⟨⟨h.term, ?_, fun env v hv => ?_⟩, (keeps_of_get (get_resolve hg r)).trans h.keeps⟩
  · rw [h.replaces.dtype, dtype, get_resolve hg, dtype]
  · refine h.replaces.value env v ?_
    rwa [value_resolve hg]

end Graph

/-- Index arithmetic outside of kernels, where loops may be anywhere. -/
structure Setting.Indexing (S : Setting) : Prop where
  grid : S.grid = none
  ints : ∀ t, S.ints t → t = .index
  place : ∀ b i j, S.place b i → S.place b j

/-- Nothing is hoisted: no readers are told, or there are no loops. -/
def Setting.Unhoisted (S : Setting) (rs : Readers) : Prop :=
  rs = [] ∨ ∀ axis i, ¬S.place (.loop axis) i

namespace Graph

variable {S : Setting} {g g' : Graph} {r r' : Ref}

theorem Mirrors.standsFor {f : Ref → Ref} (hS : S.Indexing)
    (h : g.Mirrors r f g' r') (hr : g.Term S (fun _ => True) r)
    (hsource : ∀ s ∈ (g.op r).sources, g.StandsFor S s (f s) g') : g.StandsFor S r r' g' := by
  have hphi : (g.op r).scopes = [] := by
    have hgrid := hr.placed.grid
    rw [hS.grid] at hgrid
    cases hop : g.op r <;> simp_all [Op.scopes]
  refine ⟨⟨h.term hr (fun b hb => hS.place b _ _ (hr.placed.binder b hb).1) (fun s hs =>
    (hsource s (Op.operands_subset hs)).term) (by simp [hphi]) fun s hs => (hsource s hs).term,
    h.dtype, fun env v hv => ?_⟩, ?_⟩
  · rw [value_eq] at hv ⊢
    refine h.evalStep (E := fun _ => True) (fun _ _ _ => ⟨fun _ _ => trivial, fun _ _ => trivial⟩)
      (fun s hs env _ v hv => (hsource s (Op.operands_subset hs)).replaces.value env v hv)
      (by simp [hphi]) trivial hv
  · refine ⟨h.dtype, fun v hop => ?_, fun slot hop => ?_, fun slot init ls hop => ⟨ls.map f, ?_⟩,
      fun start stop axis hop => ⟨f start, f stop, ?_⟩⟩
    all_goals rw [h.op, hop]; rfl

end Graph

/-! ### Rules -/

namespace Rule

variable {S : Setting} {g g' : Graph} {r r' : Ref} {rs : Readers} {hoisting : Bool} {rule : Rule}
  {A : Binder → Prop}

theorem rangesHold (hS : S.Indexing) (hr : g.Term S A r) : RangesHold g r := by
  intro s hs hrange hindex
  refine absurd (hS.ints _ ((hr.operand hs).placed.int ?_)) hindex
  by_contra hint
  simp [range, maxRangeDepth, rangeAt, hint] at hrange

theorem hoistOffset_fails (hr : g.Term S A r) (hhoist : S.Unhoisted rs) :
    (hoistOffset rs r).run.run g = (none, g) := by
  rw [hoistOffset, Attempt.run_get_bind]
  cases hsum : counterSum? g r with
  | none => rfl
  | some p =>
    obtain ⟨range, offset⟩ := p
    obtain ⟨⟨a, b, hop⟩, hrange, -⟩ := counterSum?_eq_some hsum
    simp only [Attempt.ofOption_some_bind]
    cases hrop : g.op range with
    | loop start stop axis =>
      have hmem : range ∈ (g.op r).operands := by rwa [hop] at hrange ⊢
      have hplace := ((hr.operand hmem).placed.binder (.loop axis) (by rw [hrop]; rfl)).1
      obtain rfl := hhoist.resolve_right fun hno => hno axis _ hplace
      dsimp only
      by_cases hrefuse : (g.range offset).isNone ∨ (g.order offset).any fun n => (g.op n).isLoop
      · rw [if_pos hrefuse]
        rfl
      · rw [if_neg hrefuse, if_pos (by simp)]
        rfl
    | _ => rfl

theorem sound_apply (hg : g.Sound) (hr : r < g.size) (hrule : rule ∈ RuleTable.symbolicRules)
    (rs : Readers) : ((rule.apply rs r).run.run g).2.Sound := by
  obtain ⟨apply, happly, huniform⟩ := uniform_symbolicRules hrule
  rw [happly]
  exact (huniform (C := .nodes) ⟨rfl, hg⟩ ⟨rfl, hr⟩).1.after.2

theorem ensures_replaces (hS : S.Indexing) (hhoist : S.Unhoisted rs) (hg : g.Sound)
    (hr : g.Term S A r) (hrule : rule ∈ (RuleTable.kernel hoisting).rules)
    (hkind : rule.appliesTo (g.op r).kind = true) :
    Attempt.Ensures (rule.apply rs r) g (g.Replaces S A r) ∧
      ((rule.apply rs r).run.run g).2.Sound := by
  have hwf := hg.wellFormed
  have hother : (g.op r).kind ∉ [.load, .store, .sink, .phi] := by
    have htyped := hr.typed
    have hgrid := hr.placed.grid
    rw [hS.grid] at hgrid
    cases hop : g.op r <;> simp_all [Typed, Op.kind]
  rcases List.mem_append.mp hrule with hrule | hrule
  · refine ⟨?_, sound_apply hg (hr.lt_size hwf) hrule rs⟩
    rcases mem_symbolicRules hrule with hrule | hrule
    · exact algebraic_replaces hg hr hrule rs
    simp only [RuleTable.symbolicRules, List.drop_succ_cons, List.drop_zero, List.mem_cons,
      List.not_mem_nil, or_false] at hrule
    rcases hrule with rfl | rfl | rfl | rfl | rfl | rfl | rfl | rfl
    · exact foldByRange_replaces hg hr (rangesHold hS hr)
    · exact splitDivision_replaces hg hr
    iterate 6 exact absurd hkind (by simp_all [appliesTo])
  · obtain rfl := List.mem_singleton.mp hrule
    rw [Attempt.Ensures]
    simp only [hoistOffset_fails hr hhoist]
    exact ⟨⟨.refl hwf, by simp⟩, hg⟩

theorem keeps_of_appliesTo (hrule : rule ∈ (RuleTable.kernel hoisting).rules)
    (hkind : rule.appliesTo (g.op r).kind = true) (hdtype : g'.dtype r' = g.dtype r) :
    g.Keeps r g' r' := by
  have hkinds : (g.op r).kind ∉ [.const, .defineGlobal, .defineAcc, .loop] := by
    simp only [RuleTable.kernel, RuleTable.symbolicRules, RuleTable.hoistingRules, List.cons_append,
      List.nil_append, List.mem_cons, List.not_mem_nil, or_false] at hrule
    rcases hrule with rfl | rfl | rfl | rfl | rfl | rfl | rfl | rfl | rfl | rfl | rfl | rfl | rfl |
      rfl | rfl | rfl | rfl | rfl | rfl | rfl | rfl <;> simp_all [appliesTo]
  refine ⟨hdtype, ?_, ?_, ?_, ?_⟩ <;> intros <;> simp_all [Op.kind]

end Rule

namespace RuleTable

variable {S : Setting} {g g' g₀ : Graph} {r node root : Ref} {rs : Readers} {hoisting : Bool}
  {rules : List Rule} {p q : Pass} (hS : S.Indexing) (hhoist : S.Unhoisted rs)

include hS hhoist

theorem firstMatch_standsFor (hoisting : Bool) (hg : g.Sound) (hr : g.Term S (fun _ => True) r)
    (hrules : ∀ rule ∈ rules, rule ∈ (kernel hoisting).rules ∧
      rule.appliesTo (g.op r).kind = true) :
    Attempt.Ensures (OptionT.mk (firstMatch rs r rules)) g (fun x g' => g.StandsFor S r x.2 g') ∧
      ((firstMatch rs r rules).run g).2.Sound := by
  induction rules generalizing g with
  | nil => exact ⟨⟨.refl hg.wellFormed, nofun⟩, hg⟩
  | cons rule rules ih =>
    rw [List.forall_mem_cons] at hrules
    obtain ⟨⟨hrule, hkind⟩, hrules⟩ := hrules
    obtain ⟨⟨hgrows, hreplaces⟩, hsound⟩ := Rule.ensures_replaces hS hhoist hg hr hrule hkind
    simp only [Attempt.Ensures, OptionT.run_mk, run_firstMatch_cons]
    generalize (rule.apply rs r).run.run g = run at hgrows hreplaces hsound
    obtain ⟨o, g'⟩ := run
    have hself := hgrows.standsFor hg.wellFormed hr
    have hop := hgrows.op_eq hg.wellFormed (hr.lt_size hg.wellFormed)
    obtain ⟨⟨hgrows', hrest⟩, hsound'⟩ := ih hsound hself.term (by rwa [hop])
    have hskip := And.intro (And.intro (hgrows.trans hgrows')
      fun x hx => hself.trans (hrest x hx)) hsound'
    cases o with
    | none => exact hskip
    | some next =>
      have hnext := hreplaces next rfl
      simp only
      split_ifs
      · exact hskip
      · refine ⟨⟨hgrows, ?_⟩, hsound⟩
        rintro _ ⟨⟩
        exact StandsFor.resolve ⟨hnext, Rule.keeps_of_appliesTo hrule hkind hnext.dtype⟩
          hgrows.wellFormed

theorem step_standsFor (hoisting : Bool) (hg : g.Sound) (hr : g.Term S (fun _ => True) r) :
    Attempt.Ensures (OptionT.mk ((kernel hoisting).step rs r)) g
      (fun x g' => g.StandsFor S r x.2 g') ∧ (((kernel hoisting).step rs r).run g).2.Sound := by
  have hwf := hg.wellFormed
  have hmatch := firstMatch_standsFor hS hhoist hoisting hg (hr.result.resolve hwf).term
    fun rule hrule => List.mem_filter.mp hrule
  exact ⟨hmatch.1.mono fun x g' _ hx => hx.of_resolve hwf, hmatch.2⟩

theorem settle_standsFor (hoisting : Bool) (node : Ref) (remaining : Nat) {g : Graph} {r : Ref}
    (hg : g.Sound) (hr : g.Term S (fun _ => True) r) :
    ((kernel hoisting).settle rs node remaining r).Ensures g (fun last g' =>
      g.StandsFor S r last g') ∧
      (((kernel hoisting).settle rs node remaining r).run.run g).2.Sound := by
  obtain ⟨⟨hgrows, hnext⟩, hsound⟩ := step_standsFor hS hhoist hoisting hg hr
  simp only [OptionT.run_mk] at hgrows hnext
  rw [Build.Ensures, run_settle]
  generalize ((kernel hoisting).step rs r).run g = run at hgrows hnext hsound
  obtain ⟨_ | x, g'⟩ := run
  · refine ⟨⟨hgrows, ?_⟩, hsound⟩
    rintro _ ⟨⟩
    exact hgrows.standsFor hg.wellFormed hr
  · have hstands := hnext x rfl
    cases remaining with
    | zero => exact ⟨⟨hgrows, by simp⟩, hsound⟩
    | succ remaining =>
      obtain ⟨⟨hgrows', hlast⟩, hsound'⟩ := settle_standsFor hoisting node remaining hsound
        hstands.term
      exact ⟨⟨hgrows.trans hgrows', fun last hok => hstands.trans (hlast last hok)⟩, hsound'⟩

/-! ### Passes -/

omit hhoist in
theorem insert_rebuilt_standsFor (hg₀ : g₀.Sound) (hg : g.Sound) (hgrows : g₀.Grows g)
    (hnode : g₀.Term S (fun _ => True) node)
    (hdone : ∀ s ∈ g₀.sources node, g₀.StandsFor S s (p.resultFor s) g) :
    (g.insert (rebuilt g p node)).2.Sound ∧ g.Grows (g.insert (rebuilt g p node)).2 ∧
      g₀.StandsFor S node (g.insert (rebuilt g p node)).1 (g.insert (rebuilt g p node)).2 := by
  obtain ⟨hgrows', hholds⟩ := insert_spec hg.wellFormed (rebuilt g p node)
  have hwf := hg₀.wellFormed
  have hget : g.get node = g₀.get node := hgrows.get_eq hwf (hnode.lt_size hwf)
  have hresult : ∀ s ∈ (g₀.op node).sources, g₀.StandsFor S s (p.resultFor (g.resolve s)) g := by
    intro s hs
    rw [hgrows.resolve_eq hwf (hg₀.source_lt (hnode.lt_size hwf) hs)]
    exact (hdone (g₀.resolve s) (List.mem_map_of_mem hs)).of_resolve hwf
  have hsource := fun s hs =>
    ((hresult s hs).resolve hg.wellFormed).grows hg.wellFormed hgrows'
  refine ⟨hg.insert ?_, hgrows',
    Mirrors.standsFor hS ⟨?_, ?_, fun s hs => (hsource s hs).keeps⟩ hnode hsource⟩
  · simp only [rebuilt, Op.sources_mapSources, List.forall_mem_map, hget]
    exact fun s hs => (hresult s hs).term.lt_size hg.wellFormed
  · rw [op, hholds.get_eq, resolved, rebuilt, hget, Op.mapSources_mapSources]
    rfl
  · rw [dtype, hholds.get_eq, resolved, rebuilt, hget]
    rfl

theorem visit_standsFor (hg₀ : g₀.Sound) (hg : g.Sound) (hgrows : g₀.Grows g)
    (hnode : g₀.Term S (fun _ => True) node) {done : List Ref}
    (hdone : ∀ s ∈ done, g₀.StandsFor S s (p.resultFor s) g)
    (hsources : ∀ s ∈ g₀.sources node, s ∈ done) :
    ((kernel hoisting).visit rs p node).Ensures g fun q g' =>
      g'.Sound ∧ ∀ s ∈ done ++ [node], g₀.StandsFor S s (q.resultFor s) g' := by
  obtain ⟨hsound, hgrows₁, hstart⟩ := insert_rebuilt_standsFor hS hg₀ hg hgrows hnode fun s hs =>
    hdone s (hsources s hs)
  obtain ⟨⟨hgrows₂, hlast⟩, hsound⟩ := settle_standsFor hS hhoist hoisting node maxApplications
    hsound hstart.term
  rw [Build.Ensures, run_visit]
  generalize ((kernel hoisting).settle rs node maxApplications _).run.run _ = run
    at hgrows₂ hlast hsound
  obtain ⟨e | last, g'⟩ := run
  · exact ⟨hgrows₁.trans hgrows₂, by simp⟩
  · refine ⟨hgrows₁.trans hgrows₂, ?_⟩
    rintro _ ⟨⟩
    refine ⟨hsound, fun s hs => ?_⟩
    have hg' := hgrows₂.wellFormed
    rw [Pass.resultFor, List.lookup_cons]
    by_cases heq : s = node
    · rw [heq, beq_self_eq_true, Option.getD_some]
      exact (hstart.trans (hlast last rfl)).resolve hg'
    · rw [beq_false_of_ne heq]
      have hmem : s ∈ done := by simpa [heq] using hs
      exact (hdone s hmem).grows hg.wellFormed (hgrows₁.trans hgrows₂)

theorem foldlM_standsFor (hoisting : Bool) (hg₀ : g₀.Sound) (hroot : root < g₀.size)
    (hterms : ∀ r ∈ g₀.order root, g₀.Term S (fun _ => True) r) (done : List Ref)
    {after : List Ref} (horder : g₀.order root = done ++ after) (hg : g.Sound)
    (hgrows : g₀.Grows g) (hdone : ∀ s ∈ done, g₀.StandsFor S s (p.resultFor s) g) :
    (after.foldlM ((kernel hoisting).visit rs) p).Ensures g fun q g' =>
      ∀ s ∈ g₀.order root, g₀.StandsFor S s (q.resultFor s) g' := by
  induction after generalizing done g p with
  | nil =>
    rw [List.append_nil] at horder
    rw [horder]
    exact Build.ensures_pure hg.wellFormed hdone
  | cons node after ih =>
    rw [List.foldlM_cons]
    have hmem : node ∈ g₀.order root := by rw [horder]; simp
    refine (visit_standsFor hS hhoist hg₀ hg hgrows (hterms node hmem) hdone
      (hg₀.sources_done hroot horder)).bind fun q g' hgrows' hq => ?_
    exact ih (done ++ [node]) (by rw [horder]; simp) hq.1 (hgrows.trans hgrows') hq.2

theorem pass_standsFor (hoisting : Bool) (hg : g.Sound) (hroot : root < g.size) (hlive : g.resolve root = root)
    (hterms : ∀ r ∈ g.order root, g.Term S (fun _ => True) r) :
    ((kernel hoisting).pass rs root).Ensures g fun x g' => g.StandsFor S root x.1 g' := by
  have hfold := foldlM_standsFor (p := {}) hS hhoist hoisting hg hroot hterms []
    (List.nil_append _).symm hg (.refl hg.wellFormed) (by simp)
  have hmem := (hg.ordered_order hroot).2
  rw [hlive] at hmem
  obtain ⟨hgrows, hstands⟩ := hfold
  rw [Build.Ensures, run_pass]
  generalize ((g.order root).foldlM ((kernel hoisting).visit rs) {}).run.run g = run
    at hgrows hstands
  obtain ⟨e | p, g'⟩ := run
  · exact ⟨hgrows, by simp⟩
  · refine ⟨hgrows, ?_⟩
    rintro _ ⟨⟩
    exact hstands p rfl root hmem

end RuleTable

/-! ### Runs -/

namespace Graph

variable {S : Setting} {g h g' : Graph} {r a b root : Ref}

theorem Twin.standsFor (hS : S.Indexing) (hab : Twin g h a b) (ha : g.Term S (fun _ => True) a) :
    g.StandsFor S a b h := by
  induction hab with
  | @node a b o t f left right _ ih =>
    have hop : g.op a = o := left.op_eq
    have hsource : ∀ s ∈ (g.op a).sources, g.StandsFor S s (f s) h := by
      intro s hs
      exact ih s (by rwa [← hop]) (ha.source hs)
    refine Mirrors.standsFor hS ⟨?_, ?_, fun s hs => (hsource s hs).keeps⟩ ha hsource
    · rw [right.op_eq, hop]
    · rw [right.dtype_eq, left.dtype_eq]

theorem Term.of_mem_order (hr : g.Term S (fun _ => True) root) (hg : g.Sound) :
    ∀ r ∈ g.order root, g.Term S (fun _ => True) r := by
  have hwf := hg.wellFormed
  refine hg.forall_order (hr.lt_size hwf) (hr.result.resolve hwf).term fun a ha s hs => ?_
  obtain ⟨t, ht, rfl⟩ := List.mem_map.mp hs
  exact ((ha.source ht).result.resolve hwf).term

end Graph

section Normalize

variable {S : Setting} {g g' : Graph} {root top : Ref} {hoisting : Bool} {limit passes : Nat}

theorem normalizeFrom_standsFor (hS : S.Indexing)
    (hhoist : hoisting = false ∨ ∀ axis i, ¬S.place (.loop axis) i) (hg : g.Sound)
    (hroot : g.Term S (fun _ => True) root) (hlive : g.resolve root = root)
    (hrun : (normalizeFrom (.kernel hoisting) limit passes root).run.run g = (.ok top, g')) :
    g.StandsFor S root top g' := by
  induction passes generalizing g root with
  | zero => cases hrun
  | succ passes ih =>
    have hlt := hroot.lt_size hg.wellFormed
    have hterms := hroot.of_mem_order hg
    have hreaders := RuleTable.readersIn_readersFor (.kernel hoisting) hg hlt
    have hunhoisted : S.Unhoisted ((RuleTable.kernel hoisting).readersFor g root) :=
      hhoist.imp_left fun hoff => by rw [hoff]; rfl
    have hstands := (RuleTable.pass_standsFor hS hunhoisted hoisting hg hlt hlive hterms).2
    have hsound := RuleTable.pass_sound hoisting hg hlt hreaders
    rw [run_normalizeFrom_succ] at hrun
    generalize hpass : ((RuleTable.kernel hoisting).pass
      ((RuleTable.kernel hoisting).readersFor g root) root).run.run g = run
      at hsound hstands hrun
    obtain ⟨e | ⟨next, _ | _⟩, G⟩ := run
    · cases hrun
    · obtain ⟨⟨rfl⟩, rfl⟩ := Prod.mk.inj hrun
      obtain ⟨hG, hgrows, rfl, hall⟩ := RuleTable.pass_unchanged hg hlt hreaders hpass
      have hmem := (hg.ordered_order hlt).2
      rw [hlive] at hmem
      have hself := (hall next hmem).1
      simp only [hself.resolve_eq.1]
      have hnext : g.StandsFor S next next G := hstands _ rfl
      exact hnext.trans ((hself.prune hG).2.1.standsFor hS hnext.term)
    · have hwf := hsound.1.wellFormed
      have hnext := (hstands _ rfl).resolve hwf
      exact hnext.trans (ih hsound.1 hnext.term (hwf.resolve_resolve next) hrun)

end Normalize

/-! ### Index arithmetic -/

namespace Graph

variable {g : Graph} {root r : Ref}

/-- The nodes under a root are arithmetic on indices and truth values. -/
def IndexArithmetic (g : Graph) (root : Ref) : Prop :=
  ∀ r ∈ g.order root, (g.dtype r = .index ∨ g.dtype r = .bool) ∧
    (g.op r).kind ∈ [.const, .defineVar, .loop, .special, .cast, .unary, .binary, .ternary]

instance (g : Graph) (root : Ref) : Decidable (g.IndexArithmetic root) :=
  inferInstanceAs (Decidable (∀ r ∈ g.order root, _))

def indexSetting (loops : Prop) : Setting := ⟨fun _ _ => loops, none, (· = .index)⟩

theorem indexSetting_indexing (loops : Prop) : (indexSetting loops).Indexing :=
  ⟨rfl, fun _ => id, fun _ _ _ => id⟩

theorem Admits.typed (h : g.Admits (g.get r)) (ht : g.dtype r = .index ∨ g.dtype r = .bool)
    (hkind : (g.op r).kind ∈ [.const, .defineVar, .loop, .special, .cast, .unary, .binary, .ternary])
    (hsources : ∀ s ∈ (g.op r).sources, (g.dtype s).IsPlain) : g.Typed r := by
  have hplain : (g.dtype r).IsPlain := by rcases ht with ht | ht <;> rw [ht] <;> decide
  have hadmits : g.Admits ⟨g.op r, g.dtype r⟩ := h
  cases hop : g.op r with
  | const v =>
    rw [hop] at hadmits
    simp only [Typed, hop]
    exact ⟨hplain, hadmits hplain⟩
  | cast a =>
    simp only [Typed, hop]
    exact ⟨hplain, hsources a (by simp [hop, Op.sources])⟩
  | binary op a b =>
    rw [hop] at hadmits
    simp only [Typed, hop]
    exact ⟨hsources a (by simp [hop, Op.sources]), hadmits⟩
  | defineVar | special | loop =>
    rw [hop] at hadmits
    simp only [Typed, hop]
    exact hadmits
  | unary | ternary =>
    rw [hop] at hadmits
    simp only [Typed, hop]
    exact ⟨hplain, hadmits⟩
  | _ => simp [hop, Op.kind] at hkind

theorem IndexArithmetic.term {loops : Prop} (harith : g.IndexArithmetic root) (hg : g.Constructed)
    (hroot : root < g.size) (hloops : loops ∨ ∀ r ∈ g.order root, (g.op r).isLoop = false) :
    g.Term (indexSetting loops) (fun _ => True) root := by
  have hsound := hg.built.sound
  have hwf := hsound.wellFormed
  obtain ⟨hord, hmem⟩ := hsound.ordered_order hroot
  have hread : ∀ x ∈ g.order root, ∀ s ∈ (g.op x).sources, g.resolve s ∈ g.order root :=
    fun x hx s hs => List.mem_reverse.mp
      (hord.mem_of_reads (List.mem_reverse.mpr hx) (List.mem_map_of_mem hs))
  have hplain : ∀ x ∈ g.order root, (g.dtype x).IsPlain := fun x hx => by
    rcases (harith x hx).1 with ht | ht <;> rw [ht] <;> decide
  -- The order holds the slots that stand for others, so the induction is on those.
  have hterm : ∀ x, g.Founded x → x ∈ g.order root → ∀ r, g.get r = g.get x →
      g.Term (indexSetting loops) (fun _ => True) r := by
    intro x hfounded
    induction hfounded with
    | intro x _ ih =>
      intro hx r hget
      have hop : g.op r = g.op x := congrArg Instr.op hget
      have hdtype : g.dtype r = g.dtype x := congrArg Instr.dtype hget
      obtain ⟨ht, hkind⟩ := harith x hx
      have hsources : ∀ s ∈ (g.op r).sources, g.Term (indexSetting loops) (fun _ => True) s := by
        rw [hop]
        intro s hs
        exact ih (g.resolve s) (List.mem_map_of_mem hs) (hread x hx s hs) s (get_resolve hwf s).symm
      have htyped : g.Typed r := by
        have hadmits := hg.admits (hsound.order_lt hroot hx)
        rw [← hget] at hadmits
        refine hadmits.typed (by rwa [hdtype]) (by rwa [hop]) fun s hs => ?_
        rw [hop] at hs
        have hs := hplain _ (hread x hx s hs)
        rwa [dtype, get_resolve hwf] at hs
      refine .node htyped ⟨fun b hb => ⟨?_, trivial⟩, fun hint => ?_, ?_⟩
        (fun s hs => hsources s (Op.operands_subset hs)) ?_ hsources
      · rw [hop] at hb
        cases hopx : g.op x with
        | loop start stop axis =>
          refine hloops.resolve_right fun hno => ?_
          have hfalse := hno x hx
          rw [hopx] at hfalse
          cases hfalse
        | defineAcc => simp [hopx, Op.kind] at hkind
        | _ => simp [hopx, Op.binder?] at hb
      · rw [hdtype] at hint ⊢
        rcases ht with ht | ht
        · exact ht
        · rw [ht] at hint
          cases hint
      · rw [hop]
        cases hopx : g.op x with
        | defineVar => rfl
        | special => simp [indexSetting]
        | phi | load => simp [hopx, Op.kind] at hkind
        | _ => trivial
      · rw [hop]
        cases hopx : g.op x with
        | phi => simp [hopx, Op.kind] at hkind
        | _ => simp [Op.scopes]
  exact hterm _ (hsound.founded (hwf.resolve_lt hroot)) hmem root (get_resolve hwf root).symm

end Graph

/-- Simplification of index arithmetic keeps the type of the root and its value, if nothing is
hoisted or there are no loops. -/
theorem normalize_evaluates {g g' : Graph} {root top : Ref} {hoisting : Bool} {limit : Nat}
    (hg : g.Constructed) (hroot : root < g.size) (harith : g.IndexArithmetic root)
    (hhoist : hoisting = false ∨ ∀ r ∈ g.order root, (g.op r).isLoop = false)
    (hrun : (normalize (.kernel hoisting) limit root).run.run g = (.ok top, g')) :
    g'.dtype top = g.dtype root ∧
      ∀ env v, g.Evaluates env root v → g'.Evaluates env top v := by
  have hsound := hg.built.sound
  have hterm := harith.term hg hroot hhoist
  have hresolve := (standsFor_self hterm).resolve hsound.wellFormed
  rw [run_normalize] at hrun
  have hhoist' : hoisting = false ∨ ∀ axis i, ¬(indexSetting (hoisting = false)).place (.loop axis) i :=
    (Classical.em (hoisting = false)).imp_right fun hon _ _ => hon
  have hstands := hresolve.trans (normalizeFrom_standsFor (indexSetting_indexing _) hhoist' hsound
    hresolve.term (hsound.wellFormed.resolve_resolve root) hrun)
  refine ⟨hstands.replaces.dtype, fun env v hv => ?_⟩
  exact value_eq_some.mp (hstands.replaces.value env v (value_eq_some.mpr hv))

/-- The quotient by six of six times a loop counter and five. -/
def scaledLoop : Graph :=
  [.const (.int 0) .index, .const (.int 3) .index, .loop 0 1 ⟨.global, 0⟩, .const (.int 6) .index,
    .binary .mul 2 3, .const (.int 5) .index, .binary .add 4 5, .binary .idiv 6 3].foldl
    (fun g c => ((Construction.build c).run.run g).2) {}

theorem constructed_scaledLoop : scaledLoop.Constructed := by
  refine .call _ (.call _ (.call _ (.call _ (.call _ (.call _ (.call _ (.call _ .empty ?_) ?_) ?_)
    ?_) ?_) ?_) ?_) ?_
  all_goals decide +kernel

def plainLoop : Graph where
  nodes := #[⟨.const (.int 0), .index⟩, ⟨.const (.int 3), .index⟩, ⟨.loop 0 1 ⟨.global, 0⟩, .index⟩]
  home := #[0, 1, 2]

theorem normalize_evaluates_scaledLoop :
    (normalize (.kernel false) 8 7).run.run scaledLoop = (.ok 2, plainLoop) ∧
      scaledLoop.Evaluates (Env.empty.setIter ⟨.global, 0⟩ 2) 7 (.int 2) ∧
      plainLoop.Evaluates (Env.empty.setIter ⟨.global, 0⟩ 2) 2 (.int 2) := by
  have hrun : (normalize (.kernel false) 8 7).run.run scaledLoop = (.ok 2, plainLoop) :=
    Build.run_eq_ok (by decide +kernel) (by decide +kernel)
  have hvalue : scaledLoop.Evaluates (Env.empty.setIter ⟨.global, 0⟩ 2) 7 (.int 2) :=
    evaluates_of_evalAt (show scaledLoop.evalAt 8 _ 7 = _ by decide +kernel)
  exact ⟨hrun, hvalue, (normalize_evaluates constructed_scaledLoop (by decide +kernel)
    (by decide +kernel) (.inl rfl) hrun).2 _ _ hvalue⟩

end LazyTensor

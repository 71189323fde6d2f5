import LazyTensor.Linear.Emit
import LazyTensor.Proofs.Linear.Scope

/-!
# Emission

Nodes are emitted one by one, each where the open scopes are its own and after what it reads. The
invariant of the emission says this of the entries so far, and that these and the pending nodes are
all the nodes there are.
-/

namespace LazyTensor

namespace Emit

variable {g : Graph} {s : Scopes} {es es' : List Entry} {r x : Ref}

/-! ### Entries -/

def nodesOf (es : List Entry) : List Ref :=
  es.filterMap fun
    | .node r => some r
    | .close _ => none

@[simp] theorem nodesOf_node (r : Ref) (es : List Entry) : nodesOf (.node r :: es) = r :: nodesOf es :=
  rfl

@[simp] theorem nodesOf_close (x : Ref) (es : List Entry) : nodesOf (.close x :: es) = nodesOf es := rfl

theorem mem_nodesOf : r ∈ nodesOf es ↔ .node r ∈ es := by
  induction es with
  | nil => simp [nodesOf]
  | cons e es ih => cases e <;> simp [ih]

/-- The scopes that are open after entries of which the last comes first, innermost first. -/
def openAfter (g : Graph) : List Entry → List Ref
  | [] => []
  | .node r :: es => if (g.op r).opensScope then r :: openAfter g es else openAfter g es
  | .close _ :: es => (openAfter g es).tail

/-- Entries of which the last comes first stand in their scopes: a node where the open scopes are its
own and after what it reads, an end marker where the scope it closes is the innermost. -/
def Stands (g : Graph) (s : Scopes) : List Entry → Prop
  | [] => True
  | .node r :: es => (openAfter g es).reverse = s.chainOf r ∧ .node r ∉ es ∧
    ((g.op r).kind ≠ .defineAcc → ∀ d ∈ g.sources r, .node d ∈ es) ∧ Stands g s es
  | .close x :: es => (openAfter g es).head? = some x ∧ Stands g s es

theorem Stands.of_append (h : Stands g s (es' ++ es)) : Stands g s es := by
  induction es' with
  | nil => exact h
  | cons e es' ih =>
    cases e with
    | node r => exact ih h.2.2.2
    | close x => exact ih h.2

theorem opens_of_mem_openAfter (h : x ∈ openAfter g es) :
    .node x ∈ es ∧ (g.op x).opensScope = true := by
  induction es with
  | nil => cases h
  | cons e es ih =>
    cases e with
    | node r =>
      rw [openAfter] at h
      split at h
      · case isTrue hopens =>
          rcases List.mem_cons.mp h with rfl | h
          · exact ⟨List.mem_cons_self, hopens⟩
          · exact (ih h).imp_left (List.mem_cons_of_mem _)
      · exact (ih h).imp_left (List.mem_cons_of_mem _)
    | close y => exact (ih (List.mem_of_mem_tail h)).imp_left (List.mem_cons_of_mem _)

theorem Stands.nodup_openAfter (h : Stands g s es) : (openAfter g es).Nodup := by
  induction es with
  | nil => exact List.nodup_nil
  | cons e es ih =>
    cases e with
    | node r =>
      obtain ⟨-, hnew, -, hrest⟩ := h
      rw [openAfter]
      split
      · exact List.nodup_cons.mpr ⟨fun hmem => hnew (opens_of_mem_openAfter hmem).1, ih hrest⟩
      · exact ih hrest
    | close y => exact (ih h.2).tail

theorem Stands.openAfter_eq_cons (h : Stands g s (.close x :: es)) :
    ∃ outer, openAfter g es = x :: outer ∧ x ∉ outer := by
  obtain ⟨hhead, hrest⟩ := h
  have heq := List.cons_head?_tail (Option.mem_def.mpr hhead)
  have hnodup := hrest.nodup_openAfter
  rw [← heq] at hnodup
  exact ⟨_, heq.symm, (List.nodup_cons.mp hnodup).1⟩

theorem Stands.chain_openAfter (h : Stands g s es) {inner outer : List Ref}
    (heq : openAfter g es = inner ++ x :: outer) : outer.reverse = s.chainOf x := by
  induction es generalizing inner with
  | nil => simp [openAfter] at heq
  | cons e es ih =>
    cases e with
    | node r =>
      obtain ⟨hchain, -, -, hrest⟩ := h
      rw [openAfter] at heq
      split at heq
      · cases inner with
        | nil =>
          obtain ⟨rfl, rfl⟩ := List.cons.inj heq
          exact hchain
        | cons y inner => exact ih hrest (List.cons.inj heq).2
      · exact ih hrest heq
    | close y =>
      obtain ⟨outer', houter, -⟩ := h.openAfter_eq_cons
      rw [openAfter, houter, List.tail_cons] at heq
      rw [heq] at houter
      exact ih h.2 (show openAfter g es = (y :: inner) ++ x :: outer from houter)

theorem Stands.close_mem_iff (h : Stands g s es) :
    .close x ∈ es ↔ .node x ∈ es ∧ (g.op x).opensScope = true ∧ x ∉ openAfter g es := by
  induction es with
  | nil => simp
  | cons e es ih =>
    cases e with
    | node r =>
      obtain ⟨-, hnew, -, hrest⟩ := h
      rw [List.mem_cons, or_iff_right Entry.noConfusion, ih hrest, List.mem_cons, openAfter]
      by_cases hx : x = r
      · subst hx
        by_cases hopens : (g.op x).opensScope
        · simp [hopens, hnew]
        · simp [hopens]
      · have hne : (Entry.node x = .node r) ↔ False := by simpa using hx
        rw [hne, false_or]
        split
        · rw [List.mem_cons, or_iff_right hx]
        · rfl
    | close y =>
      obtain ⟨outer, houter, hnot⟩ := h.openAfter_eq_cons
      have hopen := opens_of_mem_openAfter (x := y) (by rw [houter]; exact List.mem_cons_self)
      rw [List.mem_cons, ih h.2, List.mem_cons, or_iff_right (b := Entry.node x ∈ es) Entry.noConfusion,
        openAfter, houter, List.tail_cons, List.mem_cons]
      by_cases hx : x = y
      · subst hx
        simp [hopen, hnot]
      · simp [hx]

theorem Stands.nodup (h : Stands g s es) : es.Nodup := by
  induction es with
  | nil => exact List.nodup_nil
  | cons e es ih =>
    cases e with
    | node r => exact List.nodup_cons.mpr ⟨h.2.1, ih h.2.2.2⟩
    | close x =>
      refine List.nodup_cons.mpr ⟨fun hmem => ?_, ih h.2⟩
      obtain ⟨outer, houter, -⟩ := h.openAfter_eq_cons
      exact ((h.2.close_mem_iff).mp hmem).2.2 (by rw [houter]; exact List.mem_cons_self)

def isMarker : Entry → Bool
  | .node _ => false
  | .close _ => true

def isNode (p : Op → Bool) (g : Graph) : Entry → Bool
  | .node r => p (g.op r)
  | .close _ => false

theorem Stands.count_close (h : Stands g s es) :
    es.countP isMarker + (openAfter g es).length = es.countP (isNode Op.opensScope g) := by
  induction es with
  | nil => rfl
  | cons e es ih =>
    cases e with
    | node r =>
      have hrest := ih h.2.2.2
      rw [openAfter, List.countP_cons, List.countP_cons]
      by_cases hopens : (g.op r).opensScope
      · simp only [isMarker, isNode, hopens, if_true, List.length_cons,
          Bool.false_eq_true, if_false]
        omega
      · simp only [isMarker, isNode, hopens, Bool.false_eq_true, if_false]
        omega
    | close x =>
      have hrest := ih h.2
      obtain ⟨outer, houter, -⟩ := h.openAfter_eq_cons
      rw [houter, List.length_cons] at hrest
      rw [openAfter, houter, List.tail_cons, List.countP_cons, List.countP_cons]
      simp only [isMarker, isNode, if_true, Bool.false_eq_true, if_false]
      omega

/-! ### The invariant -/

namespace State

variable {st : State} {all : List Ref}

/-- What holds while nodes are emitted that are `all` but the sink. -/
structure Emitted (g : Graph) (s : Scopes) (all : List Ref) (st : State) : Prop where
  scopes : st.scopes = openAfter g st.entries
  stands : Stands g s st.entries
  perm : (nodesOf st.entries ++ st.pending.map (·.node)).Perm all
  chain : ∀ w ∈ st.pending, w.chain = s.chainOf w.node
  needs : ∀ w ∈ st.pending, w.needs = (dependencies g s w.node).filter (.node · ∉ st.entries)

/-- No scope is open in which nothing is left. -/
def Settled (st : State) : Prop := ∀ x ∈ st.scopes.head?, st.isBusy x = true

theorem Emitted.nodup_pending (h : Emitted g s all st) (hall : all.Nodup) :
    (st.pending.map (·.node)).Nodup :=
  (List.nodup_append.mp (h.perm.nodup_iff.mpr hall)).2.1

theorem Emitted.mem_all (h : Emitted g s all st) (hr : r ∈ st.pending.map (·.node)) : r ∈ all :=
  h.perm.mem_iff.mp (List.mem_append_right _ hr)

theorem Emitted.not_emitted (h : Emitted g s all st) (hall : all.Nodup)
    (hr : r ∈ st.pending.map (·.node)) : .node r ∉ st.entries := by
  intro hmem
  have hdisjoint := (List.nodup_append.mp (h.perm.nodup_iff.mpr hall)).2.2
  exact hdisjoint r (mem_nodesOf.mpr hmem) r hr rfl

theorem emit_pending (g : Graph) (st : State) (r : Ref) :
    (st.emit g r).pending.map (·.node) = (st.pending.map (·.node)).filter (· != r) := by
  rw [emit, List.map_map, List.filter_map]
  rfl

theorem emit_scopes_of_not_opens (h : (g.op r).opensScope = false) :
    (st.emit g r).scopes = st.scopes := by
  rw [emit, h]
  rfl

/-- A node whose scopes are the open ones can be emitted after what it waits for. -/
theorem Emitted.emit (h : Emitted g s all st) (hall : all.Nodup) (hr : r ∈ st.pending.map (·.node))
    (hchain : s.chainOf r = st.scopes.reverse)
    (hdone : ∀ d ∈ dependencies g s r, .node d ∈ st.entries) : Emitted g s all (st.emit g r) := by
  have hnodup := h.nodup_pending hall
  refine ⟨?_, ?_, ?_, fun w hw => ?_, fun w hw => ?_⟩
  · rw [State.emit, openAfter, h.scopes]
  · refine ⟨by rw [← h.scopes, hchain], h.not_emitted hall hr, fun hacc d hd => hdone d ?_, h.stands⟩
    rw [dependencies]
    split
    · case h_1 hop => exact absurd (by rw [hop]; rfl) hacc
    · exact List.mem_append_left _ hd
  · rw [emit_pending, ← hnodup.erase_eq_filter]
    refine List.Perm.trans ?_ h.perm
    exact List.perm_middle.symm.trans ((List.perm_cons_erase hr).symm.append_left _)
  · obtain ⟨v, hv, rfl⟩ := List.mem_map.mp hw
    exact h.chain v (List.mem_filter.mp hv).1
  · obtain ⟨v, hv, rfl⟩ := List.mem_map.mp hw
    have hneeds := h.needs v (List.mem_filter.mp hv).1
    simp only [hneeds, List.filter_filter, State.emit]
    refine List.filter_congr fun d _ => ?_
    simp only [List.mem_cons, Entry.node.injEq, not_or, bne, Bool.decide_and]
    cases hd : decide (d = r) <;> simp_all

theorem Emitted.emitAll {as : List Ref} (h : Emitted g s all st) (hall : all.Nodup) (has : as.Nodup)
    (hpending : ∀ a ∈ as, a ∈ st.pending.map (·.node))
    (hacc : ∀ a ∈ as, ∃ slot init loops, g.op a = .defineAcc slot init loops)
    (hchain : ∀ a ∈ as, s.chainOf a = st.scopes.reverse) :
    Emitted g s all (as.foldl (State.emit g) st) ∧ (as.foldl (State.emit g) st).scopes = st.scopes ∧
      (as.foldl (State.emit g) st).pending.map (·.node) =
        (st.pending.map (·.node)).filter (· ∉ as) ∧
      ∀ e ∈ st.entries, e ∈ (as.foldl (State.emit g) st).entries := by
  induction as generalizing st with
  | nil => exact ⟨h, rfl, by simp, fun _ => id⟩
  | cons a as ih =>
    rw [List.forall_mem_cons] at hpending hacc hchain
    obtain ⟨hnot, has⟩ := List.nodup_cons.mp has
    obtain ⟨slot, init, loops, hop⟩ := hacc.1
    have hscopes : (st.emit g a).scopes = st.scopes := emit_scopes_of_not_opens (by rw [hop]; rfl)
    have hemit := h.emit hall hpending.1 hchain.1 (by rw [dependencies, hop]; simp)
    have hpending' : ∀ b ∈ as, b ∈ (st.emit g a).pending.map (·.node) := by
      intro b hb
      rw [emit_pending, List.mem_filter, bne_iff_ne]
      exact ⟨hpending.2 b hb, fun heq => hnot (heq ▸ hb)⟩
    obtain ⟨hrest, hscopes', hleft, hentries⟩ :=
      ih hemit has hpending' hacc.2 (by rw [hscopes]; exact hchain.2)
    refine ⟨hrest, hscopes'.trans hscopes, ?_, fun e he => hentries e (List.mem_cons_of_mem _ he)⟩
    rw [List.foldl_cons, hleft, emit_pending, List.filter_filter]
    refine List.filter_congr fun b _ => ?_
    simp only [List.mem_cons, not_or, bne, Bool.decide_and]
    cases hb : decide (b = a) <;> simp_all

/-! ### Closing scopes -/

theorem closeFrom_spec {scopes : List Ref} (hscopes : scopes = openAfter g es)
    (hes : Stands g s es) (busy : Ref → Bool) :
    (closeFrom busy scopes es).1 = openAfter g (closeFrom busy scopes es).2 ∧
      Stands g s (closeFrom busy scopes es).2 ∧ nodesOf (closeFrom busy scopes es).2 = nodesOf es ∧
      ∀ x ∈ (closeFrom busy scopes es).1.head?, busy x = true := by
  induction scopes generalizing es with
  | nil => exact ⟨hscopes, hes, rfl, by simp [closeFrom]⟩
  | cons scope outer ih =>
    rw [closeFrom]
    split
    · case isTrue hbusy =>
        refine ⟨hscopes, hes, rfl, fun x hx => ?_⟩
        rwa [← Option.some.inj (Option.mem_def.mp hx)]
    · have hclosed : Stands g s (.close scope :: es) := ⟨by rw [← hscopes]; rfl, hes⟩
      exact ih (by rw [openAfter, ← hscopes, List.tail_cons]) hclosed

theorem Emitted.closeFinished (h : Emitted g s all st) :
    Emitted g s all st.closeFinished ∧ st.closeFinished.Settled := by
  obtain ⟨hopen, hstands, hnodes, hbusy⟩ := closeFrom_spec h.scopes h.stands st.isBusy
  refine ⟨⟨hopen, hstands, ?_, h.chain, fun w hw => ?_⟩, hbusy⟩
  · rw [State.closeFinished, hnodes]
    exact h.perm
  · rw [h.needs w hw]
    refine List.filter_congr fun d _ => decide_eq_decide.mpr (not_congr ?_)
    rw [← mem_nodesOf, ← mem_nodesOf, State.closeFinished, hnodes]

/-! ### Steps and runs -/

theorem next?_eq_some (h : st.next? g = some r) :
    ∃ w ∈ st.pending, w.node = r ∧ w.needs = [] ∧ isAccumulator g r = false ∧
      w.chain = st.scopes.reverse := by
  obtain ⟨w, hw, rfl⟩ := Option.map_eq_some_iff.mp h
  have hmem := List.mem_of_find?_eq_some hw
  have hready := List.find?_some hw
  simp only [Bool.and_eq_true, List.isEmpty_iff, Bool.not_eq_true', beq_iff_eq] at hready
  exact ⟨w, hmem, rfl, hready.1.1, hready.1.2, hready.2⟩

theorem outermostLoop?_eq_some {a : Ref} (h : outermostLoop? g s a = some r) :
    ∃ slot init loops, g.op a = .defineAcc slot init loops ∧ r ∈ loops ∧
      firstMin? (fun l => (s.chainOf l).length) loops = some r := by
  rw [outermostLoop?] at h
  split at h
  · case h_1 slot init loops hop => exact ⟨slot, init, loops, hop, (firstMin?_spec h).1, h⟩
  · cases h

theorem Emitted.step (h : Emitted g s all st) (hall : all.Nodup)
    (hacc : ∀ a ∈ all, ∀ l ∈ all, outermostLoop? g s a = some l → s.chainOf a = s.chainOf l)
    (hnext : st.next? g = some r) :
    Emitted g s all (st.step g s r) ∧ (st.step g s r).Settled ∧
      (st.step g s r).pending.length < st.pending.length := by
  obtain ⟨w, hw, hnode, hneeds, hplain, hhere⟩ := next?_eq_some hnext
  have hr : r ∈ st.pending.map (·.node) := List.mem_map.mpr ⟨w, hw, hnode⟩
  have hchain : s.chainOf r = st.scopes.reverse := by rw [← hnode, ← h.chain w hw, hhere]
  have hdone : ∀ d ∈ dependencies g s r, .node d ∈ st.entries := by
    rw [h.needs w hw, hnode, List.filter_eq_nil_iff] at hneeds
    intro d hd
    simpa using hneeds d hd
  generalize hacs : (st.pending.map (·.node)).filter (fun a => outermostLoop? g s a = some r) = as
  have has : ∀ a ∈ as, a ∈ st.pending.map (·.node) ∧ outermostLoop? g s a = some r := by
    intro a ha
    rw [← hacs, List.mem_filter] at ha
    exact ha.imp_right of_decide_eq_true
  -- The node itself is not among the accumulators, which have loops to stand before.
  have hnot : r ∉ as := by
    intro hmem
    obtain ⟨slot, init, loops, hop, hloop, -⟩ := outermostLoop?_eq_some (has r hmem).2
    rw [isAccumulator, hop, Bool.not_eq_false', List.isEmpty_iff] at hplain
    rw [hplain] at hloop
    cases hloop
  obtain ⟨hemitted, hscopes, hpending, hentries⟩ := h.emitAll hall
    (hacs ▸ (h.nodup_pending hall).filter _) (fun a ha => (has a ha).1)
    (fun a ha => by
      obtain ⟨slot, init, loops, hop, -⟩ := outermostLoop?_eq_some (has a ha).2
      exact ⟨slot, init, loops, hop⟩)
    (fun a ha => by
      rw [hacc a (h.mem_all (has a ha).1) r (h.mem_all hr) (has a ha).2, hchain])
  have hleft : r ∈ (as.foldl (State.emit g) st).pending.map (·.node) := by
    rw [hpending, List.mem_filter]
    exact ⟨hr, decide_eq_true hnot⟩
  have hlast := (hemitted.emit hall hleft (by rw [hscopes, hchain])
    fun d hd => hentries _ (hdone d hd))
  have hstep : st.step g s r = ((as.foldl (State.emit g) st).emit g r).closeFinished := by
    rw [State.step, hacs]
  rw [hstep]
  refine ⟨hlast.closeFinished.1, hlast.closeFinished.2, ?_⟩
  have hlt : (((as.foldl (State.emit g) st).emit g r).pending.map (·.node)).length <
      (st.pending.map (·.node)).length := by
    rw [emit_pending]
    refine Nat.lt_of_lt_of_le
      (List.length_filter_lt_length_iff_exists.mpr ⟨r, hleft, by simp⟩) ?_
    rw [hpending]
    exact List.length_filter_le _ _
  rwa [List.length_map, List.length_map] at hlt

theorem scopes_eq_nil_of_settled (h : st.Settled) (hpending : st.pending = []) : st.scopes = [] := by
  cases hscopes : st.scopes with
  | nil => rfl
  | cons x outer =>
    have hbusy := h x (by rw [hscopes]; rfl)
    rw [isBusy, hpending, List.any_nil] at hbusy
    cases hbusy

/-- A run that does not stall emits all nodes and closes all scopes. -/
theorem Emitted.run {steps : Nat} {st' : State} (h : Emitted g s all st) (hsettled : st.Settled)
    (hall : all.Nodup)
    (hacc : ∀ a ∈ all, ∀ l ∈ all, outermostLoop? g s a = some l → s.chainOf a = s.chainOf l)
    (hsteps : st.pending.length ≤ steps) (hrun : State.run g s steps st = .ok st') :
    Emitted g s all st' ∧ st'.pending = [] ∧ st'.scopes = [] := by
  induction steps generalizing st with
  | zero =>
    have hpending := List.length_eq_zero_iff.mp (Nat.le_zero.mp hsteps)
    cases hrun
    exact ⟨h, hpending, scopes_eq_nil_of_settled hsettled hpending⟩
  | succ steps ih =>
    rw [State.run] at hrun
    split at hrun
    · case isTrue hempty =>
        have hpending := List.isEmpty_iff.mp hempty
        cases hrun
        exact ⟨h, hpending, scopes_eq_nil_of_settled hsettled hpending⟩
    · cases hnext : st.next? g with
      | none =>
        rw [hnext] at hrun
        cases hrun
      | some r =>
        rw [hnext] at hrun
        obtain ⟨hstep, hsettled', hlt⟩ := h.step hall hacc hnext
        exact ih hstep hsettled' (Nat.le_of_lt_succ (Nat.lt_of_lt_of_le hlt hsteps)) hrun

end State

/-! ### The whole emission -/

theorem ranked_perm (g : Graph) (hash : Ref → Nat) (all : List Pending) :
    (ranked g hash all).Perm all := by
  rw [ranked]
  refine ((sortBy_perm _ _).map _).trans ?_
  rw [List.map_map]
  exact .of_eq (List.map_id all)

variable {sink : Ref} {waits : List (Ref × List Ref)} {hash : Ref → Nat}

theorem emitted_start (all : List Ref) :
    State.Emitted g s all { pending := ranked g hash (all.map (Pending.make g s)) } := by
  have hmem : ∀ w ∈ ranked g hash (all.map (Pending.make g s)), ∃ r ∈ all, Pending.make g s r = w :=
    fun w hw => List.mem_map.mp ((ranked_perm g _ _).mem_iff.mp hw)
  refine ⟨rfl, trivial, ?_, fun w hw => ?_, fun w hw => ?_⟩
  · refine ((ranked_perm g _ _).map _).trans ?_
    rw [List.map_map]
    exact .of_eq (List.map_id all)
  · obtain ⟨r, -, rfl⟩ := hmem w hw
    rfl
  · obtain ⟨r, -, rfl⟩ := hmem w hw
    simp [Pending.make]

/-- The entries of a graph are its nodes and end markers, all where they have to stand. -/
theorem entries_stands (hg : g.Sound) (hsink : sink < g.size) (hlive : g.resolve sink = sink)
    {rs : List Ref} (hop : g.op sink = .sink rs) (hs : Scopes.ofGraph g sink waits = .ok s)
    (h : entries g hash sink s = .ok es) :
    ∃ rest, es = (.node sink :: rest).reverse ∧ Stands g s (.node sink :: rest) ∧
      openAfter g rest = [] ∧ ∀ r, .node r ∈ es ↔ r ∈ g.order sink := by
  obtain ⟨last, hrun, hes⟩ := bind_eq_ok h
  have hroot : sink ∈ g.order sink := by
    have hmem := (hg.ordered_order hsink).2
    rwa [hlive] at hmem
  generalize hall : (g.order sink).filter (· != sink) = all at hrun
  have hnodup : all.Nodup := hall ▸ (g.nodup_order sink).filter _
  have hmemAll : ∀ {r}, r ∈ all ↔ r ∈ g.order sink ∧ r ≠ sink := by
    intro r
    rw [← hall, List.mem_filter, bne_iff_ne]
  have hacc : ∀ a ∈ all, ∀ l ∈ all, outermostLoop? g s a = some l → s.chainOf a = s.chainOf l := by
    intro a ha l hl hloop
    obtain ⟨slot, init, loops, hop, -, hfirst⟩ := State.outermostLoop?_eq_some hloop
    exact Scopes.chainOf_accumulator hg hsink hs (hmemAll.mp ha).1 hop (hmemAll.mp hl).1 hfirst
  have hsteps := (ranked_perm g hash (all.map (Pending.make g s))).length_eq.le
  obtain ⟨hlast, hpending, hscopes⟩ := (emitted_start (g := g) (s := s) all).run
    nofun hnodup hacc hsteps hrun
  have hnodes : ∀ r, .node r ∈ last.entries ↔ r ∈ all := by
    intro r
    have hperm := hlast.perm
    rw [hpending, List.map_nil, List.append_nil] at hperm
    rw [← mem_nodesOf, hperm.mem_iff]
  have hopen : openAfter g last.entries = [] := by rw [← hlast.scopes, hscopes]
  refine ⟨last.entries, (Except.ok.inj hes).symm, ⟨?_, ?_, fun _ d hd => ?_, hlast.stands⟩, hopen,
    fun r => ?_⟩
  · rw [hopen, Scopes.chainOf_sink hs hroot hop, List.reverse_nil]
  · rw [hnodes, hmemAll]
    exact fun h => h.2 rfl
  · rw [hnodes, hmemAll]
    refine ⟨hg.sources_mem_order hsink hroot hd, fun heq => ?_⟩
    exact (hg.founded hsink).not_reaches hd (heq ▸ .refl)
  · rw [← Except.ok.inj hes, List.mem_reverse, List.mem_cons, hnodes, hmemAll, Entry.node.injEq]
    constructor
    · rintro (rfl | hr)
      · exact hroot
      · exact hr.1
    · exact fun hr => (em (r = sink)).imp_right fun hne => ⟨hr, hne⟩

end Emit

end LazyTensor

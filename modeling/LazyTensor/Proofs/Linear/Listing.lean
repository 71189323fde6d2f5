import LazyTensor.Proofs.Linear.Branch
import LazyTensor.Proofs.Linear.Check
import LazyTensor.Proofs.Linear.Emit

/-!
# Instruction lists

The list that a graph is put into has each of its nodes once and an end marker for every scope, and
every instruction stands in just the scopes that were assigned to its node. So where a node reads
another, the scopes around the other are still open.
-/

namespace LazyTensor

/-! ### Scopes of a list -/

theorem Op.closes?_mapSources (f : Ref → Ref) (op : Op) :
    (op.mapSources f).closes? = op.closes?.map f := by
  cases op <;> rfl

theorem Op.opensScope_mapSources (f : Ref → Ref) (op : Op) :
    (op.mapSources f).opensScope = op.opensScope := by
  cases op <;> rfl

section

variable (is : Array Instr)

/-- Whether the scope opened at `q` is closed before position `p`. -/
def closedBefore (p q : Nat) : Bool :=
  (List.range p).any fun e => (instrAt is e).op.closes? = some q

/-- The positions of the scopes that are open at position `p`, outermost first: those opened before
it and not closed before it. -/
def openAt (p : Nat) : List Nat :=
  (List.range p).filter fun q => (instrAt is q).op.opensScope && !closedBefore is p q

/-- The scopes that are open for what stands inside the instruction at `q`, if it opens one. -/
def openInside (q : Nat) : List Nat :=
  if (instrAt is q).op.opensScope then openAt is q ++ [q] else openAt is q

end

section

variable {is : Array Instr} {p q : Nat}

theorem closedBefore_succ :
    closedBefore is (p + 1) q = (closedBefore is p q || (instrAt is p).op.closes? = some q) := by
  rw [closedBefore, List.range_succ, List.any_append, List.any_cons, List.any_nil, Bool.or_false,
    closedBefore]

theorem openAt_succ_of_plain (hclose : (instrAt is p).op.closes? = none)
    (hfresh : closedBefore is p p = false) : openAt is (p + 1) = openInside is p := by
  have hsame : ∀ q, closedBefore is (p + 1) q = closedBefore is p q := fun q => by
    rw [closedBefore_succ, hclose]
    simp
  rw [openInside, openAt, List.range_succ, List.filter_append]
  simp only [hsame]
  rw [← openAt]
  by_cases hopens : (instrAt is p).op.opensScope
  · simp [hopens, hfresh]
  · simp [hopens]

theorem openAt_succ_of_closes (hclose : (instrAt is p).op.closes? = some q) :
    openAt is (p + 1) = (openAt is p).filter (· ≠ q) := by
  rw [openAt, List.range_succ, List.filter_append, List.filter_singleton,
    Op.opensScope_of_closes? hclose, Bool.false_and,
    openAt, List.filter_filter]
  refine (List.append_nil _).trans (List.filter_congr fun x _ => ?_)
  rw [closedBefore_succ, hclose, Bool.not_or]
  by_cases hx : x = q
  · simp [hx]
  · simp [hx, Ne.symm hx]

end

namespace Emit

variable {g : Graph} {s : Scopes} {es : List Entry} {r x : Ref} {p q : Nat}

/-! ### Positions of entries -/

def placeIn (es : List Entry) (r : Ref) : Nat := es.idxOf (.node r)

theorem getElem?_placeIn (h : .node r ∈ es) : es[placeIn es r]? = some (.node r) :=
  List.getElem?_idxOf h

theorem placeIn_of_getElem? (hes : es.Nodup) (h : es[p]? = some (.node r)) : placeIn es r = p := by
  obtain ⟨hp, hr⟩ := List.getElem?_eq_some_iff.mp h
  rw [placeIn, ← hr]
  exact hes.idxOf_getElem p hp

theorem placeIn_inj (hr : .node r ∈ es) : placeIn es r = placeIn es x ↔ r = x := by
  rw [placeIn, placeIn, List.idxOf_inj hr, Entry.node.injEq]

theorem positionIn_eq (h : .node (g.resolve r) ∈ es) : positionIn g es r = placeIn es (g.resolve r) := by
  rw [positionIn, placeIn, List.idxOf_eq_getD_idxOf?]
  cases hidx : es.idxOf? (.node (g.resolve r)) with
  | none => exact absurd h (List.idxOf?_eq_none_iff.mp hidx)
  | some i => rfl

def endMarker (op : Op) (p : Nat) : Instr :=
  match op with
  | .branch _ => ⟨.endBranch p, .void⟩
  | _ => ⟨.endLoop p, .void⟩

theorem closes?_endMarker (op : Op) (p : Nat) : (endMarker op p).op.closes? = some p := by
  unfold endMarker
  split <;> rfl

theorem opensScope_endMarker (op : Op) (p : Nat) : (endMarker op p).op.opensScope = false := by
  unfold endMarker
  split <;> rfl

theorem sources_endMarker (op : Op) (p : Nat) : (endMarker op p).op.sources = [p] := by
  unfold endMarker
  split <;> rfl

/-! ### Lists of entries -/

/-- The list of the nodes under a sink with end markers, in entries that say what each instruction
is: every node once with its sources replaced by their places, every end marker once, the sink last,
and everything in its scopes. -/
structure Listing (g : Graph) (sink : Ref) (chain : Ref → Chain) (es : List Entry)
    (is : Array Instr) : Prop where
  size : is.size = es.length
  nodup : es.Nodup
  node_mem : ∀ r, .node r ∈ es ↔ Walk.Reaches g.sources sink r
  close_mem : ∀ r, .close r ∈ es ↔ Walk.Reaches g.sources sink r ∧ (g.op r).opensScope = true
  last : es.getLast? = some (.node sink)
  unmarked : ∀ r, .node r ∈ es → (g.op r).closes? = none
  instr_node : ∀ (p : Nat) (r : Ref), es[p]? = some (.node r) →
    is[p]? = some ⟨(g.op r).mapSources fun x => placeIn es (g.resolve x), g.dtype r⟩
  instr_close : ∀ (p : Nat) (r : Ref), es[p]? = some (.close r) → is[p]? = some (endMarker (g.op r) (placeIn es r))
  scopes : ∀ (p : Nat) (r : Ref), es[p]? = some (.node r) → openAt is p = (chain r).map (placeIn es)
  nested : ∀ (p : Nat) (i : Instr), is[p]? = some i → Scopes.Nests i.op.kind →
    ∀ q ∈ i.op.sources, openInside is q <+: openAt is p

section Entries

variable {is : Array Instr} (hstands : Stands g s es.reverse)
  (hclosed : ∀ r, .node r ∈ es → ∀ d ∈ g.sources r, .node d ∈ es)
  (hlive : ∀ r, .node r ∈ es → g.resolve r = r) (his : is = (es.map (instr g es)).toArray)

theorem getElem?_of_entries (his : is = (es.map (instr g es)).toArray) (p : Nat) :
    is[p]? = es[p]?.map (instr g es) := by
  rw [his, List.getElem?_toArray, List.getElem?_map]

theorem instrAt_of_getElem? {i : Instr} (h : is[p]? = some i) : instrAt is p = i := by
  rw [instrAt, Array.getD_eq_getD_getElem?, h, Option.getD_some]

include hclosed his in
theorem getElem?_node (hp : es[p]? = some (.node r)) :
    is[p]? = some ⟨(g.op r).mapSources fun x => placeIn es (g.resolve x), g.dtype r⟩ := by
  rw [getElem?_of_entries his, hp, Option.map_some, instr]
  have hr := List.mem_of_getElem? hp
  have hsources : ∀ x ∈ (g.op r).sources, positionIn g es x = placeIn es (g.resolve x) :=
    fun x hx => positionIn_eq (hclosed r hr _ (List.mem_map_of_mem hx))
  exact congrArg (fun op => some (Instr.mk op (g.dtype r))) (Op.mapSources_congr hsources)

theorem Stands.at_getElem? (h : Stands g s es.reverse) {e : Entry} (hp : es[p]? = some e) :
    Stands g s (e :: (es.take p).reverse) := by
  obtain ⟨hlt, rfl⟩ := List.getElem?_eq_some_iff.mp hp
  have hsplit : es.reverse = (es.drop (p + 1)).reverse ++ (es[p] :: (es.take p).reverse) := by
    rw [← List.reverse_concat, ← List.take_succ_eq_append_getElem hlt, ← List.reverse_append,
      List.take_append_drop]
  rw [hsplit] at h
  exact h.of_append

include hstands in
theorem node_mem_of_close (hp : es[p]? = some (.close x)) :
    .node x ∈ es.take p ∧ (g.op x).opensScope = true := by
  obtain ⟨outer, houter, -⟩ := (hstands.at_getElem? hp).openAfter_eq_cons
  have hopen := opens_of_mem_openAfter (x := x) (by rw [houter]; exact List.mem_cons_self)
  exact hopen.imp_left List.mem_reverse.mp

include hstands hlive his in
theorem getElem?_close (hp : es[p]? = some (.close x)) :
    is[p]? = some (endMarker (g.op x) (placeIn es x)) := by
  rw [getElem?_of_entries his, hp, Option.map_some]
  have hx := List.mem_of_mem_take (node_mem_of_close hstands hp).1
  have hposition : positionIn g es x = placeIn es x := by
    have hmem : .node (g.resolve x) ∈ es := by rwa [hlive x hx]
    rw [positionIn_eq hmem, hlive x hx]
  unfold instr endMarker
  dsimp only
  generalize positionIn g es x = k at hposition ⊢
  subst hposition
  cases g.op x <;> rfl

theorem placeIn_lt (h : .node x ∈ es.take p) : placeIn es x < p := by
  have hlt := List.idxOf_lt_length_of_mem h
  have hle : (es.take p).length ≤ p := by
    rw [List.length_take]
    exact Nat.min_le_left _ _
  refine Nat.lt_of_lt_of_le (Nat.lt_of_le_of_lt (Nat.le_of_eq ?_) hlt) hle
  conv_lhs => rw [placeIn, ← List.take_append_drop p es]
  exact List.idxOf_append_of_mem h

include hstands hclosed hlive his in
/-- No node of the graph is an end marker if there are as many end markers as scopes in the list. -/
theorem unmarked_of_balanced (hopen : openAfter g es.reverse = [])
    (hbalanced : is.toList.countP (·.op.opensScope) = is.toList.countP (·.op.closes?.isSome)) :
    ∀ r, .node r ∈ es → (g.op r).closes? = none := by
  have hinstr : ∀ e ∈ es,
      (instr g es e).op.opensScope = isNode Op.opensScope g e ∧
      (instr g es e).op.closes?.isSome = (isMarker e || isNode (·.closes?.isSome) g e) := by
    intro e he
    obtain ⟨p, hp⟩ := List.mem_iff_getElem?.mp he
    have hi : is[p]? = some (instr g es e) := by rw [getElem?_of_entries his, hp, Option.map_some]
    cases e with
    | node r =>
      have heq := Option.some.inj (hi.symm.trans (getElem?_node hclosed his hp))
      rw [heq]
      simp only [Op.opensScope_mapSources, Op.closes?_mapSources, isNode, isMarker, Bool.false_or,
        Option.isSome_map, and_self]
    | close x =>
      have heq := Option.some.inj (hi.symm.trans (getElem?_close hstands hlive his hp))
      rw [heq, opensScope_endMarker, closes?_endMarker]
      exact ⟨rfl, rfl⟩
  have hopens : is.toList.countP (·.op.opensScope) = es.countP (isNode Op.opensScope g) := by
    rw [his, List.countP_map]
    exact List.countP_congr fun e he => by rw [Function.comp_apply, (hinstr e he).1]
  have hcloses : is.toList.countP (·.op.closes?.isSome) =
      es.countP (fun e => isMarker e || isNode (·.closes?.isSome) g e) := by
    rw [his, List.countP_map]
    exact List.countP_congr fun e he => by rw [Function.comp_apply, (hinstr e he).2]
  have hcount := hstands.count_close
  rw [hopen, List.length_nil, Nat.add_zero, List.countP_reverse, List.countP_reverse] at hcount
  have hsplit : es.countP (fun e => isMarker e || isNode (·.closes?.isSome) g e) =
      es.countP isMarker + es.countP (isNode (·.closes?.isSome) g) := by
    clear * -
    induction es with
    | nil => rfl
    | cons e es ih =>
      rw [List.countP_cons, List.countP_cons, List.countP_cons, ih]
      cases e with
      | node r => simp only [isMarker, Bool.false_or, Bool.false_eq_true, if_false]; omega
      | close x => simp only [isMarker, isNode, Bool.true_or, if_true, Bool.false_eq_true, if_false]; omega
  have hzero : es.countP (isNode (·.closes?.isSome) g) = 0 := by omega
  intro r hr
  have hnot := List.countP_eq_zero.mp hzero _ hr
  exact Option.not_isSome_iff_eq_none.mp hnot

variable (hfree : ∀ r, .node r ∈ es → (g.op r).closes? = none)

include hstands hclosed hlive his hfree

theorem openAt_eq (hp : p ≤ es.length) :
    openAt is p = (openAfter g (es.take p).reverse).reverse.map (placeIn es) := by
  induction p with
  | zero => rfl
  | succ p ih =>
    have hlt : p < es.length := hp
    have hbefore := ih (Nat.le_of_lt hlt)
    have hentry : es[p]? = some es[p] := List.getElem?_eq_getElem hlt
    rw [List.take_succ_eq_append_getElem hlt, List.reverse_concat]
    generalize es[p] = e at hentry
    have hat := hstands.at_getElem? hentry
    cases e with
    | node r =>
      have hop := instrAt_of_getElem? (getElem?_node hclosed his hentry)
      have hplace := placeIn_of_getElem? (List.nodup_reverse.mp hstands.nodup) hentry
      have hclose : (instrAt is p).op.closes? = none := by
        rw [hop, Op.closes?_mapSources, hfree r (List.mem_of_getElem? hentry), Option.map_none]
      -- Markers before `p` close scopes that were opened before them.
      have hfresh : closedBefore is p p = false := by
        rw [closedBefore, List.any_eq_false]
        intro k hk hcloses
        have hk := List.mem_range.mp hk
        have hkentry : es[k]? = some es[k] := List.getElem?_eq_getElem (hk.trans hlt)
        generalize es[k] = e at hkentry
        cases e with
        | node y =>
          rw [instrAt_of_getElem? (getElem?_node hclosed his hkentry), Op.closes?_mapSources,
            hfree y (List.mem_of_getElem? hkentry)] at hcloses
          simp at hcloses
        | close y =>
          rw [instrAt_of_getElem? (getElem?_close hstands hlive his hkentry), closes?_endMarker,
            decide_eq_true_eq, Option.some.injEq] at hcloses
          have hlt' := placeIn_lt (node_mem_of_close hstands hkentry).1
          omega
      rw [openAt_succ_of_plain hclose hfresh, openInside, hop, Op.opensScope_mapSources, openAfter,
        hbefore]
      split
      · rw [List.reverse_cons, List.map_append, List.map_singleton, hplace]
      · rfl
    | close x =>
      obtain ⟨outer, houter, hnot⟩ := hat.openAfter_eq_cons
      have hclose : (instrAt is p).op.closes? = some (placeIn es x) := by
        rw [instrAt_of_getElem? (getElem?_close hstands hlive his hentry), closes?_endMarker]
      have hmem : ∀ y ∈ outer, .node y ∈ es := by
        intro y hy
        have hopen := opens_of_mem_openAfter (x := y) (by rw [houter]; exact List.mem_cons_of_mem _ hy)
        exact List.mem_of_mem_take (List.mem_reverse.mp hopen.1)
      rw [openAt_succ_of_closes hclose, hbefore, openAfter, houter, List.tail_cons, List.reverse_cons,
        List.map_append, List.filter_append]
      have hlast : ([x].map (placeIn es)).filter (· ≠ placeIn es x) = [] := by simp
      have hkept : (outer.reverse.map (placeIn es)).filter (· ≠ placeIn es x) =
          outer.reverse.map (placeIn es) := by
        rw [List.filter_eq_self, List.forall_mem_map]
        intro y hy
        have hy := List.mem_reverse.mp hy
        refine decide_eq_true fun heq => hnot ?_
        rwa [← (placeIn_inj (hmem y hy)).mp heq]
      rw [hlast, hkept, List.append_nil]

theorem openAt_node (hp : es[p]? = some (.node r)) : openAt is p = (s.chainOf r).map (placeIn es) := by
  have hlt := (List.getElem?_eq_some_iff.mp hp).1
  rw [openAt_eq hstands hclosed hlive his hfree (Nat.le_of_lt hlt), (hstands.at_getElem? hp).1]

theorem openInside_node (hp : es[p]? = some (.node r)) :
    openInside is p = (Scopes.innerChain g s r).map (placeIn es) := by
  have hplace := placeIn_of_getElem? (List.nodup_reverse.mp hstands.nodup) hp
  rw [openInside, instrAt_of_getElem? (getElem?_node hclosed his hp), Op.opensScope_mapSources,
    openAt_node hstands hclosed hlive his hfree hp, Scopes.innerChain]
  split
  · rw [List.map_append, List.map_singleton, hplace]
  · rfl

theorem openAt_close (hp : es[p]? = some (.close x)) : openAt is p = openInside is (placeIn es x) := by
  obtain ⟨hx, hopens⟩ := node_mem_of_close hstands hp
  have hplace := getElem?_placeIn (List.mem_of_mem_take hx)
  have hlt := (List.getElem?_eq_some_iff.mp hp).1
  have hat := hstands.at_getElem? hp
  obtain ⟨outer, houter, -⟩ := hat.openAfter_eq_cons
  have hchain : outer.reverse = s.chainOf x := 
    hat.2.chain_openAfter (show openAfter _ _ = [] ++ x :: outer from houter)
  rw [openInside_node hstands hclosed hlive his hfree hplace, Scopes.innerChain, if_pos hopens,
    openAt_eq hstands hclosed hlive his hfree (Nat.le_of_lt hlt), houter, List.reverse_cons, hchain]

end Entries

end Emit

open Emit in
/-- What a list is made of: the graph with its branches, the scopes in it, and the entries. -/
theorem exists_of_linearize {g : Graph} {sink : Ref} {hash : NodeHash} {is : Array Instr}
    (hg : g.Sound) (h : linearize g sink hash = .ok is) :
    g.resolve sink < g.size ∧ ∃ g' waits s es rs, g.insertBranches (g.resolve sink) = (g', waits) ∧
      g'.Sound ∧ g.resolve sink < g'.size ∧ g'.resolve (g.resolve sink) = g.resolve sink ∧
      g'.op (g.resolve sink) = .sink rs ∧ Scopes.ofGraph g' (g.resolve sink) waits = .ok s ∧
      entries g' (hash g') (g.resolve sink) s = .ok es ∧ is = (es.map (instr g' es)).toArray ∧
      verifyOrder is = .ok () := by
  have hlive := hg.wellFormed.resolve_resolve sink
  rw [linearize] at h
  generalize g.resolve sink = root at h hlive ⊢
  dsimp only at h
  split at h
  case h_2 => cases h
  case h_1 rs hop =>
  have hroot : root < g.size := Graph.lt_size_of_op hg.wellFormed (by simp [hop])
  obtain ⟨hget, hresolve⟩ := Graph.insertBranches_frame hg hroot hroot hlive (by rw [hop]; simp [Op.kind])
  rw [Graph.op, ← hget, ← Graph.op] at hop
  obtain ⟨s, hs, h⟩ := bind_eq_ok h
  obtain ⟨es, hes, h⟩ := bind_eq_ok h
  obtain ⟨_, hverify, h⟩ := bind_eq_ok h
  obtain rfl := Except.ok.inj h
  exact ⟨hroot, _, _, s, es, rs, rfl, hg.insertBranches hroot,
    Nat.lt_of_lt_of_le hroot (Graph.size_le_insertBranches hg hroot), hresolve, hop, hs, hes, rfl,
    hverify⟩

open Emit in
/-- A graph without cycles is put into a list of the nodes under its sink, where gated stores stand
under branches, with an end marker for every scope; each node stands in the scopes assigned to it, so
all scopes around what an instruction reads are open there. -/
theorem linearize_listing {g : Graph} {sink : Ref} {hash : NodeHash} {is : Array Instr} (hg : g.Sound)
    (h : linearize g sink hash = .ok is) :
    ∃ g' waits scopes es, g.insertBranches (g.resolve sink) = (g', waits) ∧
      Scopes.ofGraph g' (g.resolve sink) waits = .ok scopes ∧
      Listing g' (g.resolve sink) scopes.chainOf es is := by
  obtain ⟨-, g', waits, s, es, rs, hbranches, hsound, hsize, hresolve, hop, hs, hes, his, hverify⟩ :=
    exists_of_linearize hg h
  generalize g.resolve sink = root at *
  obtain ⟨rest, hreverse, hstands, hopen, hnodes⟩ := entries_stands hsound hsize hresolve hop hs hes
  have hback : es.reverse = .node root :: rest := by rw [hreverse, List.reverse_reverse]
  rw [← hback] at hstands
  have hmem : ∀ r, .node r ∈ es ↔ Walk.Reaches g'.sources root r := by
    intro r
    rw [hnodes, hsound.mem_order_iff hsize, hresolve]
  have hclosed : ∀ r, .node r ∈ es → ∀ d ∈ g'.sources r, .node d ∈ es := by
    intro r hr d hd
    rw [hnodes] at hr ⊢
    exact hsound.sources_mem_order hsize hr hd
  have hlive : ∀ r, .node r ∈ es → g'.resolve r = r :=
    fun r hr => hsound.resolve_order hsize r ((hnodes r).mp hr)
  have hopens : (g'.op root).opensScope = false := by rw [hop]; rfl
  have hdone : openAfter g' es.reverse = [] := by
    rw [hback, openAfter, hopens, if_neg Bool.false_ne_true, hopen]
  have hfree : ∀ r, .node r ∈ es → (g'.op r).closes? = none := by
    exact unmarked_of_balanced hstands hclosed hlive his hdone
      (balanced_of_verifyOrder hverify).countP_eq
  refine ⟨g', waits, s, es, hbranches, hs, ⟨?_, List.nodup_reverse.mp hstands.nodup, hmem, fun r => ?_,
    ?_, hfree, fun p r hp => getElem?_node hclosed his hp,
    fun p r hp => getElem?_close hstands hlive his hp,
    fun p r hp => openAt_node hstands hclosed hlive his hfree hp, fun p i hi hnests q hq => ?_⟩⟩
  · rw [his, List.size_toArray, List.length_map]
  · rw [← List.mem_reverse, hstands.close_mem_iff, hdone, List.mem_reverse, hmem]
    simp
  · rw [hreverse, List.getLast?_reverse, List.head?_cons]
  · rw [getElem?_of_entries his] at hi
    obtain ⟨e, hp, rfl⟩ := Option.map_eq_some_iff.mp hi
    have hi : is[p]? = some (instr g' es e) := by rw [getElem?_of_entries his, hp, Option.map_some]
    cases e with
    | node r =>
      have hr := List.mem_of_getElem? hp
      rw [Option.some.inj (hi.symm.trans (getElem?_node hclosed his hp))] at hnests hq
      rw [Op.kind_mapSources] at hnests
      rw [Op.sources_mapSources] at hq
      obtain ⟨x, hx, rfl⟩ := List.mem_map.mp hq
      have hread : g'.resolve x ∈ g'.sources r := List.mem_map_of_mem hx
      rw [openAt_node hstands hclosed hlive his hfree hp,
        openInside_node hstands hclosed hlive his hfree (getElem?_placeIn (hclosed r hr _ hread))]
      exact (Scopes.innerChain_prefix hsound hsize hs ((hnodes r).mp hr) hnests hread).map _
    | close x =>
      rw [Option.some.inj (hi.symm.trans (getElem?_close hstands hlive his hp)), sources_endMarker,
        List.mem_singleton] at hq
      rw [hq, openAt_close hstands hclosed hlive his hfree hp]

/-- A sum over a loop that is stored below a bound of another loop. -/
def maskedSum : Graph :=
  [⟨.const (.int 0), .index⟩, ⟨.const (.int 4), .index⟩, ⟨.loop 0 1 ⟨.global, 0⟩, .index⟩,
    ⟨.loop 0 1 ⟨.reduce, 1⟩, .index⟩, ⟨.defineGlobal 0, .pointer .int32 .global none⟩,
    ⟨.defineGlobal 1, .pointer .int32 .global none⟩,
    ⟨.defineAcc 0 (.int 0) [3], .int32⟩, ⟨.load 5 3 none, .int32⟩, ⟨.binary .add 6 7, .int32⟩,
    ⟨.phi 6 8 [3], .int32⟩, ⟨.const (.int 3), .index⟩, ⟨.binary .lt 2 10, .bool⟩,
    ⟨.store 4 2 9 (some 11), .void⟩, ⟨.sink [12], .void⟩].foldl (fun g n => (g.insert n).2) {}

theorem built_maskedSum : maskedSum.Built := by
  refine .insert (.insert (.insert (.insert (.insert (.insert (.insert (.insert (.insert (.insert
    (.insert (.insert (.insert (.insert .empty ?_) ?_) ?_) ?_) ?_) ?_) ?_) ?_) ?_) ?_) ?_) ?_) ?_) ?_
  all_goals decide +kernel

theorem linearize_listing_maskedSum :
    ∃ is scopes es, linearize maskedSum 13 = .ok is ∧ is.size = 18 ∧
      Emit.Listing (maskedSum.insertBranches 13).1 13 scopes es is := by
  have hrun : (linearize maskedSum 13).toOption.map (·.size) = some 18 := by decide +kernel
  have hresolve : maskedSum.resolve 13 = 13 := by decide +kernel
  cases hlist : linearize maskedSum 13 with
  | error e =>
    rw [hlist] at hrun
    cases hrun
  | ok is =>
    rw [hlist] at hrun
    obtain ⟨g', waits, scopes, es, hbranches, -, hlisting⟩ :=
      linearize_listing built_maskedSum.sound hlist
    rw [hresolve] at hbranches hlisting
    rw [hbranches]
    exact ⟨is, scopes.chainOf, es, rfl, Option.some.inj hrun, hlisting⟩

end LazyTensor

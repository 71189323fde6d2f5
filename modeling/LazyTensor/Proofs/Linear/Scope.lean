import LazyTensor.Linear.Scope
import LazyTensor.Proofs.Except
import LazyTensor.Proofs.Graph.Twin
import LazyTensor.Proofs.Order

/-!
# Chains of scopes

Nodes are placed in order, each by the chains of those before it. So a node stands in all the scopes
of what it reads, and an accumulator beside the outermost of its loops.
-/

namespace LazyTensor

namespace Scopes

variable {g : Graph} {s s' s₀ : Scopes} {r x sink : Ref} {waits : List (Ref × List Ref)}
  {c a : Chain} {before : List Ref}

/-! ### Joining chains -/

theorem prefix_of_join {b : Chain} (h : join r a b = .ok c) : a <+: c ∧ b <+: c := by
  rw [join] at h
  split at h <;> split at h
  · case isTrue hp =>
      cases h
      exact ⟨List.isPrefixOf_iff_prefix.mp hp, List.prefix_refl _⟩
  · cases h
  · case isTrue hp =>
      cases h
      exact ⟨List.prefix_refl _, List.isPrefixOf_iff_prefix.mp hp⟩
  · cases h

theorem prefix_of_foldlM_join {f : Ref → Chain} {srcs : List Ref}
    (h : srcs.foldlM (fun chain src => join r chain (f src)) a = .ok c) :
    a <+: c ∧ ∀ src ∈ srcs, f src <+: c := by
  induction srcs generalizing a with
  | nil =>
    cases h
    exact ⟨List.prefix_refl _, by simp⟩
  | cons src srcs ih =>
    rw [List.foldlM_cons] at h
    obtain ⟨b, hjoin, hrest⟩ := bind_eq_ok h
    obtain ⟨hab, hsrc⟩ := prefix_of_join hjoin
    obtain ⟨hbc, hsrcs⟩ := ih hrest
    exact ⟨hab.trans hbc, List.forall_mem_cons.mpr ⟨hsrc.trans hbc, hsrcs⟩⟩

theorem prefix_of_merged (h : merged g s r = .ok c) :
    ∀ src ∈ g.sources r ++ s.waitsOf r ++ (s.pinned.lookup r).toList, innerChain g s src <+: c :=
  (prefix_of_foldlM_join h).2

theorem prefix_of_loopChain (h : loopChain g s r = .ok c) :
    ∀ src ∈ g.sources r ++ s.waitsOf r ++ (s.pinned.lookup r).toList, innerChain g s src <+: c := by
  obtain ⟨inner, hmerged, houter⟩ := bind_eq_ok h
  intro src hsrc
  refine (prefix_of_merged hmerged src hsrc).trans ?_
  dsimp only at houter
  split at houter
  · case isTrue hp =>
      cases houter
      exact List.isPrefixOf_iff_prefix.mp hp
  · cases houter

/-- A kind of node that stands in all the scopes of what it reads. -/
def Nests (k : OpKind) : Prop := k ≠ .phi ∧ k ≠ .defineAcc ∧ k ≠ .sink

instance (k : OpKind) : Decidable (Nests k) := inferInstanceAs (Decidable (_ ∧ _))

theorem prefix_of_chainFor (hnests : Nests (g.op r).kind) (h : chainFor g s r = .ok c) :
    ∀ src ∈ g.sources r ++ s.waitsOf r ++ (s.pinned.lookup r).toList, innerChain g s src <+: c := by
  obtain ⟨hphi, hacc, hsink⟩ := hnests
  rw [chainFor] at h
  split at h
  case h_1 hop => exact absurd (by rw [hop]; rfl) hsink
  case h_2 hop => exact absurd (by rw [hop]; rfl) hacc
  case h_3 => exact prefix_of_loopChain h
  case h_4 hop => exact absurd (by rw [hop]; rfl) hphi
  case h_5 => exact prefix_of_merged h

/-! ### Placing nodes -/

theorem place_eq_ok (h : place g s r = .ok s') :
    ∃ c, chainFor g s r = .ok c ∧ s' = { s with chains := insertKey compare r c s.chains } := by
  obtain ⟨c, hchain, hplace⟩ := bind_eq_ok h
  exact ⟨c, hchain, (Except.ok.inj hplace).symm⟩

/-- Placing nodes changes nothing but their chains. -/
structure Frame (rs : List Ref) (s s' : Scopes) : Prop where
  waits : s'.waits = s.waits
  nest : s'.nest = s.nest
  pinned : s'.pinned = s.pinned
  lookup : ∀ x, x ∉ rs → s'.chains.lookup x = s.chains.lookup x

theorem frame_place (h : place g s r = .ok s') : Frame [r] s s' := by
  obtain ⟨c, -, rfl⟩ := place_eq_ok h
  refine ⟨rfl, rfl, rfl, fun x hx => ?_⟩
  rw [lookup_insertKey, List.lookup_cons, beq_false_of_ne (by simpa using hx)]

theorem frame_foldlM_place {rs : List Ref} (h : rs.foldlM (place g) s = .ok s') : Frame rs s s' := by
  induction rs generalizing s with
  | nil =>
    cases h
    exact ⟨rfl, rfl, rfl, fun _ _ => rfl⟩
  | cons r rs ih =>
    rw [List.foldlM_cons] at h
    obtain ⟨s₁, hplace, hrest⟩ := bind_eq_ok h
    have hfirst := frame_place hplace
    have hlater := ih hrest
    refine ⟨hlater.waits.trans hfirst.waits, hlater.nest.trans hfirst.nest,
      hlater.pinned.trans hfirst.pinned, fun x hx => ?_⟩
    rw [List.mem_cons, not_or] at hx
    rw [hlater.lookup x hx.2, hfirst.lookup x (by simpa using hx.1)]

/-- The scopes as they were when just the nodes `before` had been placed. -/
structure Earlier (s : Scopes) (before : List Ref) (s₀ : Scopes) : Prop where
  waits : s₀.waits = s.waits
  nest : s₀.nest = s.nest
  pinned : s₀.pinned = s.pinned
  lookup : ∀ x ∈ before, s₀.chains.lookup x = s.chains.lookup x
  lookup_none : ∀ x, x ∉ before → s₀.chains.lookup x = none

theorem Earlier.chainOf (h : s.Earlier before s₀) (hx : x ∈ before) :
    s₀.chainOf x = s.chainOf x := by
  rw [Scopes.chainOf, h.lookup x hx, Scopes.chainOf]

theorem Earlier.innerChain (h : s.Earlier before s₀) (hx : x ∈ before) :
    innerChain g s₀ x = innerChain g s x := by
  rw [Scopes.innerChain, Scopes.innerChain, h.chainOf hx]

theorem ofGraph_placed (h : ofGraph g sink waits = .ok s) {after : List Ref}
    (horder : g.order sink = before ++ r :: after) :
    ∃ s₀, s.Earlier before s₀ ∧ chainFor g s₀ r = .ok (s.chainOf r) ∧
      s.chains.lookup r = some (s.chainOf r) := by
  have hnodup := g.nodup_order sink
  rw [ofGraph] at h
  rw [horder] at h hnodup
  rw [List.foldlM_append] at h
  obtain ⟨s₀, hbefore, h⟩ := bind_eq_ok h
  rw [List.foldlM_cons] at h
  obtain ⟨s₁, hplace, hafter⟩ := bind_eq_ok h
  have hframe₀ := frame_foldlM_place hbefore
  have hframe₁ := frame_place hplace
  have hframe := frame_foldlM_place hafter
  rw [List.nodup_append, List.nodup_cons] at hnodup
  obtain ⟨-, ⟨hr, -⟩, hdisjoint⟩ := hnodup
  have hkept : ∀ x ∈ before, s₀.chains.lookup x = s.chains.lookup x := by
    intro x hx
    have hne : x ≠ r := hdisjoint x hx r List.mem_cons_self
    rw [hframe.lookup x fun hmem => hdisjoint x hx x (List.mem_cons_of_mem _ hmem) rfl,
      hframe₁.lookup x (by simpa using hne)]
  obtain ⟨c, hchain, rfl⟩ := place_eq_ok hplace
  have hlookup : s.chains.lookup r = some c := by
    rw [hframe.lookup r hr, lookup_insertKey, List.lookup_cons_self]
  have hchainOf : s.chainOf r = c := by rw [chainOf, hlookup, Option.getD_some]
  refine ⟨s₀, ⟨hframe.waits.symm, hframe.nest.symm, hframe.pinned.symm, hkept, fun x hx => ?_⟩, ?_, ?_⟩
  · rw [hframe₀.lookup x hx, List.lookup_nil]
  · rw [hchainOf, hchain]
  · rw [hchainOf, hlookup]

theorem ofGraph_lookup_none (h : ofGraph g sink waits = .ok s) (hx : x ∉ g.order sink) :
    s.chains.lookup x = none := by
  rw [(frame_foldlM_place h).lookup x hx, List.lookup_nil]

/-! ### The chains of a graph -/

section Placed

variable (hg : g.Sound) (hsink : sink < g.size) (h : ofGraph g sink waits = .ok s)

include hg hsink h

theorem innerChain_prefix (hr : r ∈ g.order sink) (hnests : Nests (g.op r).kind)
    (hx : x ∈ g.sources r) : innerChain g s x <+: s.chainOf r := by
  obtain ⟨before, after, horder⟩ := List.append_of_mem hr
  obtain ⟨s₀, hearlier, hchain, -⟩ := ofGraph_placed h horder
  rw [← hearlier.innerChain (hg.sources_done hsink horder x hx)]
  refine prefix_of_chainFor hnests hchain x ?_
  exact List.mem_append_left _ (List.mem_append_left _ hx)

omit hg hsink in
theorem chainOf_sink {rs : List Ref} (hr : r ∈ g.order sink) (hop : g.op r = .sink rs) :
    s.chainOf r = [] := by
  obtain ⟨before, after, horder⟩ := List.append_of_mem hr
  obtain ⟨s₀, -, hchain, -⟩ := ofGraph_placed h horder
  rw [chainFor, hop] at hchain
  exact (Except.ok.inj hchain).symm

theorem chainOf_accumulator {slot : Nat} {init : Value} {loops : List Ref} {l : Ref}
    (hr : r ∈ g.order sink) (hop : g.op r = .defineAcc slot init loops) (hl : l ∈ g.order sink)
    (hfirst : firstMin? (fun l => (s.chainOf l).length) loops = some l) :
    s.chainOf r = s.chainOf l := by
  obtain ⟨before, after, horder⟩ := List.append_of_mem hr
  obtain ⟨s₀, hearlier, hchain, -⟩ := ofGraph_placed h horder
  rw [chainFor, hop] at hchain
  have hchain : s₀.accChain loops = s.chainOf r := Except.ok.inj hchain
  -- A loop that is in use was placed before; a reference to another slot has no chain.
  have hlookup : ∀ x ∈ loops, s₀.chains.lookup x = s.chains.lookup x := by
    intro x hx
    by_cases hmem : x ∈ g.order sink
    · refine hearlier.lookup x (hg.sources_done hsink horder x ?_)
      rw [Graph.sources, hop, ← hg.resolve_order hsink x hmem]
      exact List.mem_map_of_mem hx
    · rw [ofGraph_lookup_none h hmem]
      refine hearlier.lookup_none x fun hbefore => hmem ?_
      rw [horder]
      exact List.mem_append_left _ hbefore
  rw [accChain, List.filterMap_congr hlookup] at hchain
  have hplaced : ∀ {x}, x ∈ g.order sink → s.chains.lookup x = some (s.chainOf x) := by
    intro x hx
    obtain ⟨before, after, horder⟩ := List.append_of_mem hx
    obtain ⟨-, -, -, hsome⟩ := ofGraph_placed h horder
    exact hsome
  by_cases hall : ∀ x ∈ loops, x ∈ g.order sink
  · have hmap : loops.filterMap (fun x => s.chains.lookup x) = loops.map s.chainOf := by
      rw [← List.filterMap_eq_map]
      exact List.filterMap_congr fun x hx => hplaced (hall x hx)
    rw [hmap, firstMin?_map, hfirst] at hchain
    exact hchain.symm
  · -- Otherwise the outermost loop has no scopes around it.
    obtain ⟨x, hx, hmem⟩ : ∃ x ∈ loops, x ∉ g.order sink := by simpa using hall
    have hnone : s.chainOf x = [] := by rw [chainOf, ofGraph_lookup_none h hmem, Option.getD_none]
    have hempty : s.chainOf l = [] := by
      have hle := (firstMin?_spec hfirst).2 x hx
      rw [hnone] at hle
      exact List.length_eq_zero_iff.mp (Nat.le_zero.mp hle)
    have hknown : [] ∈ loops.filterMap fun x => s.chains.lookup x :=
      List.mem_filterMap.mpr ⟨l, (firstMin?_spec hfirst).1, by rw [hplaced hl, hempty]⟩
    rw [hempty, ← hchain]
    cases hmin : firstMin? List.length (loops.filterMap fun x => s.chains.lookup x) with
    | none => rfl
    | some c =>
      have hle := (firstMin?_spec hmin).2 [] hknown
      exact List.length_eq_zero_iff.mp (Nat.le_zero.mp hle)

end Placed

end Scopes

end LazyTensor

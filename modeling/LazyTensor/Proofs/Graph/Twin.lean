import LazyTensor.Proofs.Graph.Correspondence

/-!
# Nodes that unfold to the same expression

Twins are nodes in use that unfold to the same expression, in one graph or in two. In sound graphs a
node has one twin at most, so twins correspond. Pruning keeps one twin of each node under a root, and
what it gives depends only on the expression that the root unfolds to.
-/

namespace LazyTensor

namespace Graph

variable {g h g' h' : Graph} {a b a' b' r : Ref} {o : Op} {t : DType}

/-- Nodes in use that do the same on twins. -/
inductive Twin (g h : Graph) : Ref → Ref → Prop
  | node {a b : Ref} {o : Op} {t : DType} {f : Ref → Ref} (left : g.Holds a ⟨o, t⟩)
    (right : h.Holds b ⟨o.mapSources f, t⟩) (source : ∀ s ∈ o.sources, Twin g h s (f s)) :
    Twin g h a b

section

variable (hab : Twin g h a b)

include hab

theorem Twin.lt_size : a < g.size ∧ b < h.size := by
  obtain ⟨left, right, -⟩ := hab
  exact ⟨left.lt_size, right.lt_size⟩

theorem Twin.resolve_eq : g.resolve a = a ∧ h.resolve b = b := by
  obtain ⟨left, right, -⟩ := hab
  exact ⟨left.resolve_eq, right.resolve_eq⟩

theorem Twin.dtype_eq : g.dtype a = h.dtype b := by
  obtain ⟨left, right, -⟩ := hab
  rw [dtype, left.get_eq, dtype, right.get_eq]

theorem Twin.op_matches : Op.Matches (Twin g h) (g.op a) (h.op b) := by
  obtain ⟨left, right, source⟩ := hab
  rw [op, left.get_eq, op, right.get_eq]
  exact Op.matches_mapSources source

theorem Twin.grows (hg : g.Grows g') (hh : h.Grows h') : Twin g' h' a b := by
  induction hab with
  | node left right _ ih => exact .node (hg.holds left) (hh.holds right) ih

omit hab in
theorem Twin.of_grows (hab : Twin g' h' a b) (hg : g.Sound) (hh : h.Sound) (hgg : g.Grows g')
    (hhh : h.Grows h') (ha : a < g.size) (hb : b < h.size) : Twin g h a b := by
  induction hab with
  | @node a b o t f left right _ ih =>
    have left' := hg.wellFormed.holds_of_grows hgg left ha
    have right' := hh.wellFormed.holds_of_grows hhh right hb
    refine .node left' right' fun s hs => ih s hs ?_ ?_
    · exact hg.source_lt ha (by rwa [op, left'.get_eq])
    · refine hh.source_lt hb ?_
      rw [op, right'.get_eq, Op.sources_mapSources]
      exact List.mem_map_of_mem hs

theorem Twin.left : Twin g g a a := by
  induction hab with
  | node left _ _ ih => exact .node (f := id) left (by rwa [Op.mapSources_id]) ih

theorem Twin.right : Twin h h b b := by
  induction hab with
  | node _ right _ ih =>
    refine .node (f := id) right (by rwa [Op.mapSources_id]) ?_
    rw [Op.sources_mapSources, List.forall_mem_map]
    exact ih

theorem Twin.eq_iff (hg : g.Sound) (hh : h.Sound) (hab' : Twin g h a' b') : a = a' ↔ b = b' := by
  classical
  induction hab generalizing a' b' with
  | @node a b o t f left right source ih =>
    obtain @⟨_, _, o', t', f', left', right', source'⟩ := hab'
    constructor
    · rintro rfl
      obtain ⟨rfl, rfl⟩ := Instr.mk.inj (left.unique left')
      refine hh.unique right ?_
      rwa [Op.mapSources_congr fun s hs => (ih s hs (source' s hs)).mp rfl]
    · rintro rfl
      obtain ⟨hop, rfl⟩ := Instr.mk.inj (right.unique right')
      -- On the sources of `o` the renaming has an inverse, which takes both operations back.
      let k := fun y => if hex : ∃ s ∈ o.sources, f s = y then hex.choose else y
      have hk : ∀ s ∈ o.sources, ∀ s', Twin g h s' (f s) → k (f s) = s' := by
        intro s hs s' hs'
        have hex : ∃ s' ∈ o.sources, f s' = f s := ⟨s, hs, rfl⟩
        simp only [k, dif_pos hex]
        exact (ih _ hex.choose_spec.1 hs').mpr hex.choose_spec.2
      have hback : (o.mapSources f).mapSources k = o := by
        rw [Op.mapSources_mapSources]
        exact Op.mapSources_eq_self fun s hs => hk s hs s (source s hs)
      have hback' : (o'.mapSources f').mapSources k = o' := by
        rw [Op.mapSources_mapSources]
        refine Op.mapSources_eq_self fun s' hs' => ?_
        have hmem : f' s' ∈ (o.mapSources f).sources := by
          rw [hop, Op.sources_mapSources]
          exact List.mem_map_of_mem hs'
        rw [Op.sources_mapSources] at hmem
        obtain ⟨s, hs, hfs⟩ := List.mem_map.mp hmem
        have htwin := source' s' hs'
        rw [← hfs] at htwin
        rw [Function.comp_apply, ← hfs]
        exact hk s hs s' htwin
      rw [← hback, hop, hback'] at left
      exact hg.unique left left'

end

/-! ### Adding twins -/

theorem resolved_eq_self (ho : ∀ s ∈ o.sources, g.resolve s = s) : g.resolved ⟨o, t⟩ = ⟨o, t⟩ := by
  rw [resolved, Op.mapSources_eq_self ho]

theorem twin_insert {f : Ref → Ref} (hg : g.Sound) (hh : h.Sound)
    (hsource : ∀ s ∈ o.sources, Twin g h s (f s)) :
    Twin (g.insert ⟨o, t⟩).2 (h.insert ⟨o.mapSources f, t⟩).2 (g.insert ⟨o, t⟩).1
      (h.insert ⟨o.mapSources f, t⟩).1 := by
  obtain ⟨hgrows, hholds⟩ := insert_spec hg.wellFormed ⟨o, t⟩
  obtain ⟨hgrows', hholds'⟩ := insert_spec hh.wellFormed ⟨o.mapSources f, t⟩
  rw [resolved_eq_self fun s hs => (hsource s hs).resolve_eq.1] at hholds
  rw [resolved_eq_self] at hholds'
  · exact .node hholds hholds' fun s hs => (hsource s hs).grows hgrows hgrows'
  · rw [Op.sources_mapSources, List.forall_mem_map]
    exact fun s hs => (hsource s hs).resolve_eq.2

end Graph

namespace Correspondence

open LazyTensor.Graph

/-- Twins in sound graphs. -/
def twins : Correspondence where
  Over g h := g.Sound ∧ h.Sound
  Rel := Twin
  Writable _ _ := True
  sound hC := hC
  lt_size _ hab := hab.lt_size
  resolve _ hab := by rwa [hab.resolve_eq.1, hab.resolve_eq.2]
  eq_iff hC hab hab' := hab.eq_iff hC.1 hC.2 hab'
  dtype _ hab := hab.dtype_eq
  op _ hab := hab.op_matches
  grows _ hg hh _ hab := hab.grows hg hh
  writable _ _ _ := trivial
  writable_grows _ _ _ := trivial
  insert {g h o p t} hC hop _ := by
    obtain ⟨f, rfl, hf⟩ := hop.exists_map fun a b b' hab hab' => (hab.eq_iff hC.1 hC.2 hab').mp rfl
    refine ⟨⟨hC.1.insert fun s hs => (hf s hs).lt_size.1, hC.2.insert ?_⟩,
      twin_insert hC.1 hC.2 hf⟩
    simp only [Op.sources_mapSources, List.forall_mem_map]
    exact fun s hs => (hf s hs).lt_size.2

/-- The nodes of one sound graph, each with itself. -/
def nodes : Correspondence where
  Over g h := g = h ∧ g.Sound
  Rel g _ a b := a = b ∧ a < g.size
  Writable _ _ := True
  sound hC := ⟨hC.2, hC.1 ▸ hC.2⟩
  lt_size hC hab := ⟨hab.2, hC.1 ▸ hab.1 ▸ hab.2⟩
  resolve hC hab := ⟨by rw [hC.1, hab.1], hC.2.wellFormed.resolve_lt hab.2⟩
  eq_iff _ hab hab' := by rw [hab.1, hab'.1]
  dtype hC hab := by rw [hC.1, hab.1]
  op {g h a b} hC hab := by
    have hmatches := Op.matches_mapSources (R := fun a b => a = b ∧ a < g.size) (f := id)
      fun s hs => ⟨rfl, hC.2.source_lt hab.2 hs⟩
    rw [Op.mapSources_id] at hmatches
    rwa [← hC.1, ← hab.1]
  grows _ hg _ _ hab := ⟨hab.1, Nat.lt_of_lt_of_le hab.2 hg.size_le⟩
  writable _ _ _ := trivial
  writable_grows _ _ _ := trivial
  insert {g h o p t} hC hop _ := by
    obtain ⟨rfl, hg⟩ := hC
    have hop' := hop.eq_mapSources (f := id) fun a b _ hab => hab.1.symm
    rw [Op.mapSources_id] at hop'
    subst hop'
    have hsources := List.forall₂_same.mp hop.sources
    refine ⟨⟨rfl, hg.insert fun s hs => (hsources s hs).2⟩, rfl, ?_⟩
    exact (insert_spec hg.wellFormed _).2.lt_size

end Correspondence

namespace Graph

variable {g h P : Graph} {root root' r : Ref} {done : List Ref} {places : List (Ref × Ref)}

/-! ### Pruning -/

/-- Twins of the nodes that are done were added to `P`, and nothing else. -/
structure Copied (g : Graph) (done : List Ref) (P : Graph) (places : List (Ref × Ref)) : Prop where
  sound : P.Sound
  twin : ∀ r ∈ done, ∃ i, places.lookup r = some i ∧ Twin g P r i
  only : ∀ i < P.size, ∃ r, Twin g P r i

def copyNode (source : Graph) (g : Graph) (places : List (Ref × Ref)) (r : Ref) :
    Graph × List (Ref × Ref) :=
  let n := source.get r
  let (i, g) := g.insert { n with op := n.op.mapSources (placeOf source places) }
  (g, (r, i) :: places)

theorem copied_empty (g : Graph) : Copied g [] {} [] :=
  ⟨sound_empty, by simp, nofun⟩

theorem Copied.node (hg : g.Sound) (hP : Copied g done P places) (hr : Twin g g r r)
    (hdone : ∀ s ∈ g.sources r, s ∈ done) :
    Copied g (r :: done) (copyNode g P places r).1 (copyNode g P places r).2 := by
  obtain @⟨_, _, o, t, k, hholds, _, hsource⟩ := hr
  have hlive : ∀ s ∈ o.sources, g.resolve s = s := fun s hs => (hsource s hs).resolve_eq.1
  have htwin : ∀ s ∈ o.sources, Twin g P s (placeOf g places s) := by
    intro s hs
    have hmem : s ∈ g.sources r := by
      rw [sources, op, hholds.get_eq]
      exact List.mem_map.mpr ⟨s, hs, hlive s hs⟩
    obtain ⟨i, hi, htwin⟩ := hP.twin s (hdone s hmem)
    rwa [placeOf, hlive s hs, hi, Option.getD_some]
  simp only [copyNode, hholds.get_eq]
  generalize placeOf g places = f at htwin
  obtain ⟨hgrows, hnew⟩ := insert_spec hP.sound.wellFormed ⟨o.mapSources f, t⟩
  have hself := Grows.refl hg.wellFormed
  rw [resolved_eq_self] at hnew
  · have hcopy := Twin.node hholds hnew fun s hs => (htwin s hs).grows hself hgrows
    refine ⟨hP.sound.insert ?_, ?_, ?_⟩
    · simp only [Op.sources_mapSources, List.forall_mem_map]
      exact fun s hs => (htwin s hs).lt_size.2
    · intro x hx
      rw [List.lookup_cons]
      by_cases hxr : x = r
      · subst hxr
        rw [beq_self_eq_true]
        exact ⟨_, rfl, hcopy⟩
      · obtain ⟨i, hi, htwin⟩ := hP.twin x ((List.mem_cons.mp hx).resolve_left hxr)
        rw [beq_false_of_ne hxr]
        exact ⟨i, hi, htwin.grows hself hgrows⟩
    · intro i hi
      by_cases hlt : i < P.size
      · obtain ⟨x, htwin⟩ := hP.only i hlt
        exact ⟨x, htwin.grows hself hgrows⟩
      · exact ⟨r, eq_of_lt_insert hlt hi ▸ hcopy⟩
  · rw [Op.sources_mapSources, List.forall_mem_map]
    exact fun s hs => (htwin s hs).resolve_eq.2

theorem Twin.order_left (hg : g.Sound) (hroot : Twin g g root root) :
    ∀ r ∈ g.order root, Twin g g r r :=
  List.forall₂_same.mp (Correspondence.twins.order ⟨hg, hg⟩ hroot)

theorem Sound.sources_done (hg : g.Sound) (hroot : root < g.size) {before after : List Ref}
    (horder : g.order root = before ++ r :: after) : ∀ s ∈ g.sources r, s ∈ before := by
  have hord := (hg.ordered_order hroot).1
  rw [horder, List.reverse_append, List.reverse_cons, List.append_assoc] at hord
  intro s hs
  exact List.mem_reverse.mp (hord.reads_mem_of_append hs)

theorem copyFrom_induction {I : List Ref → Graph → List (Ref × Ref) → Prop} (hg : g.Sound)
    (hroot : Twin g g root root) (hstart : I [] {} [])
    (hnode : ∀ before P places r, (before ++ [r]).Nodup → Copied g before.reverse P places →
      Copied g (before ++ [r]).reverse (copyNode g P places r).1 (copyNode g P places r).2 →
      I before P places → I (before ++ [r]) (copyNode g P places r).1 (copyNode g P places r).2) :
    Copied g (g.order root).reverse (copyFrom {} g root).1 (copyFrom {} g root).2 ∧
      I (g.order root) (copyFrom {} g root).1 (copyFrom {} g root).2 := by
  suffices hgen : ∀ after before P places, g.order root = before ++ after →
      Copied g before.reverse P places → I before P places →
      Copied g (g.order root).reverse
          (after.foldl (fun p r => copyNode g p.1 p.2 r) (P, places)).1
          (after.foldl (fun p r => copyNode g p.1 p.2 r) (P, places)).2 ∧
        I (g.order root) (after.foldl (fun p r => copyNode g p.1 p.2 r) (P, places)).1
          (after.foldl (fun p r => copyNode g p.1 p.2 r) (P, places)).2 from
    hgen (g.order root) [] {} [] rfl (copied_empty g) hstart
  intro after
  induction after with
  | nil =>
    intro before P places horder hP hI
    rw [horder, List.append_nil]
    exact ⟨hP, hI⟩
  | cons r after ih =>
    intro before P places horder hP hI
    have hr : r ∈ g.order root := by rw [horder]; simp
    have hsplit : g.order root = before ++ [r] ++ after := by rw [horder]; simp
    have hnodup := nodup_order g root
    rw [hsplit] at hnodup
    have hcopied := hP.node hg (hroot.order_left hg r hr) fun s hs =>
      List.mem_reverse.mpr (hg.sources_done hroot.lt_size.1 horder s hs)
    rw [← List.reverse_concat] at hcopied
    exact ih (before ++ [r]) _ _ hsplit hcopied
      (hnode before P places r hnodup.of_append_left hP hcopied hI)

theorem copied_copyFrom (hg : g.Sound) (hroot : Twin g g root root) :
    Copied g (g.order root).reverse (copyFrom {} g root).1 (copyFrom {} g root).2 :=
  (copyFrom_induction (I := fun _ _ _ => True) hg hroot trivial fun _ _ _ _ _ _ _ => id).1

/-- Pruning keeps a twin of the root, and twins only. -/
theorem Twin.prune (hg : g.Sound) (hroot : Twin g g root root) :
    (g.prune root).1.Sound ∧ Twin g (g.prune root).1 root (g.prune root).2 ∧
      ∀ i < (g.prune root).1.size, ∃ r, Twin g (g.prune root).1 r i := by
  have hcopied := copied_copyFrom hg hroot
  have hmem := (hg.ordered_order hroot.lt_size.1).2
  obtain ⟨i, hi, htwin⟩ := hcopied.twin _ (List.mem_reverse.mpr hmem)
  refine ⟨hcopied.sound, ?_, hcopied.only⟩
  simp only [Graph.prune, placeOf]
  rw [hi, Option.getD_some]
  rwa [hroot.resolve_eq.1] at htwin

section Alike

variable {places' : List (Ref × Ref)} {a b : Ref}

/-- Twins were put in the same places. -/
def PlacesRel (g h : Graph) : List (Ref × Ref) → List (Ref × Ref) → Prop :=
  List.Forall₂ fun x y => Twin g h x.1 y.1 ∧ x.2 = y.2

variable (hg : g.Sound) (hh : h.Sound) (hplaces : PlacesRel g h places places')

include hg hh hplaces

theorem PlacesRel.lookup_eq (hab : Twin g h a b) : places.lookup a = places'.lookup b := by
  induction hplaces with
  | nil => rfl
  | @cons x y _ _ hxy _ ih =>
    obtain ⟨k, i⟩ := x
    obtain ⟨k', i'⟩ := y
    obtain ⟨hk, rfl⟩ := hxy
    rw [List.lookup_cons, List.lookup_cons, ih]
    by_cases hak : a = k
    · rw [hak, (hab.eq_iff hg hh hk).mp hak, beq_self_eq_true, beq_self_eq_true]
    · have hbk := fun heq => hak ((hab.eq_iff hg hh hk).mpr heq)
      rw [beq_false_of_ne hak, beq_false_of_ne hbk]

theorem PlacesRel.placeOf_eq (hP : Copied g done P places) (hab : Twin g h a b) (ha : a ∈ done) :
    placeOf g places a = placeOf h places' b := by
  obtain ⟨i, hi, -⟩ := hP.twin a ha
  rw [placeOf, placeOf, hab.resolve_eq.1, hab.resolve_eq.2, ← hplaces.lookup_eq hg hh hab, hi,
    Option.getD_some, Option.getD_some]

theorem PlacesRel.node (hP : Copied g done P places) (hab : Twin g h a b)
    (hdone : ∀ s ∈ g.sources a, s ∈ done) :
    (copyNode g P places a).1 = (copyNode h P places' b).1 ∧
      PlacesRel g h (copyNode g P places a).2 (copyNode h P places' b).2 := by
  have htwin := hab
  obtain @⟨_, _, o, t, f, hholds, hholds', hsource⟩ := hab
  have hmoved : o.mapSources (placeOf g places) =
      (o.mapSources f).mapSources (placeOf h places') := by
    rw [Op.mapSources_mapSources]
    refine Op.mapSources_congr fun s hs => ?_
    refine hplaces.placeOf_eq hg hh hP (hsource s hs) (hdone s ?_)
    rw [sources, op, hholds.get_eq]
    exact List.mem_map.mpr ⟨s, hs, (hsource s hs).resolve_eq.1⟩
  simp only [copyNode, hholds.get_eq, hholds'.get_eq, hmoved]
  exact ⟨trivial, .cons ⟨htwin, rfl⟩ hplaces⟩

omit hplaces in
/-- Pruning depends only on what the root unfolds to. -/
theorem Twin.prune_eq (hab : Twin g h a b) : g.prune a = h.prune b := by
  have hleft := hab.left
  suffices hgen : ∀ after after', List.Forall₂ (Twin g h) after after' → ∀ before P places places',
      g.order a = before ++ after → Copied g before.reverse P places →
      PlacesRel g h places places' →
      (after.foldl (fun p r => copyNode g p.1 p.2 r) (P, places)).1 =
          (after'.foldl (fun p r => copyNode h p.1 p.2 r) (P, places')).1 ∧
        PlacesRel g h (after.foldl (fun p r => copyNode g p.1 p.2 r) (P, places)).2
          (after'.foldl (fun p r => copyNode h p.1 p.2 r) (P, places')).2 by
    have horders := Correspondence.twins.order ⟨hg, hh⟩ hab
    obtain ⟨hsame, hplaces⟩ := hgen _ _ horders [] {} [] [] rfl (copied_empty g) .nil
    have hmem := (hg.ordered_order hleft.lt_size.1).2
    rw [hleft.resolve_eq.1] at hmem
    refine Prod.ext hsame ?_
    exact hplaces.placeOf_eq hg hh (copied_copyFrom hg hleft) hab
      (List.mem_reverse.mpr hmem)
  intro after after' horders
  induction horders with
  | nil => exact fun before P places places' _ _ hplaces => ⟨rfl, hplaces⟩
  | @cons r r' after after' hr _ ih =>
    intro before P places places' horder hP hplaces
    have hdone : ∀ s ∈ g.sources r, s ∈ before.reverse := fun s hs =>
      List.mem_reverse.mpr (hg.sources_done hleft.lt_size.1 horder s hs)
    have hmem : r ∈ g.order a := by rw [horder]; simp
    obtain ⟨hsame, hplaces'⟩ := hplaces.node hg hh hP hr hdone
    have hcopied := hP.node hg (hleft.order_left hg r hmem) hdone
    rw [← List.reverse_concat] at hcopied
    have hstep := ih (before ++ [r]) _ _ _ (by rw [horder]; simp) hcopied hplaces'
    have hpair : copyNode h P places' r' =
        ((copyNode g P places r).1, (copyNode h P places' r').2) := Prod.ext hsame.symm rfl
    rw [List.foldl_cons, List.foldl_cons, hpair]
    exact hstep

end Alike

end Graph

end LazyTensor

import LazyTensor.Proofs.SymInt.Rename

/-!
# Stripping the values of a layout

Where the variables of a layout differ in their names and all have values, stripping the values
loses nothing: with the values put back by name the layout leads to the same elements, and a view is
marked as contiguous just when it was.
-/

namespace LazyTensor

/-! ### Views in canonical form -/

/-- The parts are canonical, and the view is marked as contiguous just when it is row-major from the
start of the buffer. -/
structure View.Sound [Width] (v : View) : Prop where
  canonical : ∀ x ∈ v.parts, x.Canonical
  contiguous_iff : v.contiguous = true ↔ v.offset = 0 ∧ v.mask = none ∧ v.strides = rowMajor v.shape

section Sound

variable [Width] {offset : SymInt} {shape : Shape}

theorem canonical_rowMajorSize (shape : Shape) :
    (∀ s ∈ (rowMajorSize shape).1, s.Canonical) ∧ (rowMajorSize shape).2.Canonical := by
  induction shape with
  | nil => exact ⟨by simp [rowMajorSize], SymInt.canonical_const 1⟩
  | cons d shape ih =>
    refine ⟨List.forall_mem_cons.mpr ⟨?_, ih.1⟩, SymInt.canonical_mul _ _⟩
    split
    · exact SymInt.canonical_const 0
    · exact ih.2

theorem View.canonical_foldSingles (mask : Mask) {strides : List SymInt}
    (hstrides : ∀ s ∈ strides, s.Canonical) (hoffset : offset.Canonical) :
    (∀ s ∈ (foldSingles mask strides offset).1, s.Canonical) ∧
      (foldSingles mask strides offset).2.Canonical := by
  fun_induction foldSingles mask strides offset with
  | case1 b e mask s strides offset _ strides' offset' heq ih =>
    rw [List.forall_mem_cons] at hstrides
    rw [heq] at ih
    obtain ⟨ih, ih'⟩ := ih hstrides.2 (SymInt.canonical_add hoffset (SymInt.canonical_mul _ _))
    exact ⟨List.forall_mem_cons.mpr ⟨SymInt.canonical_const 0, ih⟩, ih'⟩
  | case2 b e mask s strides offset _ strides' offset' heq ih =>
    rw [List.forall_mem_cons] at hstrides
    rw [heq] at ih
    obtain ⟨ih, ih'⟩ := ih hstrides.2 hoffset
    exact ⟨List.forall_mem_cons.mpr ⟨hstrides.1, ih⟩, ih'⟩
  | case3 => exact ⟨hstrides, hoffset⟩

theorem View.sound_invalid (h : ∀ d ∈ shape, d.Canonical) : (invalid shape).Sound := by
  refine ⟨fun x hx => ?_, by simp [invalid]⟩
  rcases mem_parts.mp hx with hx | hx | rfl | ⟨m, hm, r, hr, hx⟩
  · exact h x hx
  · obtain ⟨d, -, rfl⟩ := List.mem_map.mp hx
    exact SymInt.canonical_const 0
  · exact SymInt.canonical_const 0
  · obtain rfl := Option.some.inj hm
    obtain ⟨d, -, rfl⟩ := List.mem_map.mp hr
    rcases hx with rfl | rfl <;> exact SymInt.canonical_const 0

theorem View.sound_create {strides : Option (List SymInt)} {mask : Option Mask}
    (hshape : ∀ d ∈ shape, d.Canonical)
    (hstrides : ∀ ss, strides = some ss → ∀ s ∈ ss, s.Canonical) (hoffset : offset.Canonical)
    (hmask : ∀ m, mask = some m → ∀ r ∈ m, r.1.Canonical ∧ r.2.Canonical) :
    (create shape strides offset mask).Sound := by
  obtain ⟨given, hgiven, hcreate⟩ : ∃ given : List SymInt, (∀ s ∈ given, s.Canonical) ∧
      create shape strides offset mask = create shape (some given) offset mask := by
    cases strides with
    | none => exact ⟨rowMajor shape, (canonical_rowMajorSize shape).1, create_none_eq _ _ _⟩
    | some ss => exact ⟨ss, hstrides ss rfl, rfl⟩
  rw [hcreate]
  have hunits : ∀ s ∈ given.zipWith (fun s d => if d = 1 then 0 else s) shape, s.Canonical := by
    intro s hs
    obtain ⟨i, hi, rfl⟩ := List.mem_iff_getElem.mp hs
    rw [List.getElem_zipWith]
    split
    · exact SymInt.canonical_const 0
    · exact hgiven _ (List.getElem_mem _)
  have hplain : ∀ strides : List SymInt, (∀ s ∈ strides, s.Canonical) →
      View.Sound ⟨shape, strides, offset, none, offset == 0 && strides == rowMajor shape⟩ := by
    refine fun strides hstrides => ⟨fun x hx => ?_, by simp⟩
    rcases mem_parts.mp hx with hx | hx | rfl | ⟨m, hm, -⟩
    · exact hshape x hx
    · exact hstrides x hx
    · exact hoffset
    · cases hm
  unfold create
  cases mask with
  | none => exact hplain _ hunits
  | some m =>
    dsimp only
    split
    · exact sound_invalid hshape
    · split
      · exact hplain _ hunits
      · obtain ⟨hfolded, hoffset'⟩ := canonical_foldSingles m hunits hoffset
        refine ⟨fun x hx => ?_, by simp⟩
        rcases mem_parts.mp hx with hx | hx | rfl | ⟨m', hm, r, hr, hx⟩
        · exact hshape x hx
        · exact hfolded x hx
        · exact hoffset'
        · obtain ⟨hstart, hstop⟩ := hmask m' hm r hr
          rcases hx with rfl | rfl <;> assumption

end Sound

/-! ### Values put back -/

def View.mapParts (f : SymInt → SymInt) (v : View) : View :=
  { v with
    shape := v.shape.map f
    strides := v.strides.map f
    offset := f v.offset
    mask := v.mask.map fun m => m.map fun r => (f r.1, f r.2) }

def Layout.mapParts (f : SymInt → SymInt) (l : Layout) : Layout :=
  ⟨l.top.mapParts f, l.below.map fun v => v.mapParts f⟩

theorem Layout.mapParts_mapParts (f g : SymInt → SymInt) (l : Layout) :
    (l.mapParts f).mapParts g = l.mapParts fun x => g (f x) := by
  have hview : ∀ v : View, (v.mapParts f).mapParts g = v.mapParts fun x => g (f x) := fun v => by
    simp [View.mapParts, Function.comp_def]
  simp [mapParts, hview]

def Bindings.byName (bs : Bindings) (name : String) : Option Int :=
  (bs.find? fun b => b.1.name == name).map (·.2)

section Index

variable [Width] {f : SymInt → SymInt} {xs : List SymInt}

/-- The constant that a symbolic integer evaluates to under bindings by name, if it does. -/
def SymInt.evaluated (env : String → Option Int) (x : SymInt) : SymInt := (x.eval? env).elim x .const

theorem boundShape?_map (h : ∀ x ∈ xs, (f x).evalBound? = x.evalBound?) :
    boundShape? (xs.map f) = boundShape? xs := by
  induction xs with
  | nil => rfl
  | cons x xs ih =>
    rw [List.forall_mem_cons] at h
    rw [boundShape?, boundShape?, List.map_cons, List.mapM_cons, List.mapM_cons, h.1]
    exact congrArg _ (funext fun d => congrArg (· >>= _) (ih h.2))

theorem View.dot?_map (h : ∀ x ∈ xs, (f x).evalBound? = x.evalBound?) (coords : List Int) :
    dot? (xs.map f) coords = dot? xs coords := by
  induction xs generalizing coords with
  | nil => rfl
  | cons x xs ih =>
    rw [List.forall_mem_cons] at h
    cases coords with
    | nil => rfl
    | cons c coords => rw [List.map_cons, dot?, dot?, h.1, ih h.2]

theorem View.index_mapParts {v : View} (h : ∀ x ∈ v.parts, (f x).evalBound? = x.evalBound?) :
    (v.mapParts f).index = v.index := by
  have hmask : ∀ (m : Mask) (p : (SymInt × SymInt) × Int → Bool) (coords : List Int),
      (∀ r ∈ m, ∀ c, p ((f r.1, f r.2), c) = p (r, c)) →
      ((m.map fun r => (f r.1, f r.2)).zip coords).all p = (m.zip coords).all p := by
    intro m p
    induction m with
    | nil => exact fun _ _ => rfl
    | cons r m ih =>
      intro coords hp
      rw [List.forall_mem_cons] at hp
      cases coords with
      | nil => rfl
      | cons c coords =>
        rw [List.map_cons, List.zip_cons_cons, List.zip_cons_cons, List.all_cons, List.all_cons,
          hp.1 c, ih coords hp.2]
  have hranges : ∀ (p : (SymInt × SymInt) × Int → Bool) (coords : List Int),
      (∀ m, v.mask = some m → ∀ r ∈ m, ∀ c, p ((f r.1, f r.2), c) = p (r, c)) →
      (((v.mapParts f).mask.getD []).zip coords).all p = ((v.mask.getD []).zip coords).all p := by
    intro p coords hp
    show (((v.mask.map fun m => m.map fun r => (f r.1, f r.2)).getD []).zip coords).all p = _
    cases hm : v.mask with
    | none => rfl
    | some m => exact hmask m p coords (hp m hm)
  funext coords
  rw [index, index, hranges _ _ fun m hm r hr c => ?_]
  rotate_left
  · have hstart := h _ (mem_parts.mpr (.inr (.inr (.inr ⟨m, hm, r, hr, .inl rfl⟩))))
    have hstop := h _ (mem_parts.mpr (.inr (.inr (.inr ⟨m, hm, r, hr, .inr rfl⟩))))
    show inRange? (f r.1, f r.2) c = inRange? r c
    rw [inRange?, inRange?, hstart, hstop]
  show (if _ then (f v.offset).evalBound? >>= fun o => dot? (v.strides.map f) coords >>= _ else _) = _
  rw [h _ (mem_parts.mpr (.inr (.inr (.inl rfl)))),
    dot?_map fun x hx => h x (mem_parts.mpr (.inr (.inl hx)))]

theorem Layout.index_mapParts {l : Layout}
    (h : ∀ v ∈ l.top :: l.below, ∀ x ∈ v.parts, (f x).evalBound? = x.evalBound?) :
    (l.mapParts f).index = l.index := by
  rw [List.forall_mem_cons] at h
  have hbelow : ∀ (views : List View) (i : Int),
      (∀ v ∈ views, ∀ x ∈ v.parts, (f x).evalBound? = x.evalBound?) →
      indexBelow (views.map fun v => v.mapParts f) i = indexBelow views i := by
    intro views
    induction views with
    | nil => exact fun _ _ => rfl
    | cons v views ih =>
      intro i hviews
      rw [List.forall_mem_cons] at hviews
      have hshape : boundShape? (v.mapParts f).shape = boundShape? v.shape :=
        boundShape?_map fun x hx => hviews.1 x (View.mem_parts.mpr (.inl hx))
      have hrest : indexBelow (views.map fun v => v.mapParts f) = indexBelow views :=
        funext fun j => ih j hviews.2
      rw [List.map_cons, indexBelow, indexBelow, hshape, View.index_mapParts hviews.1, hrest]
  funext coords
  rw [index, index]
  show ((l.top.mapParts f).index coords).bind (indexBelow (l.below.map fun v => v.mapParts f)) = _
  rw [View.index_mapParts h.1, funext fun i => hbelow l.below i h.2]

end Index

/-! ### Values stripped -/

section Unbind

variable [Width] {vs : List SymVar} (hnames : SymInt.NamesApart vs) {x : SymInt}

theorem SymInt.exists_subst_eq_const {f : SymVar → Option Int} (h : ∀ v ∈ x.vars, (f v).isSome) :
    ∃ n, x.subst f = .const n := by
  have hsubst : ∀ t ∈ x.terms.map (substTerm f), t.1 = [] := by
    intro t ht
    obtain ⟨⟨m, c⟩, hs, rfl⟩ := List.mem_map.mp ht
    have hm : ∀ v ∈ m, (f v).isSome := fun v hv => h v (mem_vars.mpr ⟨_, hs, hv⟩)
    clear hs ht
    induction m with
    | nil => rfl
    | cons v m ih =>
      rw [List.forall_mem_cons] at hm
      obtain ⟨y, hy⟩ := Option.isSome_iff_exists.mp hm.1
      rw [substTerm, List.foldr_cons, hy]
      exact ih hm.2
  have hadd : ∀ (ts acc : List Term), (∀ t ∈ ts, t.1 = []) → (acc = [] ∨ ∃ c, acc = [([], c)]) →
      addTerms ts acc = [] ∨ ∃ c, addTerms ts acc = [([], c)] := by
    intro ts
    induction ts with
    | nil => exact fun acc _ hacc => hacc
    | cons t ts ih =>
      intro acc hts hacc
      rw [List.forall_mem_cons] at hts
      refine ih (addTerm t.1 t.2 acc) hts.2 (.inr ?_)
      rw [hts.1]
      rcases hacc with rfl | ⟨c, rfl⟩ <;> exact ⟨_, rfl⟩
  rw [subst_eq]
  rcases hadd _ [] hsubst (.inl rfl) with heq | ⟨c, heq⟩
  · exact ⟨0, by rw [heq]; rfl⟩
  · exact ⟨c, by rw [heq, ofTerms_singleton]⟩

include hnames

theorem SymInt.Canonical.evalBound?_unbind (hx : x.Canonical) (hvars : ∀ v ∈ x.vars, v ∈ vs)
    (hbound : ∀ v ∈ vs, v.value.isSome) {env : String → Option Int}
    (henv : ∀ v ∈ vs, env v.name = v.value) :
    (x.unbind.1.evaluated env).evalBound? = x.evalBound? := by
  obtain ⟨n, hn⟩ := SymInt.exists_subst_eq_const fun v hv => hbound v (hvars v hv)
  have hrel : Rel (Freed vs) (x.subst SymVar.value)
      (x.unbind.1.subst fun w => (env w.name).or w.value) := by
    refine (hx.rel_unbind hnames hvars).subst hnames.cmp_freed ?_
    rintro v _ ⟨hv, rfl⟩
    show v.value = (env v.name).or none
    rw [henv v hv, Option.or_none]
  have heval : x.unbind.1.evaluated env = .const n := by
    rw [evaluated, eval?, (hrel.eq_const_iff n).mp hn]
    rfl
  rw [heval, evalBound?_const, evalBound?, hn]
  rfl

theorem rowMajorSize_rel {shape shape' : Shape}
    (h : List.Forall₂ (SymInt.Rel (SymInt.Freed vs)) shape shape') :
    List.Forall₂ (SymInt.Rel (SymInt.Freed vs)) (rowMajorSize shape).1 (rowMajorSize shape').1 ∧
      SymInt.Rel (SymInt.Freed vs) (rowMajorSize shape).2 (rowMajorSize shape').2 := by
  induction h with
  | nil => exact ⟨.nil, .const 1⟩
  | @cons d d' shape shape' hd _ ih =>
    refine ⟨.cons ?_ ih.1, ih.2.mul hnames.cmp_freed hd⟩
    have hone : d = 1 ↔ d' = 1 := hd.eq_const_iff 1
    by_cases h1 : d = 1
    · rw [if_pos h1, if_pos (hone.mp h1)]
      exact .const 0
    · rw [if_neg h1, if_neg fun h => h1 (hone.mpr h)]
      exact ih.2

theorem View.Sound.contiguous_unbind {v : View} (hv : v.Sound) (hvars : ∀ w ∈ v.vars, w ∈ vs) :
    v.unbind.1.contiguous = true ↔ v.unbind.1.offset = 0 ∧ v.unbind.1.mask = none ∧
      v.unbind.1.strides = rowMajor v.unbind.1.shape := by
  have hrel : ∀ x ∈ v.parts, SymInt.Rel (SymInt.Freed vs) x x.unbind.1 := fun x hx =>
    (hv.canonical x hx).rel_unbind hnames fun w hw => hvars w (mem_vars.mpr ⟨x, hx, hw⟩)
  have hlist : ∀ xs : List SymInt, (∀ x ∈ xs, x ∈ v.parts) →
      List.Forall₂ (SymInt.Rel (SymInt.Freed vs)) xs (xs.map fun x => x.unbind.1) := by
    intro xs hxs
    rw [List.forall₂_map_right_iff, List.forall₂_same]
    exact fun x hx => hrel x (hxs x hx)
  have hstrides : List.Forall₂ _ v.strides v.unbind.1.strides :=
    hlist v.strides fun x hx => mem_parts.mpr (.inr (.inl hx))
  have hrows : List.Forall₂ _ (rowMajor v.shape) (rowMajor v.unbind.1.shape) :=
    (rowMajorSize_rel hnames (hlist v.shape fun x hx => mem_parts.mpr (.inl hx))).1
  have hunique := (SymInt.Rel.biUnique hnames.biUnique).forall₂
  refine hv.contiguous_iff.trans (and_congr ?_ (and_congr ?_ ⟨fun heq => ?_, fun heq => ?_⟩))
  · exact (hrel _ (mem_parts.mpr (.inr (.inr (.inl rfl))))).eq_const_iff 0
  · exact Option.map_eq_none_iff.symm
  · exact hunique.2 (heq ▸ hstrides) hrows
  · exact hunique.1 (heq ▸ hstrides) hrows

end Unbind

namespace Layout

variable [Width] {l : Layout}

theorem byName_unbind (hnames : SymInt.NamesApart l.vars) (hbound : ∀ v ∈ l.vars, v.value.isSome)
    (hvalues : ∀ b, b ∈ l.unbind.2 ↔ BoundIn l.vars b) {v : SymVar} (hv : v ∈ l.vars) :
    Bindings.byName l.unbind.2 v.name = v.value := by
  obtain ⟨x, hx⟩ := Option.isSome_iff_exists.mp (hbound v hv)
  cases hfind : l.unbind.2.find? fun b => b.1.name == v.name with
  | none =>
    have hmem := (hvalues (v.unbound, x)).mpr ⟨v, hv, rfl, hx⟩
    exact absurd (beq_self_eq_true v.name) (List.find?_eq_none.mp hfind _ hmem)
  | some b =>
    obtain ⟨w, hw, hfree, hvalue⟩ := (hvalues b).mp (List.mem_of_find?_eq_some hfind)
    have hname : b.1.name = v.name := by simpa using List.find?_some hfind
    obtain rfl := hnames w hw v hv ((congrArg SymVar.name hfree).trans hname)
    rw [Bindings.byName, hfind, hvalue]
    rfl

/-- Stripping the values of a layout whose variables have values and differ in their names leaves no
values behind, returns them all, and loses nothing: with the values put back by name the layout
leads to the same elements, and its views are marked as contiguous just when they are. -/
theorem unbind_loses_nothing (hsound : ∀ v ∈ l.top :: l.below, v.Sound)
    (hbound : ∀ v ∈ l.vars, v.value.isSome)
    (hnames : ∀ v ∈ l.vars, ∀ w ∈ l.vars, v.name = w.name → v = w) :
    (∀ v ∈ l.unbind.1.vars, v.value = none) ∧
      (∀ v x, (v, x) ∈ l.unbind.2 ↔ ∃ w ∈ l.vars, w.unbound = v ∧ w.value = some x) ∧
      (∀ coords, (l.unbind.1.mapParts (SymInt.evaluated l.unbind.2.byName)).index coords
        = l.index coords) ∧
      ∀ u ∈ l.unbind.1.top :: l.unbind.1.below,
        u.contiguous = true ↔ u.offset = 0 ∧ u.mask = none ∧ u.strides = rowMajor u.shape := by
  have hvalues : ∀ b, b ∈ l.unbind.2 ↔ BoundIn l.vars b := by
    refine fun b => Univalent.mem_unbind_iff fun v hv w hw hfree x y hx hy => ?_
    obtain rfl := hnames v hv w hw (show v.unbound.name = w.unbound.name by rw [hfree])
    exact Option.some.inj (hx.symm.trans hy)
  have hvars : ∀ v ∈ l.top :: l.below, ∀ w ∈ v.vars, w ∈ l.vars :=
    fun v hv w hw => mem_vars.mpr ⟨v, hv, hw⟩
  refine ⟨fun v => value_of_mem_unbind, fun v x => hvalues (v, x), fun coords => ?_, ?_⟩
  · show ((l.mapParts fun x => x.unbind.1).mapParts _).index coords = _
    rw [mapParts_mapParts, index_mapParts fun v hv x hx =>
      ((hsound v hv).canonical x hx).evalBound?_unbind hnames
        (fun w hw => hvars v hv w (View.mem_vars.mpr ⟨x, hx, hw⟩)) hbound
        fun w hw => byName_unbind hnames hbound hvalues hw]
  · rw [List.forall_mem_cons] at hsound hvars ⊢
    refine ⟨hsound.1.contiguous_unbind hnames hvars.1, fun u hu => ?_⟩
    obtain ⟨v, hv, rfl⟩ := List.mem_map.mp hu
    exact (hsound.2 v hv).contiguous_unbind hnames (hvars.2 v hv)

end Layout

section Witness

attribute [local instance] Width.word64

/-- Rows of a number that is known for one run only. -/
theorem Layout.unbind_loses_nothing_rows :
    ∃ l, l = Layout.ofShape [.var ⟨"n", 1, 8, some 4⟩, .const 3] ∧
      l.unbind.2 = [(⟨"n", 1, 8, none⟩, 4)] ∧ (∀ v ∈ l.unbind.1.vars, v.value = none) ∧
      (l.unbind.1.mapParts (SymInt.evaluated l.unbind.2.byName)).index [3, 2] = some 11 ∧
      l.unbind.1.top.strides = rowMajor l.unbind.1.top.shape := by
  have hsound : ∀ v ∈ [View.ofShape [.var ⟨"n", 1, 8, some 4⟩, .const 3]], v.Sound := by
    refine List.forall_mem_singleton.mpr (View.sound_create ?_ (fun _ h => ?_)
      (SymInt.canonical_const 0) fun _ h => ?_)
    · exact List.forall_mem_cons.mpr ⟨(SymInt.Built.var _).canonical,
        List.forall_mem_singleton.mpr (SymInt.canonical_const 3)⟩
    · cases h
    · cases h
  obtain ⟨hfree, -, hindex, hflag⟩ := Layout.unbind_loses_nothing
    (l := Layout.ofShape [.var ⟨"n", 1, 8, some 4⟩, .const 3]) hsound (by decide +kernel)
    (by decide +kernel)
  refine ⟨_, rfl, by decide +kernel, hfree, (hindex _).trans (by decide +kernel), ?_⟩
  exact ((hflag _ List.mem_cons_self).mp (by decide +kernel)).2.2

end Witness

end LazyTensor

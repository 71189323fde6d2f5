import LazyTensor.Expr.Build
import LazyTensor.Proofs.Layout.Bindings
import LazyTensor.Proofs.Layout.Total

/-!
# Shapes and variables of layouts

Whatever views are merged below it, a layout has the shape of the view on top. Merging and composing
bring no new values of variables: what a layout binds is bound by one of the views it is made of.
-/

namespace LazyTensor

open Merge

/-! ### Shapes -/

section Shapes

variable [Width] {v inner outer : View}

theorem View.shape_create (shape : Shape) (strides : Option (List SymInt)) (offset : SymInt)
    (mask : Option Mask) : (View.create shape strides offset mask).shape = shape := by
  unfold View.create
  cases mask with
  | none => rfl
  | some m =>
    dsimp only
    split
    · rfl
    · split <;> rfl

theorem View.shape_ofShape (shape : Shape) : (View.ofShape shape).shape = shape :=
  View.shape_create ..

theorem Merge.affine?_parts {i o : Affine} {shape : Shape} (h : affine? i o shape = some v) :
    v = .invalid shape ∨ ∃ (strides : List Int) (offset : Int) (mask : List (Int × Int)),
      v = .create shape (some (strides.map .const)) (.const offset) (some (constRanges mask)) := by
  rcases affine?_cases h with ⟨hv, -⟩ | ⟨_, _, _, _, _, _, _, _, _, _, _, ⟨hv, -⟩ | ⟨mask, -, hv⟩⟩
  · exact .inl hv
  · exact .inl hv
  · exact .inr ⟨_, _, mask, hv⟩

theorem View.merge?_cases (h : inner.merge? outer = some v) :
    v = outer ∨ (v = inner ∧ outer.shape = inner.shape) ∨
      ∃ i o, Affine.ofView? inner = some i ∧ Affine.ofView? outer = some o ∧
        affine? i o outer.shape = some v := by
  unfold View.merge? at h
  split at h
  · exact .inl (Option.some.inj h).symm
  split at h
  next hsame => exact .inr (.inl ⟨(Option.some.inj h).symm, hsame.2⟩)
  obtain ⟨i, hi, h⟩ := Option.bind_eq_some_iff.mp h
  obtain ⟨o, ho, h⟩ := Option.bind_eq_some_iff.mp h
  exact .inr (.inr ⟨i, o, hi, ho, h⟩)

theorem View.shape_of_merge? (h : inner.merge? outer = some v) : v.shape = outer.shape := by
  rcases View.merge?_cases h with rfl | ⟨rfl, hshape⟩ | ⟨i, o, -, -, h⟩
  · rfl
  · exact hshape.symm
  · rcases affine?_parts h with rfl | ⟨strides, offset, mask, rfl⟩
    · rfl
    · exact View.shape_create ..

namespace Layout

variable {l l' m : Layout} {shape : Shape}

theorem shape_settle (top : View) (views : List View) : (settle top views).shape = top.shape := by
  induction views generalizing top with
  | nil => rfl
  | cons v views ih =>
    rw [settle]
    split
    next merged hmerged => rw [ih, View.shape_of_merge? hmerged]
    next => rfl

theorem shape_push (l : Layout) (v : View) : (l.push v).shape = v.shape := shape_settle ..

theorem shape_ofShape (shape : Shape) : (ofShape shape).shape = shape := View.shape_ofShape shape

theorem shape_compose (l m : Layout) : (l.compose m).shape = m.shape := by
  rw [compose, views, List.reverse_cons, List.foldl_append]
  exact shape_push ..

theorem shape_reshape (h : l.reshape shape = .ok l') : l'.shape = shape := by
  obtain ⟨result, htop, h⟩ := bind_eq_ok h
  cases result with
  | none =>
    obtain rfl := Except.ok.inj h
    exact (shape_push ..).trans (View.shape_ofShape shape)
  | some v =>
    obtain rfl := Except.ok.inj h
    rw [shape_settle]
    rcases View.reshape_cases htop with ⟨hsame, hv⟩ | ⟨-, ⟨-, hv⟩ | ⟨-, hv⟩⟩
    · rw [Option.some.inj hv, hsame]
    · rw [Option.some.inj hv, View.shape_ofShape]
    · exact (View.shape_of_merge? hv.symm).trans (View.shape_ofShape shape)

theorem shape_expand (h : l.expand shape = .ok l') : l'.shape = shape := by
  rw [expand, move] at h
  obtain ⟨v, htop, rfl⟩ := map_eq_ok h
  show v.shape = shape
  rw [View.expand] at htop
  split at htop
  · cases htop
  · split at htop
    · rw [← Except.ok.inj htop, View.shape_ofShape]
    · obtain ⟨u, -, htop⟩ := bind_eq_ok htop
      rw [← Except.ok.inj htop, View.shape_create]

end Layout

end Shapes

/-! ### Variables -/

section Variables

variable [Width] {m : Monomial} {c : Int} {ts : List Term} {v : SymVar}

def freeShape (shape : Shape) : Shape := shape.map fun d => d.unbind.1

theorem Layout.shape_unbind (l : Layout) : l.unbind.1.shape = freeShape l.shape := rfl

omit [Width] in
theorem Expr.reducedShape_map {g : SymInt → SymInt} (hone : g 1 = 1) (shape : Shape)
    (axes : List Nat) : reducedShape (shape.map g) axes = (reducedShape shape axes).map g := by
  unfold reducedShape
  rw [List.zipIdx_map, List.map_map, List.map_map]
  refine List.map_congr_left fun d _ => ?_
  dsimp only [Function.comp_apply, Prod.map, id]
  split
  · exact hone.symm
  · rfl

theorem freeShape_reducedShape (shape : Shape) (axes : List Nat) :
    freeShape (Expr.reducedShape shape axes) = Expr.reducedShape (freeShape shape) axes :=
  (Expr.reducedShape_map rfl shape axes).symm

omit [Width] in
theorem eq_map_const_of_concreteShape? {shape : Shape} {dims : List Int}
    (h : concreteShape? shape = some dims) : shape = dims.map .const := by
  induction shape generalizing dims with
  | nil =>
    obtain rfl := Option.some.inj h
    rfl
  | cons d shape ih =>
    rw [concreteShape?, List.mapM_cons] at h
    obtain ⟨c, hc, h⟩ := Option.bind_eq_some_iff.mp h
    obtain ⟨rest, hrest, h⟩ := Option.bind_eq_some_iff.mp h
    obtain rfl := Option.some.inj h
    cases d with
    | const x =>
      obtain rfl := Option.some.inj hc
      rw [List.map_cons, ih hrest]
    | poly terms => cases hc

def View.IsConst (v : View) : Prop := ∃ (a : Affine) (contiguous : Bool), v = a.toView contiguous

theorem View.IsConst.unbind_eq {v : View} (h : v.IsConst) : v.unbind = (v, []) := by
  obtain ⟨a, contiguous, rfl⟩ := h
  exact a.unbind_toView contiguous

omit [Width] in
theorem View.invalid_eq_toView (shape : List Int) :
    View.invalid (shape.map .const) = Affine.toView
      ⟨shape, shape.map fun _ => 0, 0, some (shape.map fun _ => (0, 0))⟩ false := by
  simp only [View.invalid, Affine.toView, Option.map_some, constRanges, List.map_map]
  rfl

theorem View.foldSingles_isConst (mask : List (Int × Int)) (strides : List Int) (offset : Int) :
    ∃ (strides' : List Int) (offset' : Int), strides'.length = strides.length ∧
      View.foldSingles (constRanges mask) (strides.map .const) (.const offset)
        = (strides'.map .const, .const offset') := by
  induction mask generalizing strides offset with
  | nil => exact ⟨strides, offset, rfl, by rw [constRanges, List.map_nil, View.foldSingles]; simp⟩
  | cons r mask ih =>
    cases strides with
    | nil => exact ⟨[], offset, rfl, rfl⟩
    | cons s strides =>
      rw [constRanges, List.map_cons, List.map_cons, View.foldSingles]
      split
      · obtain ⟨strides', offset', hlength, h⟩ :=
          ih strides (Width.wrap (offset + Width.wrap (r.1 * s)))
        exact ⟨0 :: strides', offset', congrArg Nat.succ hlength,
          congrArg (fun p => (0 :: p.1, p.2)) h⟩
      · obtain ⟨strides', offset', hlength, h⟩ := ih strides offset
        exact ⟨s :: strides', offset', congrArg Nat.succ hlength,
          congrArg (fun p => (SymInt.const s :: p.1, p.2)) h⟩

/-- A view made of numbers has numbers for parts, at most one stride and, if its mask has, one range
for each dimension. If it is known to read nothing, it is the invalid one. -/
theorem View.exists_eq_toView (shape strides : List Int) (offset : Int)
    (mask : Option (List (Int × Int))) {v : View} (hv : v = .create (shape.map .const)
      (some (strides.map .const)) (.const offset) (mask.map constRanges)) :
    ∃ (a : Affine) (contiguous : Bool), v = a.toView contiguous ∧ a.shape = shape ∧
      a.strides.length ≤ shape.length ∧ (v.isInvalid = true → v = .invalid (shape.map .const)) ∧
      ((∀ m, mask = some m → m.length = shape.length) → a.ranges.length = shape.length) := by
  have hlength : (dropUnits shape strides).length ≤ shape.length := by simp [dropUnits]
  unfold View.create at hv
  dsimp only at hv
  rw [View.zipWith_dropUnits_const] at hv
  cases mask with
  | none => exact ⟨⟨shape, dropUnits shape strides, offset, none⟩, _, hv, rfl, hlength,
      fun h => (by rw [hv] at h; cases h), fun _ => by simp [Affine.ranges]⟩
  | some m =>
    dsimp only [Option.map_some] at hv
    split at hv
    · exact ⟨_, _, hv.trans (View.invalid_eq_toView shape), rfl, by simp, fun _ => hv,
        fun _ => by simp [Affine.ranges]⟩
    next hempty =>
      split at hv
      · exact ⟨⟨shape, dropUnits shape strides, offset, none⟩, _, hv, rfl, hlength,
          fun h => (by rw [hv] at h; cases h), fun _ => by simp [Affine.ranges]⟩
      · obtain ⟨strides', offset', hlength', h⟩ :=
          View.foldSingles_isConst m (dropUnits shape strides) offset
        rw [h] at hv
        exact ⟨⟨shape, strides', offset', some m⟩, false, hv, rfl, hlength'.trans_le hlength,
          fun h => (hempty (by rw [hv] at h; exact h)).elim, fun hm => hm m rfl⟩

theorem View.isConst_ofShape (shape : List Int) : (View.ofShape (shape.map .const)).IsConst := by
  obtain ⟨strides, size, -, hrow⟩ := rowMajorSize_isConst shape
  refine ⟨⟨shape, strides, 0, none⟩, true, ?_⟩
  have hstrides : rowMajor (shape.map .const) = strides.map .const := by rw [rowMajor, hrow]
  simp only [View.ofShape, View.create, hstrides, Affine.toView, beq_self_eq_true, Bool.and_self]
  rfl

namespace Layout

/-- Every value that a view of the layout binds a variable to is a known one. -/
def BindsIn (l : Layout) (known : SymVar × Int → Prop) : Prop :=
  ∀ v ∈ l.top :: l.below, ∀ b ∈ v.unbind.2, known b

variable {known : SymVar × Int → Prop} {l l' m : Layout}

theorem BindsIn.of_mem_unbind (h : l.BindsIn known) {b : SymVar × Int} (hb : b ∈ l.unbind.2) :
    known b := by
  obtain ⟨v, hv, hb⟩ := mem_of_mem_foldl_insertKeys hb
  exact h v (List.mem_reverse.mp hv) b hb

theorem bindings_merge? {inner outer v : View} (h : inner.merge? outer = some v)
    (hinner : ∀ b ∈ inner.unbind.2, known b) (houter : ∀ b ∈ outer.unbind.2, known b) :
    ∀ b ∈ v.unbind.2, known b := by
  rcases View.merge?_cases h with rfl | ⟨rfl, -⟩ | ⟨i, o, -, ho, h⟩
  · exact houter
  · exact hinner
  · have hconst : v.IsConst := by
      obtain ⟨shape, hshape, -⟩ := Option.bind_eq_some_iff.mp ho
      rw [eq_map_const_of_concreteShape? hshape] at h
      rcases affine?_parts h with rfl | ⟨strides, offset, mask, rfl⟩
      · exact ⟨_, _, View.invalid_eq_toView shape⟩
      · obtain ⟨a, contiguous, ha, -⟩ := View.exists_eq_toView shape strides offset (some mask) rfl
        exact ⟨a, contiguous, ha⟩
    rw [hconst.unbind_eq]
    exact nofun

theorem bindsIn_settle {top : View} {views : List View} (htop : ∀ b ∈ top.unbind.2, known b)
    (hviews : ∀ v ∈ views, ∀ b ∈ v.unbind.2, known b) : (settle top views).BindsIn known := by
  induction views generalizing top with
  | nil => exact List.forall_mem_cons.mpr ⟨htop, hviews⟩
  | cons v views ih =>
    rw [settle]
    split
    next merged hmerged =>
      rw [List.forall_mem_cons] at hviews
      exact ih (bindings_merge? hmerged hviews.1 htop) hviews.2
    next => exact List.forall_mem_cons.mpr ⟨htop, hviews⟩

theorem BindsIn.push (h : l.BindsIn known) {v : View} (hv : ∀ b ∈ v.unbind.2, known b) :
    (l.push v).BindsIn known :=
  bindsIn_settle hv h

theorem BindsIn.compose (h : l.BindsIn known) (hm : m.BindsIn known) :
    (l.compose m).BindsIn known := by
  have hfold : ∀ (views : List View) (l : Layout), (∀ v ∈ views, ∀ b ∈ v.unbind.2, known b) →
      l.BindsIn known → (views.foldl Layout.push l).BindsIn known := by
    intro views
    induction views with
    | nil => exact fun l _ h => h
    | cons v views ih =>
      intro l hviews h
      rw [List.forall_mem_cons] at hviews
      exact ih _ hviews.2 (h.push hviews.1)
  exact hfold m.views l (fun v hv => hm v (List.mem_reverse.mp hv)) h

theorem bindsIn_ofShape (shape : List Int) : (ofShape (shape.map .const)).BindsIn known := by
  refine List.forall_mem_cons.mpr ⟨?_, by rintro _ ⟨⟩⟩
  rw [ofShape, (View.isConst_ofShape shape).unbind_eq]
  simp

theorem BindsIn.reshape (h : l.BindsIn known) {shape : List Int}
    (hl : l.reshape (shape.map .const) = .ok l') : l'.BindsIn known := by
  have hnew : ∀ b ∈ (View.ofShape (shape.map .const)).unbind.2, known b := by
    rw [(View.isConst_ofShape shape).unbind_eq]
    exact nofun
  obtain ⟨htop, hbelow⟩ := List.forall_mem_cons.mp h
  obtain ⟨result, hv, hl⟩ := bind_eq_ok hl
  cases result with
  | none =>
    obtain rfl := Except.ok.inj hl
    exact h.push hnew
  | some v =>
    obtain rfl := Except.ok.inj hl
    refine bindsIn_settle ?_ hbelow
    rcases View.reshape_cases hv with ⟨-, hsame⟩ | ⟨-, ⟨-, hsame⟩ | ⟨-, hmerge⟩⟩
    · exact Option.some.inj hsame ▸ htop
    · exact Option.some.inj hsame ▸ hnew
    · exact bindings_merge? hmerge.symm htop hnew

end Layout

/-! ### Variables without values -/

theorem SymInt.mem_addTerm {m' : Monomial} {c' : Int} (h : (m', c') ∈ addTerm m c ts) :
    m' = m ∨ ∃ c'', (m', c'') ∈ ts := by
  induction ts with
  | nil =>
    cases List.mem_singleton.mp h
    exact .inl rfl
  | cons t ts ih =>
    rw [addTerm] at h
    split at h
    · rcases List.mem_cons.mp h with heq | h
      · cases heq
        exact .inl rfl
      · exact .inr ⟨c', h⟩
    · rcases List.mem_cons.mp h with heq | h
      · cases heq
        exact .inr ⟨t.2, List.mem_cons_self⟩
      · exact .inr ⟨c', List.mem_cons_of_mem _ h⟩
    · rcases List.mem_cons.mp h with heq | h
      · cases heq
        exact .inr ⟨t.2, List.mem_cons_self⟩
      · rcases ih h with h | ⟨c'', h⟩
        · exact .inl h
        · exact .inr ⟨c'', List.mem_cons_of_mem _ h⟩

theorem SymInt.mem_addTerms {new old : List Term} (h : (m, c) ∈ addTerms new old) :
    (∃ c', (m, c') ∈ new) ∨ ∃ c', (m, c') ∈ old := by
  induction new generalizing old with
  | nil => exact .inr ⟨c, h⟩
  | cons t new ih =>
    rcases ih h with ⟨c', h⟩ | ⟨c', h⟩
    · exact .inl ⟨c', List.mem_cons_of_mem _ h⟩
    · rcases mem_addTerm h with rfl | h
      · exact .inl ⟨t.2, List.mem_cons_self⟩
      · exact .inr h

omit [Width] in
theorem SymInt.mem_vars_ofTerms (h : v ∈ (ofTerms ts).vars) : ∃ t ∈ ts, v ∈ t.1 := by
  have hkept : ∀ kept, ts.filter (·.2 ≠ 0) = kept → v ∈ (poly kept).vars → ∃ t ∈ ts, v ∈ t.1 := by
    intro kept hfilter hv
    obtain ⟨t, ht, hv⟩ := mem_vars_poly.mp hv
    rw [← hfilter] at ht
    exact ⟨t, (List.mem_filter.mp ht).1, hv⟩
  rw [ofTerms] at h
  split at h
  · cases h
  · cases h
  · exact hkept _ rfl h

theorem SymInt.value_of_mem_unbind {x : SymInt} (h : v ∈ x.unbind.1.vars) : v.value = none := by
  cases x with
  | const c => cases h
  | poly ts =>
    obtain ⟨t, ht, hv⟩ := mem_vars_ofTerms h
    rcases mem_addTerms ht with ⟨c, ht⟩ | ⟨c, ht⟩
    · obtain ⟨t', -, heq⟩ := List.mem_map.mp ht
      rw [← (Prod.mk.inj heq).1] at hv
      obtain ⟨w, -, rfl⟩ := List.mem_map.mp ((sortBy_perm _ _).mem_iff.mp hv)
      rfl
    · cases ht

theorem View.value_of_mem_unbind {u : View} (h : v ∈ u.unbind.1.vars) : v.value = none := by
  obtain ⟨x, hx, hv⟩ := mem_vars.mp h
  suffices hfree : ∃ y : SymInt, x = y.unbind.1 by
    obtain ⟨y, rfl⟩ := hfree
    exact SymInt.value_of_mem_unbind hv
  rcases mem_parts.mp hx with hx | hx | hx | ⟨m, hm, r, hr, hx⟩
  · obtain ⟨y, -, rfl⟩ := List.mem_map.mp hx
    exact ⟨y, rfl⟩
  · obtain ⟨y, -, rfl⟩ := List.mem_map.mp hx
    exact ⟨y, rfl⟩
  · exact ⟨u.offset, hx⟩
  · obtain ⟨m', -, rfl⟩ := Option.map_eq_some_iff.mp hm
    obtain ⟨r', -, rfl⟩ := List.mem_map.mp hr
    rcases hx with rfl | rfl
    · exact ⟨r'.1, rfl⟩
    · exact ⟨r'.2, rfl⟩

theorem Layout.value_of_mem_unbind {l : Layout} (h : v ∈ l.unbind.1.vars) : v.value = none := by
  obtain ⟨w, hw, hv⟩ := mem_vars.mp h
  rcases List.mem_cons.mp hw with rfl | hw
  · exact View.value_of_mem_unbind hv
  · obtain ⟨u, -, rfl⟩ := List.mem_map.mp hw
    exact View.value_of_mem_unbind hv

end Variables

end LazyTensor

import LazyTensor.Layout
import LazyTensor.Proofs.Order

/-!
# Values of the variables of a layout

Stripping the values from a layout returns them by variable. Of several values of one variable just
one is returned, so that nothing is lost where every variable of the layout has one value.
-/

namespace LazyTensor

theorem SymVar.compareValue_eq_iff {a b : Option Int} : compareValue a b = .eq ↔ a = b := by
  cases a <;> cases b <;> simp [compareValue]

instance : Std.LawfulEqCmp SymVar.cmp where
  compare_self := by simp [SymVar.cmp, SymVar.compareValue_eq_iff]
  eq_of_compare := by
    intro a b h
    simp only [SymVar.cmp, Ordering.then_eq_eq, Std.LawfulEqCmp.compare_eq_iff_eq,
      SymVar.compareValue_eq_iff] at h
    obtain ⟨hname, hmin, hmax, hvalue⟩ := h
    cases a
    cases b
    simp_all

def BoundIn (vars : List SymVar) (b : SymVar × Int) : Prop :=
  ∃ v ∈ vars, v.unbound = b.1 ∧ v.value = some b.2

/-! ### Variables -/

theorem SymInt.mem_vars_poly {v : SymVar} {ts : List Term} :
    v ∈ (poly ts).vars ↔ ∃ t ∈ ts, v ∈ t.1 := by
  rw [vars, mem_foldl_insertElems, or_iff_left List.not_mem_nil]

def View.parts (v : View) : List SymInt :=
  v.shape ++ v.strides ++ [v.offset] ++ (v.mask.getD []).flatMap fun r => [r.1, r.2]

variable {v : View} {u : SymVar}

theorem View.mem_parts {x : SymInt} : x ∈ v.parts ↔
    x ∈ v.shape ∨ x ∈ v.strides ∨ x = v.offset ∨ ∃ m, v.mask = some m ∧ ∃ r ∈ m, x = r.1 ∨ x = r.2 := by
  cases hmask : v.mask <;> simp [parts, hmask]

theorem View.mem_vars : u ∈ v.vars ↔ ∃ x ∈ v.parts, u ∈ x.vars :=
  mem_foldl_insertElems.trans (or_iff_left List.not_mem_nil)

theorem Layout.mem_vars {l : Layout} : u ∈ l.vars ↔ ∃ v ∈ l.top :: l.below, u ∈ v.vars := by
  rw [vars, mem_foldl_insertElems, or_iff_left List.not_mem_nil, views]
  simp only [List.mem_reverse]

/-! ### Values -/

section Values

variable {P : SymVar × Int → Prop} {b : SymVar × Int} {l : Layout}

theorem SymInt.mem_monomialBindings {m : Monomial} :
    b ∈ monomialBindings m ↔ BoundIn m b := by
  rw [monomialBindings, List.mem_filterMap, BoundIn]
  refine exists_congr fun v => and_congr_right fun _ => ?_
  rw [Option.map_eq_some_iff]
  constructor
  · rintro ⟨x, hx, rfl⟩
    exact ⟨rfl, hx⟩
  · rintro ⟨hv, hx⟩
    exact ⟨b.2, hx, Prod.ext hv rfl⟩

theorem boundIn_iff {α : Type} {vars : List SymVar} {xs : List α} {f : α → List SymVar}
    (h : ∀ {u}, u ∈ vars ↔ ∃ x ∈ xs, u ∈ f x) : BoundIn vars b ↔ ∃ x ∈ xs, BoundIn (f x) b := by
  constructor
  · rintro ⟨u, hu, hb⟩
    obtain ⟨x, hx, hu⟩ := h.mp hu
    exact ⟨x, hx, u, hu, hb⟩
  · rintro ⟨x, hx, u, hu, hb⟩
    exact ⟨u, h.mpr ⟨x, hx, hu⟩, hb⟩

variable [Width] (hP : ∀ v x y, P (v, x) → P (v, y) → x = y)

include hP

/-! Where variables have one value each, all values are returned: from monomials to polynomials, from
these to views, and from views to layouts. -/

theorem SymInt.mem_unbind {x : SymInt} (hx : ∀ b, BoundIn x.vars b → P b) :
    b ∈ x.unbind.2 ↔ BoundIn x.vars b := by
  cases x with
  | const c =>
    refine ⟨nofun, ?_⟩
    rintro ⟨v, hv, -⟩
    cases hv
  | poly ts =>
    have hterms : ∀ t ∈ ts, ∀ e ∈ monomialBindings t.1, P e := fun t ht e he =>
      hx e ((boundIn_iff mem_vars_poly).mpr ⟨t, ht, mem_monomialBindings.mp he⟩)
    rw [unbind, mem_foldl_insertKeys hP hterms (fun e he => absurd he List.not_mem_nil),
      or_iff_left List.not_mem_nil, boundIn_iff mem_vars_poly]
    simp only [mem_monomialBindings]

theorem View.mem_unbindAll {xs : List SymInt} (hxs : ∀ x ∈ xs, ∀ b, BoundIn x.vars b → P b) :
    b ∈ (unbindAll xs).2 ↔ ∃ x ∈ xs, BoundIn x.vars b := by
  have hvalues : ∀ x ∈ xs, ∀ e, e ∈ x.unbind.2 ↔ BoundIn x.vars e :=
    fun x hx e => SymInt.mem_unbind hP (hxs x hx)
  rw [unbindAll, mem_foldl_insertKeys hP (fun x hx e he => hxs x hx e ((hvalues x hx e).mp he))
    (fun e he => absurd he List.not_mem_nil), or_iff_left List.not_mem_nil]
  exact exists_congr fun x => and_congr_right fun hx => hvalues x hx b

theorem View.mem_unbind (hv : ∀ b, BoundIn v.vars b → P b) : b ∈ v.unbind.2 ↔ BoundIn v.vars b := by
  have hparts : ∀ x ∈ v.parts, ∀ b, BoundIn x.vars b → P b :=
    fun x hx b hb => hv b ((boundIn_iff mem_vars).mpr ⟨x, hx, hb⟩)
  rw [parts, List.forall_mem_append, List.forall_mem_append, List.forall_mem_append,
    List.forall_mem_singleton] at hparts
  obtain ⟨⟨⟨hshape, hstrides⟩, hoffset⟩, hends⟩ := hparts
  -- The values of each kind of part, and that they are values of the view.
  have hall : ∀ {xs : List SymInt}, (∀ x ∈ xs, ∀ b, BoundIn x.vars b → P b) →
      ∀ e ∈ (unbindAll xs).2, P e := by
    intro xs hxs e he
    obtain ⟨x, hx, he⟩ := (mem_unbindAll hP hxs).mp he
    exact hxs x hx e he
  have hone : ∀ e ∈ v.offset.unbind.2, P e :=
    fun e he => hoffset e ((SymInt.mem_unbind hP hoffset).mp he)
  have htwo : ∀ e ∈ insertKeys SymVar.cmp (unbindAll v.strides).2 (unbindAll v.shape).2, P e :=
    fun e he => (mem_of_mem_insertKeys he).elim (hall hstrides e) (hall hshape e)
  have hthree : ∀ e ∈ insertKeys SymVar.cmp v.offset.unbind.2
      (insertKeys SymVar.cmp (unbindAll v.strides).2 (unbindAll v.shape).2), P e :=
    fun e he => (mem_of_mem_insertKeys he).elim (hone e) (htwo e)
  show b ∈ insertKeys SymVar.cmp (unbindAll _).2 (insertKeys SymVar.cmp v.offset.unbind.2
    (insertKeys SymVar.cmp (unbindAll v.strides).2 (unbindAll v.shape).2)) ↔ _
  rw [mem_insertKeys hP (hall hends) hthree, mem_insertKeys hP hone htwo,
    mem_insertKeys hP (hall hstrides) (hall hshape), mem_unbindAll hP hends,
    mem_unbindAll hP hstrides, mem_unbindAll hP hshape, SymInt.mem_unbind hP hoffset,
    boundIn_iff mem_vars, parts]
  simp only [List.mem_append, List.mem_singleton, or_and_right, exists_or, exists_eq_left]
  simp only [or_comm]

theorem Layout.mem_unbind (hl : ∀ b, BoundIn l.vars b → P b) :
    b ∈ l.unbind.2 ↔ BoundIn l.vars b := by
  have hviews : ∀ v ∈ l.views, ∀ e, e ∈ v.unbind.2 ↔ BoundIn v.vars e := fun v hv e =>
    View.mem_unbind hP fun b hb => hl b ((boundIn_iff mem_vars).mpr ⟨v, List.mem_reverse.mp hv, hb⟩)
  have hknown : ∀ v ∈ l.views, ∀ e ∈ v.unbind.2, P e := fun v hv e he =>
    hl e ((boundIn_iff mem_vars).mpr ⟨v, List.mem_reverse.mp hv, (hviews v hv e).mp he⟩)
  rw [unbind, mem_foldl_insertKeys hP hknown (fun e he => absurd he List.not_mem_nil),
    or_iff_left List.not_mem_nil, boundIn_iff mem_vars]
  refine exists_congr fun v => ?_
  rw [views, List.mem_reverse]
  exact and_congr_right fun hv => hviews v (List.mem_reverse.mpr hv) b

end Values

namespace Layout

/-- No variable of the layout is bound to two values. -/
def Univalent (l : Layout) : Prop :=
  ∀ v ∈ l.vars, ∀ w ∈ l.vars, v.unbound = w.unbound → ∀ x y, v.value = some x → w.value = some y →
    x = y

variable {l : Layout}

theorem Univalent.boundIn_unique (h : l.Univalent) (v : SymVar) (x y : Int)
    (hx : BoundIn l.vars (v, x)) (hy : BoundIn l.vars (v, y)) : x = y := by
  obtain ⟨u, hu, huv, hux⟩ := hx
  obtain ⟨w, hw, hwv, hwy⟩ := hy
  exact h u hu w hw (huv.trans hwv.symm) x y hux hwy

theorem Univalent.mem_unbind_iff [Width] (h : l.Univalent) {b : SymVar × Int} :
    b ∈ l.unbind.2 ↔ BoundIn l.vars b :=
  Layout.mem_unbind h.boundIn_unique fun _ hb => hb

end Layout

end LazyTensor

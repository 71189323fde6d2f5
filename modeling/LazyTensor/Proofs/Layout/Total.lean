import LazyTensor.Proofs.Except
import LazyTensor.Proofs.Movement.Layout

/-!
# Layouts that read everywhere

A layout without masks has an element at every coordinate of its shape. Such layouts are closed
under reshapes and under composition, at every rank, and composing two of them follows a coordinate
through one after the other.
-/

namespace LazyTensor

open Merge

/-- What index arithmetic has to leave room for: how many elements an array may have, and what its
dimensions may add up to. -/
structure Limits where
  volume : Int
  extent : Int

namespace Limits

structure Admits (lim : Limits) (dims : List Int) : Prop where
  dims_pos : ∀ d ∈ dims, 0 < d
  volume_le : product dims ≤ lim.volume
  extent_le : dims.sum ≤ lim.extent

/-- No index into an array within the limits is wrapped or clamped. -/
structure Exact [Width] (lim : Limits) : Prop where
  volume_nonneg : 0 ≤ lim.volume
  extent_nonneg : 0 ≤ lim.extent
  exactTo : Width.ExactTo ((1 + lim.volume) * (1 + 4 * lim.extent))

variable {lim : Limits} {dims : List Int}

theorem Admits.dims_nonneg (h : lim.Admits dims) : ∀ d ∈ dims, 0 ≤ d :=
  fun d hd => (h.dims_pos d hd).le

theorem Exact.hasRoom [Width] (h : lim.Exact) :
    HasRoom ((1 + lim.volume) * (1 + 4 * lim.extent)) lim.volume lim.extent :=
  ⟨h.volume_nonneg, h.extent_nonneg, le_rfl⟩

theorem Exact.volume_le [Width] (h : lim.Exact) :
    lim.volume ≤ (1 + lim.volume) * (1 + 4 * lim.extent) := h.hasRoom.n_le

end Limits

/-- Where the element at `coords` lies if no mask hides it. -/
def Merge.Affine.position (a : Affine) (coords : List Int) : Int := a.offset + dot a.strides coords

/-- A view without variables that reads one of `n` elements at every coordinate of its shape. -/
structure View.Total [Width] (v : View) (a : Affine) (n : Int) (lim : Limits) : Prop where
  isAffine : v.IsAffine a
  admits : lim.Admits a.shape
  total : ∀ coords, InShape a.shape coords → InRanges a.ranges coords
  within : a.Within n

namespace View.Total

variable [Width] {lim : Limits} {n : Int} {v : View} {a : Affine} {coords : List Int}

theorem located (h : v.Total a n lim) : v.Located a n lim.extent :=
  ⟨h.isAffine, h.within, h.admits.extent_le⟩

theorem affine_index (h : v.Total a n lim) (hin : InShape a.shape coords) :
    a.index coords = some (a.position coords) :=
  Affine.index_of_inRanges (h.total coords hin)

theorem index_eq (h : v.Total a n lim) (hexact : lim.Exact) (hn : n ≤ lim.volume)
    (hin : InShape a.shape coords) : v.index coords = some (a.position coords) := by
  rw [h.located.index_eq hexact.exactTo (hn.trans hexact.volume_le) hin, h.affine_index hin]

theorem position_mem (h : v.Total a n lim) (hin : InShape a.shape coords) :
    0 ≤ a.position coords ∧ a.position coords < n :=
  h.within coords (h.total coords hin)

theorem n_pos (h : v.Total a n lim) : 0 < n := by
  have hmem := h.position_mem (inShape_unravel h.admits.dims_pos 0)
  omega

theorem of_index (h : v.IsAffine a) (hadmits : lim.Admits a.shape)
    (hreads : ∀ coords, InShape a.shape coords → ∃ p, a.index coords = some p ∧ 0 ≤ p ∧ p < n) :
    v.Total a n lim where
  isAffine := h
  admits := hadmits
  total := by
    intro coords hin
    by_contra hnot
    obtain ⟨p, hp, -⟩ := hreads coords hin
    rw [Affine.index_of_not_inRanges hnot] at hp
    cases hp
  within := by
    intro coords hin
    obtain ⟨p, hp, hmem⟩ := hreads coords (h.wellFormed.inShape hin)
    rw [Affine.index_of_inRanges hin, Option.some.injEq] at hp
    exact hp ▸ hmem

theorem of_reads (h : v.IsAffine a) (hadmits : lim.Admits a.shape) {p : List Int → Int}
    (hreads : ∀ coords, InShape a.shape coords →
      a.index coords = some (p coords) ∧ 0 ≤ p coords ∧ p coords < n) :
    v.Total a n lim ∧ ∀ coords, InShape a.shape coords → a.position coords = p coords := by
  have htotal : v.Total a n lim := of_index h hadmits fun coords hin => ⟨_, hreads coords hin⟩
  refine ⟨htotal, fun coords hin => ?_⟩
  exact Option.some.inj ((htotal.affine_index hin).symm.trans (hreads coords hin).1)

theorem exists_ofShape (hexact : lim.Exact) {dims : List Int} (hadmits : lim.Admits dims) :
    ∃ a, (View.ofShape (dims.map .const)).Total a (product dims) lim ∧ a.shape = dims ∧
      ∀ coords, InShape dims coords → a.position coords = ravel dims coords := by
  obtain ⟨a, ha, rfl, hindex⟩ := View.exists_isAffine_ofShape hexact.exactTo hadmits.dims_nonneg
    (hadmits.volume_le.trans hexact.volume_le)
  obtain ⟨htotal, hposition⟩ := of_reads ha hadmits fun coords hin =>
    ⟨hindex coords hin, ravel_nonneg_and_lt hin⟩
  exact ⟨a, htotal, rfl, hposition⟩

theorem position_of_contiguous (h : v.Total a n lim) (hexact : lim.Exact)
    (hcontiguous : v.contiguous = true) (hin : InShape a.shape coords) :
    a.position coords = ravel a.shape coords := by
  have hindex := h.isAffine.index_of_contiguous hexact.exactTo hcontiguous
    (h.admits.volume_le.trans hexact.volume_le) hin
  exact Option.some.inj ((h.affine_index hin).symm.trans hindex)

theorem merge? {w u : View} {b : Affine} (h : v.Total a n lim)
    (houter : w.Total b (product a.shape) lim) (hexact : lim.Exact) (hn : n ≤ lim.volume)
    (hmerge : v.merge? w = some u) :
    ∃ c, u.Total c n lim ∧ c.shape = b.shape ∧
      ∀ coords, InShape b.shape coords →
        c.position coords = a.position (unravel a.shape (b.position coords)) := by
  have hthrough : ∀ coords, InShape b.shape coords →
      a.through b coords = some (a.position (unravel a.shape (b.position coords))) := by
    intro coords hin
    rw [Affine.through, houter.affine_index hin, Option.bind_some,
      h.affine_index (inShape_unravel h.admits.dims_pos _)]
  rcases h.located.merge? houter.located hexact.exactTo (hexact.hasRoom.mono h.n_pos.le hn)
    (h.admits.volume_le.trans hexact.volume_le) hmerge with ⟨c, hc, hshape, hindex⟩ | ⟨-, -, hnone⟩
  · rw [← hshape] at hindex hthrough ⊢
    obtain ⟨htotal, hposition⟩ := of_reads hc.isAffine (hshape ▸ houter.admits) fun coords hin =>
      ⟨(hindex coords hin).trans (hthrough coords hin),
        h.position_mem (inShape_unravel h.admits.dims_pos _)⟩
    exact ⟨c, htotal, rfl, hposition⟩
  · have hread := hthrough _ (inShape_unravel houter.admits.dims_pos 0)
    rw [hnone] at hread
    cases hread

end View.Total

/-! ### Variables -/

section Variables

variable [Width]

theorem View.unbindAll_const (xs : List Int) : unbindAll (xs.map .const) = (xs.map .const, []) := by
  have hbindings : ∀ xs : List Int, (xs.map SymInt.const).foldl
      (fun acc x => insertKeys SymVar.cmp x.unbind.2 acc) ([] : Bindings) = [] := by
    intro xs
    induction xs with
    | nil => rfl
    | cons x xs ih => exact ih
  rw [unbindAll, hbindings, List.map_map]
  rfl

theorem Merge.Affine.unbind_toView (a : Affine) (contiguous : Bool) :
    (a.toView contiguous).unbind = (a.toView contiguous, []) := by
  have hends : ((a.mask.map constRanges).getD []).flatMap (fun r => [r.1, r.2])
      = ((a.mask.getD []).flatMap fun r => [r.1, r.2]).map SymInt.const := by
    cases a.mask with
    | none => rfl
    | some m => simp [constRanges, List.flatMap_map, List.map_flatMap]
  have hmask : (a.mask.map constRanges).map
      (fun m : Mask => m.map fun r => (r.1.unbind.1, r.2.unbind.1)) = a.mask.map constRanges := by
    cases a.mask with
    | none => rfl
    | some m =>
      simp only [Option.map_some, constRanges, List.map_map]
      rfl
  simp only [View.unbind, Affine.toView, View.unbindAll_const, hends, hmask]
  rfl

theorem View.IsAffine.unbind_eq {v : View} {a : Affine} (h : v.IsAffine a) : v.unbind = (v, []) := by
  rw [h.eq_toView]
  exact a.unbind_toView v.contiguous

end Variables

/-! ### Stacks of views -/

section Stack

variable [Width]

/-- Views over a buffer of `n` elements that take every position below `size`. -/
inductive TotalStack (n : Int) (lim : Limits) : List View → (size : Int) → Prop
  | buffer : n ≤ lim.volume → TotalStack n lim [] n
  | view {v : View} {a : Affine} {rest : List View} {size : Int} :
      v.Total a size lim → TotalStack n lim rest size →
      TotalStack n lim (v :: rest) (product a.shape)

/-- A layout over a buffer of `n` elements that reads one of them at every coordinate of `shape`. -/
def Layout.Total (l : Layout) (n : Int) (lim : Limits) (shape : List Int) : Prop :=
  ∃ a size, l.top.Total a size lim ∧ TotalStack n lim l.below size ∧ a.shape = shape

variable {lim : Limits} {n size : Int} {views : List View} {v : View} {a : Affine}

namespace TotalStack

theorem size_le (h : TotalStack n lim views size) : size ≤ lim.volume := by
  cases h with
  | buffer hle => exact hle
  | view hv _ => exact hv.admits.volume_le

variable {position : Int}

theorem indexBelow_cons (hrest : TotalStack n lim views size) (hv : v.Total a size lim)
    (hexact : lim.Exact) (hlow : 0 ≤ position) (hhigh : position < product a.shape) :
    Layout.indexBelow (v :: views) position
      = Layout.indexBelow views (a.position (unravel a.shape position)) := by
  rw [hv.located.indexBelow_cons hexact.exactTo (hrest.size_le.trans hexact.volume_le)
      (hv.admits.volume_le.trans hexact.volume_le) hv.admits.dims_pos hlow hhigh,
    hv.affine_index (inShape_unravel hv.admits.dims_pos position), Option.bind_some]

theorem exists_indexBelow (h : TotalStack n lim views size) (hexact : lim.Exact)
    (hlow : 0 ≤ position) (hhigh : position < size) :
    ∃ p, Layout.indexBelow views position = some p ∧ 0 ≤ p ∧ p < n := by
  induction h generalizing position with
  | buffer _ => exact ⟨position, rfl, hlow, hhigh⟩
  | view hv hrest ih =>
    rw [hrest.indexBelow_cons hv hexact hlow hhigh]
    obtain ⟨hlow', hhigh'⟩ := hv.position_mem (inShape_unravel hv.admits.dims_pos position)
    exact ih hlow' hhigh'

end TotalStack

end Stack

namespace Layout

variable [Width] {lim : Limits} {n size : Int} {l l' m : Layout} {shape coords : List Int}
  {v : View} {a : Affine} {views : List View}

theorem index_of_top (hstack : TotalStack n lim views size) (hv : v.Total a size lim)
    (hexact : lim.Exact) (hin : InShape a.shape coords) :
    (⟨v, views⟩ : Layout).index coords = indexBelow views (a.position coords) := by
  rw [index, hv.index_eq hexact hstack.size_le hin]
  rfl

namespace Total

variable (h : l.Total n lim shape)

include h

theorem admits : lim.Admits shape := by
  obtain ⟨a, size, htop, -, rfl⟩ := h
  exact htop.admits

theorem shape_eq : l.shape = shape.map .const := by
  obtain ⟨a, size, htop, -, rfl⟩ := h
  exact htop.isAffine.shape_eq

theorem exists_index (hexact : lim.Exact) (hin : InShape shape coords) :
    ∃ p, l.index coords = some p ∧ 0 ≤ p ∧ p < n := by
  obtain ⟨a, size, htop, hstack, rfl⟩ := h
  obtain ⟨hlow, hhigh⟩ := htop.position_mem hin
  rw [show l = ⟨l.top, l.below⟩ from rfl, index_of_top hstack htop hexact hin]
  exact hstack.exists_indexBelow hexact hlow hhigh

theorem stack : TotalStack n lim (l.top :: l.below) (product shape) := by
  obtain ⟨a, size, htop, hstack, rfl⟩ := h
  exact .view htop hstack

theorem unbind_eq : l.unbind = (l, []) := by
  obtain ⟨a, size, htop, hstack, -⟩ := h
  have hbelow : ∀ {views : List View} {size : Int}, TotalStack n lim views size →
      ∀ v ∈ views, v.unbind = (v, []) := by
    intro views size hstack
    induction hstack with
    | buffer _ => exact nofun
    | view hv _ ih => exact List.forall_mem_cons.mpr ⟨hv.isAffine.unbind_eq, ih⟩
  have hall : ∀ v ∈ l.views, v.unbind = (v, []) := by
    intro v hv
    rcases List.mem_cons.mp (List.mem_reverse.mp hv) with rfl | hv
    · exact htop.isAffine.unbind_eq
    · exact hbelow hstack v hv
  have hbindings : ∀ views : List View, (∀ v ∈ views, v.unbind = (v, [])) →
      views.foldl (fun acc v => insertKeys SymVar.cmp v.unbind.2 acc) ([] : Bindings) = [] := by
    intro views hviews
    induction views with
    | nil => rfl
    | cons v views ih =>
      rw [List.forall_mem_cons] at hviews
      rw [List.foldl_cons, hviews.1]
      exact ih hviews.2
  rw [unbind, hbindings _ hall, htop.isAffine.unbind_eq,
    List.map_congr_left fun v hv => congrArg Prod.fst (hbelow hstack v hv), List.map_id']

end Total

theorem total_ofShape (hexact : lim.Exact) (hadmits : lim.Admits shape) :
    (ofShape (shape.map .const)).Total (product shape) lim shape := by
  obtain ⟨a, ha, hshape, -⟩ := View.Total.exists_ofShape hexact hadmits
  exact ⟨a, product shape, ha, .buffer hadmits.volume_le, hshape⟩

theorem Total.index_of_contiguous (h : l.Total n lim shape) (hexact : lim.Exact)
    (hcontiguous : l.isContiguous = true) (hin : InShape shape coords) :
    l.index coords = some (ravel shape coords) := by
  obtain ⟨a, size, htop, hstack, rfl⟩ := h
  obtain ⟨hbelow, hcontiguous⟩ := Bool.and_eq_true_iff.mp hcontiguous
  rw [show l = ⟨l.top, l.below⟩ from rfl, index_of_top hstack htop hexact hin,
    List.isEmpty_iff.mp hbelow, htop.position_of_contiguous hexact hcontiguous hin]
  rfl

theorem isContiguous_ofShape (shape : Shape) : (ofShape shape).isContiguous = true := by
  simp [ofShape, isContiguous, View.ofShape, View.create]

theorem index_ofShape (hexact : lim.Exact) (hadmits : lim.Admits shape)
    (hin : InShape shape coords) :
    (ofShape (shape.map .const)).index coords = some (ravel shape coords) :=
  (total_ofShape hexact hadmits).index_of_contiguous hexact (isContiguous_ofShape _) hin

theorem settle_total (hexact : lim.Exact) (hstack : TotalStack n lim views size) {top : View}
    (htop : top.Total a size lim) :
    (settle top views).Total n lim a.shape ∧
      ∀ coords, InShape a.shape coords →
        (settle top views).index coords = indexBelow views (a.position coords) := by
  induction hstack generalizing top a with
  | buffer hle =>
    exact ⟨⟨a, n, htop, .buffer hle, rfl⟩, fun coords => index_of_top (.buffer hle) htop hexact⟩
  | @view v b rest size hv hrest ih =>
    rw [settle]
    cases hmerge : v.merge? top with
    | none =>
      exact ⟨⟨a, _, htop, .view hv hrest, rfl⟩, fun coords =>
        index_of_top (.view hv hrest) htop hexact⟩
    | some merged =>
      obtain ⟨c, hc, hshape, hposition⟩ := hv.merge? htop hexact hrest.size_le hmerge
      obtain ⟨htotal, hindex⟩ := ih hc
      rw [hshape] at htotal hindex
      refine ⟨htotal, fun coords hin => ?_⟩
      obtain ⟨hlow, hhigh⟩ := htop.position_mem hin
      rw [hindex coords hin, hposition coords hin, hrest.indexBelow_cons hv hexact hlow hhigh]

theorem Total.push (h : l.Total n lim shape) (hexact : lim.Exact)
    (hv : v.Total a (product shape) lim) :
    (l.push v).Total n lim a.shape ∧
      ∀ coords, InShape a.shape coords →
        (l.push v).index coords = l.index (unravel shape (a.position coords)) := by
  obtain ⟨htotal, hindex⟩ := settle_total hexact h.stack hv
  refine ⟨htotal, fun coords hin => ?_⟩
  obtain ⟨hlow, hhigh⟩ := hv.position_mem hin
  obtain ⟨b, size, htop, hstack, rfl⟩ := h
  rw [Layout.push, hindex coords hin, hstack.indexBelow_cons htop hexact hlow hhigh]
  exact (index_of_top hstack htop hexact (inShape_unravel htop.admits.dims_pos _)).symm

/-! ### Composition -/

theorem Total.foldr_push (h : l.Total n lim shape) (hexact : lim.Exact)
    (hstack : TotalStack (product shape) lim views size) :
    ∃ shape', (views.foldr (fun v below => below.push v) l).Total n lim shape' ∧
      product shape' = size ∧ ∀ position, 0 ≤ position → position < size →
        (views.foldr (fun v below => below.push v) l).index (unravel shape' position)
          = (indexBelow views position).bind fun p => l.index (unravel shape p) := by
  induction hstack with
  | buffer _ => exact ⟨shape, h, rfl, fun position _ _ => rfl⟩
  | @view v a rest size hv hrest ih =>
    obtain ⟨shape', htotal, rfl, hindex⟩ := ih
    obtain ⟨htotal', hindex'⟩ := htotal.push hexact hv
    refine ⟨a.shape, htotal', rfl, fun position hlow hhigh => ?_⟩
    have hin := inShape_unravel hv.admits.dims_pos position
    obtain ⟨hlow', hhigh'⟩ := hv.position_mem hin
    rw [List.foldr_cons, hindex' _ hin, hindex _ hlow' hhigh',
      hrest.indexBelow_cons hv hexact hlow hhigh]

theorem compose_eq_push (l m : Layout) :
    l.compose m = (m.below.foldr (fun v below => below.push v) l).push m.top := by
  rw [compose, views, List.foldl_reverse]
  rfl

theorem Total.compose (h : l.Total n lim shape) (hexact : lim.Exact) {shape' : List Int}
    (hm : m.Total (product shape) lim shape') :
    (l.compose m).Total n lim shape' ∧
      ∀ coords, InShape shape' coords →
        (l.compose m).index coords = (m.index coords).bind fun p => l.index (unravel shape p) := by
  obtain ⟨a, size, htop, hstack, rfl⟩ := hm
  obtain ⟨between, htotal, rfl, hindex⟩ := h.foldr_push hexact hstack
  obtain ⟨htotal', hindex'⟩ := htotal.push hexact htop
  rw [compose_eq_push]
  refine ⟨htotal', fun coords hin => ?_⟩
  obtain ⟨hlow, hhigh⟩ := htop.position_mem hin
  rw [hindex' coords hin, hindex _ hlow hhigh, show m = ⟨m.top, m.below⟩ from rfl,
    index_of_top hstack htop hexact hin]

end Layout

/-! ### Reshapes -/

section Reshape

variable [Width] {lim : Limits} {n : Int} {v : View} {a : Affine} {new : List Int} {l : Layout}

/-- A reshape reads at each coordinate the element at its position, unless a row-major view has to go
on top. -/
theorem View.Total.reshape (h : v.Total a n lim) (hexact : lim.Exact) (hn : n ≤ lim.volume)
    (hnew : lim.Admits new) {r : Option View} (hreshape : v.reshape (new.map .const) = .ok r) :
    product new = product a.shape ∧ ∀ u, r = some u →
      ∃ c, u.Total c n lim ∧ c.shape = new ∧ ∀ coords, InShape new coords →
        c.position coords = a.position (unravel a.shape (ravel new coords)) := by
  have hin : ∀ position, InShape a.shape (unravel a.shape position) :=
    inShape_unravel h.admits.dims_pos
  obtain ⟨-, hproduct, hcases⟩ := h.located.reshape hexact.exactTo
    (h.admits.volume_le.trans hexact.volume_le) (hexact.hasRoom.mono h.n_pos.le hn)
    (fun d hd => (abs_of_pos (hnew.dims_pos d hd)).trans_le
      ((List.single_le_sum hnew.dims_nonneg d hd).trans hnew.extent_le))
    (hnew.volume_le.trans hexact.volume_le) hnew.extent_le hreshape
  refine ⟨hproduct, ?_⟩
  rintro u rfl
  rcases hcases with ⟨u, hu, c, hc, rfl, hindex⟩ | ⟨-, -, hnone⟩ | ⟨hu, -⟩
  · obtain rfl := Option.some.inj hu
    obtain ⟨htotal, hposition⟩ := of_reads hc hnew fun coords hcoords =>
      ⟨(hindex coords hcoords).trans (h.affine_index (hin _)), h.position_mem (hin _)⟩
    exact ⟨c, htotal, rfl, hposition⟩
  · rw [h.affine_index (hin 0)] at hnone
    cases hnone
  · cases hu

theorem Layout.Total.reshape {l' : Layout} {shape : List Int} (h : l.Total n lim shape)
    (hexact : lim.Exact) (hnew : lim.Admits new) (hreshape : l.reshape (new.map .const) = .ok l') :
    product new = product shape ∧ l'.Total n lim new ∧
      ∀ coords, InShape new coords → l'.index coords = l.index (unravel shape (ravel new coords)) := by
  have h' := h
  obtain ⟨a, size, htop, hstack, rfl⟩ := h'
  have hin' : ∀ position, InShape a.shape (unravel a.shape position) :=
    inShape_unravel htop.admits.dims_pos
  obtain ⟨r, hr, hreshape⟩ := bind_eq_ok hreshape
  obtain ⟨hsize, hone⟩ := htop.reshape hexact hstack.size_le hnew hr
  refine ⟨hsize, ?_⟩
  cases r with
  | some u =>
    obtain rfl : settle u l.below = l' := Except.ok.inj hreshape
    obtain ⟨c, hc, rfl, hposition⟩ := hone u rfl
    obtain ⟨htotal, hindex⟩ := settle_total hexact hstack hc
    refine ⟨htotal, fun coords hin => ?_⟩
    rw [hindex coords hin, hposition coords hin]
    exact (index_of_top hstack htop hexact (hin' _)).symm
  | none =>
    obtain rfl : l.push (View.ofShape (new.map .const)) = l' := Except.ok.inj hreshape
    obtain ⟨b, hb, rfl, hposition⟩ := View.Total.exists_ofShape hexact hnew
    obtain ⟨htotal, hindex⟩ := h.push hexact (hsize ▸ hb)
    refine ⟨htotal, fun coords hin => ?_⟩
    rw [hindex coords hin, hposition coords hin]

theorem Layout.reshape_ofShape {dims : List Int} (hexact : lim.Exact) (hdims : lim.Admits dims)
    (hnew : lim.Admits new)
    (hreshape : (ofShape (dims.map .const)).reshape (new.map .const) = .ok l) :
    product new = product dims ∧ l.Total (product dims) lim new ∧
      ∀ coords, InShape new coords → l.index coords = some (ravel new coords) := by
  obtain ⟨hproduct, htotal, hindex⟩ :=
    (total_ofShape hexact hdims).reshape hexact hnew hreshape
  refine ⟨hproduct, htotal, ?_⟩
  intro coords hin
  obtain ⟨hlow, hhigh⟩ := ravel_nonneg_and_lt hin
  rw [hindex coords hin, index_ofShape hexact hdims (inShape_unravel hdims.dims_pos _),
    ravel_unravel hdims.dims_nonneg hlow (hproduct ▸ hhigh)]

end Reshape

end LazyTensor

import LazyTensor.Proofs.View.Cut

/-!
# Merging views is exact

Where two stacked views merge into one, the one reads at every coordinate what the inner view reads
at the position the outer view gives, and is masked out where either of them is.
-/

namespace LazyTensor

open Merge

namespace Merge.Affine

/-- What the inner view reads at the position the outer view gives. -/
def through (inner outer : Affine) (coords : List Int) : Option Int :=
  (outer.index coords).bind fun position => inner.index (unravel inner.shape position)

theorem index_invalid {shape : List Int} (hrank : shape ≠ []) (coords : List Int) :
    (⟨shape, shape.map fun _ => 0, 0, some (shape.map fun _ => (0, 0))⟩ : Affine).index coords
      = none := by
  cases shape with
  | nil => exact (hrank rfl).elim
  | cons d shape =>
    exact index_of_not_inRanges (not_inRanges_of_empty (r := (0, 0)) (by simp [ranges]) le_rfl)

variable {a : Affine}

theorem ranges_nonempty (hwell : a.WellFormed) (hsize : product a.shape ≠ 0)
    (hmask : (a.mask.getD []).any isEmptyRange = false) : ∀ r ∈ a.ranges, r.1 < r.2 := by
  intro r hr
  cases hm : a.mask with
  | none =>
    simp only [ranges, hm, Option.getD_none, List.mem_map] at hr
    obtain ⟨d, hd, rfl⟩ := hr
    have hne : d ≠ 0 := fun hzero => hsize (product_eq_zero_iff.mpr (hzero ▸ hd))
    have := hwell.dims_nonneg d hd
    simp only
    omega
  | some m =>
    simp only [ranges, hm, Option.getD_some] at hr
    simp only [hm, Option.getD_some, List.any_eq_false] at hmask
    simpa [isEmptyRange] using hmask r hr

theorem dims_pos_of_product_ne (hwell : a.WellFormed) (hsize : product a.shape ≠ 0) :
    ∀ d ∈ a.shape, 0 < d := by
  intro d hd
  have hne : d ≠ 0 := fun hzero => hsize (product_eq_zero_iff.mpr (hzero ▸ hd))
  have := hwell.dims_nonneg d hd
  omega

end Merge.Affine

namespace Merge

variable {axes : List Axis}

theorem dot_steps {coords : List Int} (hlength : coords.length = axes.length) (ws : List Int) :
    dot ws (steps axes coords) = dot ws coords - dot (axes.map (·.start)) ws := by
  induction ws generalizing axes coords with
  | nil => simp
  | cons w ws ih =>
    cases axes with
    | nil =>
      obtain rfl : coords = [] := by simpa using hlength
      simp [steps]
    | cons a axes =>
      cases coords with
      | nil => simp at hlength
      | cons c coords =>
        have htail := ih (by simpa using hlength : coords.length = axes.length)
        simp only [steps, List.zipWith_cons_cons, dot_cons_cons, List.map_cons] at htail ⊢
        rw [htail]
        ring

/-! ### The merged view -/

section Merged

variable {inner outer : Affine} {axes : List Axis} {xs coords : List Int}

theorem position_eq_dot_moved (hranges : axes.map (·.range) = outer.ranges)
    (hposition : ∀ coords, InRanges outer.ranges coords → dot outer.strides coords = dot
      outer.strides (outer.ranges.map (·.1)) + dot (axes.map (·.weight 0 ((coalesce inner).map
      (·.logical)))) (steps axes coords)) (hxs : InGroups (coalesce inner) xs)
    (hbase : dot ((coalesce inner).map (·.logical)) xs = outer.offset + dot (outer.ranges.map (·.1))
      outer.strides) (hin : InRanges outer.ranges coords) :
    outer.offset + dot outer.strides coords
      = dot ((coalesce inner).map (·.logical)) (moved axes coords 0 xs) := by
  have hlength : coords.length = axes.length := by
    rw [hin.length_eq, ← hranges, List.length_map]
  rw [dot_moved hlength (by simp [hxs.1]), hbase, hposition coords hin, dot_comm outer.strides]
  ring

theorem offset_add_dot_newStride (hranges : axes.map (·.range) = outer.ranges)
    (hxs : InGroups (coalesce inner) xs) (hin : InRanges outer.ranges coords) :
    inner.offset + dot ((coalesce inner).map (·.stride)) xs
          - dot (outer.ranges.map (·.1)) (axes.map (newStride (coalesce inner)))
        + dot (axes.map (newStride (coalesce inner))) coords
      = inner.offset + dot ((coalesce inner).map (·.stride)) (moved axes coords 0 xs) := by
  have hlength : coords.length = axes.length := by
    rw [hin.length_eq, ← hranges, List.length_map]
  have hstrides : axes.map (newStride (coalesce inner))
      = axes.map (·.weight 0 ((coalesce inner).map (·.stride))) :=
    List.map_congr_left fun a _ => newStride_eq_weight _ a
  have hstarts : outer.ranges.map (·.1) = axes.map (·.start) := by
    rw [← hranges, List.map_map]
    rfl
  rw [dot_moved hlength (by simp [hxs.1]), dot_steps hlength, hstrides, hstarts]
  ring

end Merged

/-! ### Exactness -/

section Empty

variable {inner outer : Affine}

theorem isEmpty_through_of_outer {r : Int × Int} (hr : r ∈ outer.ranges)
    (hempty : isEmptyRange r = true) (coords : List Int) : inner.through outer coords = none := by
  have hle : r.2 ≤ r.1 := by simpa [isEmptyRange] using hempty
  simp [Affine.through, Affine.index_of_not_inRanges (not_inRanges_of_empty hr hle)]

theorem isEmpty_through_of_inner (hwithin : outer.Within (product inner.shape))
    (hempty : product inner.shape = 0 ∨ (inner.mask.getD []).any isEmptyRange = true)
    (coords : List Int) : inner.through outer coords = none := by
  rw [Affine.through, Option.bind_eq_none_iff]
  intro position hposition
  rcases hempty with hsize | hmask
  · have := Affine.within_iff.mp hwithin coords position hposition
    omega
  · obtain ⟨r, hr, hle⟩ := List.any_eq_true.mp hmask
    cases hm : inner.mask with
    | none => simp [hm] at hr
    | some m =>
      refine Affine.index_of_not_inRanges (not_inRanges_of_empty (r := r) ?_ ?_)
      · simpa [Affine.ranges, hm] using hr
      · simpa [isEmptyRange] using hle

end Empty

section Exact

variable [Width] {bound top : Int} {inner outer : Affine} {v : View}

theorem affine?_cases {shape : Shape} (h : affine? inner outer shape = some v) :
    (v = .invalid shape ∧ ((outer.ranges.any isEmptyRange = true) ∨ product inner.shape = 0 ∨
        (inner.mask.getD []).any isEmptyRange = true)) ∨
      ∃ base axes xs, base = outer.offset + dot (outer.ranges.map (·.1)) outer.strides ∧
        product inner.shape ≠ 0 ∧ (inner.mask.getD []).any isEmptyRange = false ∧
        0 ≤ base ∧ base < product inner.shape ∧
        xs = (coalesce inner).map (fun g => (base.tdiv g.logical).tmod g.size) ∧
        (outer.ranges.zip outer.strides).mapM (fun (r, s) => assign? (coalesce inner) r s)
          = some axes ∧
        (∀ p ∈ ((coalesce inner).zip xs).zipIdx,
          staysInside p.1.1 p.1.2 (movers axes p.2) = true) ∧
        ((v = .invalid shape ∧ cutGroups axes 0 ((coalesce inner).zip xs) outer.ranges = .empty) ∨
          ∃ mask, cutGroups axes 0 ((coalesce inner).zip xs) outer.ranges = .keep mask ∧
            v = .create shape (some ((axes.map (newStride (coalesce inner))).map .const))
              (.const (inner.offset + dot ((coalesce inner).map (·.stride)) xs
                - dot (outer.ranges.map (·.1)) (axes.map (newStride (coalesce inner)))))
              (some (constRanges mask))) := by
  unfold affine? at h
  simp only at h
  split at h
  · rename_i hempty
    exact .inl ⟨(Option.some.inj h).symm, .inl hempty⟩
  split at h
  · rename_i hempty
    exact .inl ⟨(Option.some.inj h).symm, .inr hempty⟩
  rename_i hnonempty
  split at h
  · cases h
  rename_i hbase
  obtain ⟨axes, haxes, h⟩ := Option.bind_eq_some_iff.mp h
  split at h
  · rename_i hstays
    have hstays := List.all_eq_true.mp hstays
    push Not at hnonempty hbase
    refine .inr ⟨_, axes, _, rfl, hnonempty.1, by simpa using hnonempty.2, hbase.1, hbase.2, rfl,
      haxes, hstays, ?_⟩
    split at h
    · cases h
    · rename_i hcut
      exact .inl ⟨(Option.some.inj h).symm, hcut⟩
    · rename_i mask hcut
      exact .inr ⟨mask, hcut, (Option.some.inj h).symm⟩
  · cases h

/-- What `affine?` gives is exact, unless it is a view that should read nothing. -/
theorem Affine.affine?_exact_or_invalid (hexact : Width.ExactTo bound) (hinner : inner.WellFormed)
    (houter : outer.WellFormed) (hwithin : outer.Within (product inner.shape))
    (hdims : ∀ d ∈ outer.shape, d ≤ bound)
    (hreads : ∀ coords p, inner.index coords = some p → |p| ≤ top)
    (hfit : top * (1 + 2 * outer.shape.sum) ≤ bound)
    (h : affine? inner outer (outer.shape.map .const) = some v) :
    (∃ a, v.IsAffine a ∧ a.shape = outer.shape ∧
      ∀ coords, InShape outer.shape coords → a.index coords = inner.through outer coords) ∨
    v = .invalid (outer.shape.map .const) ∧ ∀ coords, inner.through outer coords = none := by
  rcases affine?_cases h with ⟨rfl, hempty⟩ |
    ⟨base, axes, xs, hbase, hsize, hmask, hlow, hhigh, hxs, haxes, hstays, hcut⟩
  · refine .inr ⟨rfl, fun coords => ?_⟩
    rcases hempty with hempty | hempty
    · obtain ⟨r, hr, hr'⟩ := List.any_eq_true.mp hempty
      exact isEmpty_through_of_outer hr hr' coords
    · exact isEmpty_through_of_inner hwithin hempty coords
  have hpos := Affine.dims_pos_of_product_ne hinner hsize
  have hnonempty := Affine.ranges_nonempty hinner hsize hmask
  obtain ⟨hingroups, hvalue⟩ := Affine.coalesce_coords hinner hpos hlow hhigh
  rw [← hxs] at hingroups hvalue
  have hlength : outer.strides.length = outer.ranges.length := by
    rw [houter.length_strides, houter.inside.length_eq]
  obtain ⟨hranges, hnonzero, hposition⟩ := assign_axes hlength haxes
  have hlength' : outer.ranges.length = axes.length := by rw [← hranges, List.length_map]
  -- Reading through both views, in terms of the moved digits.
  have hthrough : ∀ coords, InRanges outer.ranges coords →
      (Admitted (coalesce inner) (moved axes coords 0 xs) → inner.through outer coords
        = some (inner.offset + dot ((coalesce inner).map (·.stride)) (moved axes coords 0 xs))) ∧
      (¬ Admitted (coalesce inner) (moved axes coords 0 xs) →
        inner.through outer coords = none) := by
    intro coords hin
    have heq := position_eq_dot_moved hranges hposition hingroups (hvalue.trans hbase) hin
    have hstay := hwithin coords hin
    have hmoved := inGroups_moved hingroups.1 (hranges ▸ hin) hstays
    rw [heq] at hstay
    simp only [Affine.through, Affine.index_of_inRanges hin, Option.bind_some, heq]
    exact Affine.index_unravel_dot hinner hpos hnonempty hmoved hstay.1 hstay.2
  have hcuts := cutGroups_spec
    (fun g mover hmover => (hnonzero _ (List.mem_of_getElem? (mem_movers.mp hmover).1) _ _
      (mem_movers.mp hmover).2).1) hingroups.1 0 (fun coords hin => hranges ▸ hin)
    (fun g _ mover hmover => by
      rw [← hranges, List.getElem?_map, (mem_movers.mp hmover).1, Option.map_some])
    houter.inside
  rcases hcut with ⟨rfl, hcut⟩ | ⟨mask, hcut, rfl⟩
  · rw [hcut] at hcuts
    refine .inr ⟨rfl, fun coords => ?_⟩
    by_cases hin : InRanges outer.ranges coords
    · exact (hthrough coords hin).2 (hcuts.1 coords hin)
    · simp [Affine.through, Affine.index_of_not_inRanges hin]
  · rw [hcut] at hcuts
    obtain ⟨hleaves, hinside⟩ := hcuts
    have hrank : (axes.map (newStride (coalesce inner))).length = outer.shape.length := by
      rw [List.length_map, ← hlength', houter.inside.length_eq]
    obtain ⟨a, ha, hshape, hindex⟩ := View.exists_isAffine_create hexact
      (.refl (inner.offset + dot ((coalesce inner).map (·.stride)) xs
        - dot (outer.ranges.map (·.1)) (axes.map (newStride (coalesce inner)))))
      houter.dims_nonneg hdims hrank
      (fun m (hm : some mask = some m) => Option.some.inj hm ▸ hinside mask rfl)
      fun hvalid _ _ hfolds => (hfolds.abs_offset_le (hinside mask rfl)
          (by simp [dropUnits, hrank, (hinside mask rfl).length_eq]) hvalid fun coords hkept => by
            obtain ⟨hranged, hadmitted⟩ := (hleaves coords).mp hkept
            rw [dot_dropUnits _ ((hinside mask rfl).inShape hkept) hrank,
              offset_add_dot_newStride hranges hingroups hranged]
            obtain ⟨p, -, hp⟩ := Option.bind_eq_some_iff.mp ((hthrough coords hranged).1 hadmitted)
            exact hreads _ _ hp).trans hfit
    refine .inl ⟨a, ha, hshape, fun coords hin => ?_⟩
    by_cases hkept : InRanges mask coords
    · obtain ⟨hranged, hadmitted⟩ := (hleaves coords).mp hkept
      rw [hindex coords hin, Option.getD_some, if_pos hkept, (hthrough coords hranged).1 hadmitted,
        offset_add_dot_newStride hranges hingroups hranged]
    · rw [hindex coords hin, Option.getD_some, if_neg hkept]
      by_cases hranged : InRanges outer.ranges coords
      · refine ((hthrough coords hranged).2 fun hadmitted => ?_).symm
        exact hkept ((hleaves coords).mpr ⟨hranged, hadmitted⟩)
      · simp [Affine.through, Affine.index_of_not_inRanges hranged]

end Exact

end Merge

theorem map_const_injective {dims dims' : List Int} (h : dims.map SymInt.const = dims'.map .const) :
    dims = dims' :=
  List.map_injective_iff.mpr (fun _ _ h => SymInt.const.inj h) h

namespace View

section IsAffine

variable [Width] {bound top : Int} {v inner outer : View} {a b : Affine}

theorem IsAffine.index_of_contiguous (hexact : Width.ExactTo bound) (h : v.IsAffine a)
    (hcontiguous : v.contiguous = true) (hsize : product a.shape ≤ bound) {coords : List Int}
    (hin : InShape a.shape coords) : a.index coords = some (ravel a.shape coords) := by
  obtain ⟨hmask, hoffset, hstrides⟩ := h.rowMajor_of_contiguous hcontiguous
  have hrow := rowMajorSize_const hexact h.wellFormed.dims_nonneg
    fun rest hrest => (product_suffix_le hin.dims_pos hrest).trans hsize
  rw [rowMajor, hrow] at hstrides
  have hstrides : a.strides = rowStrides a.shape := map_const_injective hstrides
  have hranges : InRanges a.ranges coords := by
    rw [Affine.ranges, hmask]
    exact hin
  rw [Affine.index_of_inRanges hranges, hoffset, hstrides, dot_rowStrides hin, zero_add]

/-- Merging keeps what is read, unless nothing is left to read and there are no dimensions to mask it
out. -/
theorem IsAffine.merge? (hexact : Width.ExactTo bound) (hinner : inner.IsAffine a)
    (houter : outer.IsAffine b) (hwithin : b.Within (product a.shape))
    (hdims : ∀ d ∈ b.shape, d ≤ bound) (hsize : product a.shape ≤ bound)
    (hreads : ∀ coords p, a.index coords = some p → |p| ≤ top)
    (hfit : top * (1 + 2 * b.shape.sum) ≤ bound) (h : inner.merge? outer = some v) :
    (∃ c, v.IsAffine c ∧ c.shape = b.shape ∧
      ∀ coords, InShape b.shape coords → c.index coords = a.through b coords) ∨
    b.shape = [] ∧ v = .invalid [] ∧ ∀ coords, a.through b coords = none := by
  unfold View.merge? at h
  split at h
  · rename_i hcontiguous
    obtain rfl := Option.some.inj h
    refine .inl ⟨b, houter, rfl, fun coords hin => ?_⟩
    cases hindex : b.index coords with
    | none => simp [Affine.through, hindex]
    | some position =>
      obtain ⟨hlow, hhigh⟩ := Affine.within_iff.mp hwithin coords position hindex
      have hdims := hinner.wellFormed.dims_nonneg
      have hpos := dims_pos_of_lt_product hdims hlow hhigh
      rw [Affine.through, hindex, Option.bind_some,
        hinner.index_of_contiguous hexact hcontiguous hsize (inShape_unravel hpos position),
        ravel_unravel hdims hlow hhigh]
  · split at h
    · rename_i hcontiguous
      obtain rfl := Option.some.inj h
      have hshape : a.shape = b.shape := by
        have := hcontiguous.2
        rw [houter.shape_eq, hinner.shape_eq] at this
        exact (map_const_injective this).symm
      refine .inl ⟨a, hinner, hshape, fun coords hin => ?_⟩
      rw [Affine.through, houter.index_of_contiguous hexact hcontiguous.1 (hshape ▸ hsize) hin,
        Option.bind_some, hshape, unravel_ravel hin]
    · rw [hinner.eq_toView, houter.eq_toView, Affine.ofView?_toView, Affine.ofView?_toView] at h
      rcases Affine.affine?_exact_or_invalid hexact hinner.wellFormed houter.wellFormed hwithin hdims
        hreads hfit h with hmerged | ⟨rfl, hnone⟩
      · exact .inl hmerged
      · by_cases hnil : b.shape = []
        · exact .inr ⟨hnil, by rw [hnil]; rfl, hnone⟩
        · exact .inl ⟨_, isAffine_invalid houter.wellFormed.dims_nonneg, rfl, fun coords _ => by
            rw [hnone, Affine.index_invalid hnil]⟩

end IsAffine

/-! ### Views made of numbers -/

/-- The parts that a view without variables is made of. -/
structure Parts where
  shape : List Int
  /-- The row-major ones of the shape if there are none. -/
  strides : Option (List Int)
  offset : Int
  mask : Option (List (Int × Int))

namespace Parts

def view [Width] (p : Parts) : View :=
  .create (p.shape.map .const) (p.strides.map (·.map .const)) (.const p.offset)
    (p.mask.map constRanges)

/-- The mask lies inside the shape. -/
structure Legal (p : Parts) : Prop where
  dims_nonneg : ∀ d ∈ p.shape, 0 ≤ d
  length_strides : ∀ s, p.strides = some s → s.length = p.shape.length
  mask_inside : ∀ m, p.mask = some m → RangesInside m p.shape

def strideList (p : Parts) : List Int := p.strides.getD (rowStrides p.shape)

/-- A bound for the numbers that come up when the parts are put into canonical form. -/
def room (p : Parts) : Int := 1 + p.shape.sum + |p.offset| + 2 * spread p.shape p.strideList

theorem sum_le_room (p : Parts) : p.shape.sum + 1 ≤ p.room := by
  have := abs_nonneg p.offset
  have := spread_nonneg p.shape p.strideList
  unfold room
  linarith

theorem Legal.room_pos {p : Parts} (h : p.Legal) : 0 < p.room := by
  have := List.sum_nonneg h.dims_nonneg
  have := sum_le_room p
  linarith

theorem length_strideList {p : Parts}
    (h : ∀ s, p.strides = some s → s.length = p.shape.length) :
    p.strideList.length = p.shape.length := by
  cases hstrides : p.strides with
  | some s => simpa [strideList, hstrides] using h s hstrides
  | none => simp [strideList, hstrides]

end Parts

theorem create_none_eq [Width] (shape : Shape) (offset : SymInt) (mask : Option Mask) :
    create shape none offset mask = create shape (some (rowMajor shape)) offset mask := by
  have hunits : ∀ shape : Shape,
      (rowMajor shape).zipWith (fun s d => if d = 1 then 0 else s) shape = rowMajor shape := by
    intro shape
    induction shape with
    | nil => rfl
    | cons d shape ih =>
      simp only [rowMajor, rowMajorSize, List.zipWith_cons_cons] at ih ⊢
      rw [ih]
      congr 1
      split <;> rfl
  simp only [create, hunits]

theorem product_le_spread {shape rest : List Int} (hdims : ∀ d ∈ shape, 0 ≤ d)
    (hrest : rest <:+ shape) : product rest ≤ 1 + spread shape (rowStrides shape) := by
  induction shape generalizing rest with
  | nil =>
    obtain rfl := List.suffix_nil.mp hrest
    simp [spread]
  | cons d shape ih =>
    rw [List.forall_mem_cons] at hdims
    have habs : 0 ≤ |d * (if d = 1 then 0 else product shape)| := abs_nonneg _
    simp only [rowStrides, spread]
    rcases List.suffix_cons_iff.mp hrest with rfl | hrest
    · have htail := ih hdims.2 List.suffix_rfl
      rw [product_cons]
      split
      · subst_vars
        simpa using htail
      · have := le_abs_self (d * product shape)
        have := spread_nonneg shape (rowStrides shape)
        linarith
    · have := ih hdims.2 hrest
      linarith

namespace Parts

section Exact

variable [Width] {bound : Int} (hexact : Width.ExactTo bound) {p : Parts}
include hexact

theorem view_eq (hdims : ∀ d ∈ p.shape, 0 ≤ d)
    (hsizes : p.strides = none → ∀ rest, rest <:+ p.shape → product rest ≤ bound) :
    p.view = .create (p.shape.map .const) (some (p.strideList.map .const)) (.const p.offset)
      (p.mask.map constRanges) := by
  cases hstrides : p.strides with
  | some s => simp [view, strideList, hstrides]
  | none =>
    have hrow := rowMajorSize_const hexact hdims (hsizes hstrides)
    simp [view, strideList, hstrides, create_none_eq, rowMajor, hrow]

theorem exists_isAffine (hlegal : p.Legal) (hroom : p.room ≤ bound) :
    ∃ a, p.view.IsAffine a ∧ a.shape = p.shape ∧
      (∀ coords q, a.index coords = some q → |q| ≤ p.room) ∧
      ∀ coords, InShape p.shape coords → p.view.index coords = a.index coords := by
  have hspread := spread_nonneg p.shape p.strideList
  have hoffset := abs_nonneg p.offset
  have hsum : 0 ≤ p.shape.sum := List.sum_nonneg hlegal.dims_nonneg
  have hdims : ∀ d ∈ p.shape, d ≤ bound := by
    intro d hd
    have := List.single_le_sum hlegal.dims_nonneg d hd
    unfold room at hroom
    linarith
  have hview := view_eq hexact hlegal.dims_nonneg fun hstrides rest hrest => by
    have := product_le_spread hlegal.dims_nonneg hrest
    simp only [room, strideList, hstrides, Option.getD_none] at hroom hspread
    linarith
  have hinside : RangesInside (p.mask.getD (fullRanges p.shape)) p.shape := by
    cases hm : p.mask with
    | none => exact rangesInside_fullRanges hlegal.dims_nonneg
    | some m => exact hlegal.mask_inside m hm
  obtain ⟨a, ha, hshape, hindex⟩ := exists_isAffine_create hexact (.refl p.offset)
    hlegal.dims_nonneg hdims
    (length_strideList hlegal.length_strides) hlegal.mask_inside fun hnonempty _ _ hfolds => by
      have hstarts := spread_folded_le hinside p.strideList
      have hfolded := hfolds.abs_le _ (inRanges_starts hnonempty)
      unfold room at hroom
      linarith
  have hreads : ∀ coords q, a.index coords = some q → |q| ≤ p.room := fun coords q hq => ?_
  · refine ⟨a, hview ▸ ha, hshape, hreads, fun coords hin => ?_⟩
    exact (hview ▸ ha).index_eq hexact (hshape ▸ hin) fun q hq => (hreads coords q hq).trans hroom
  have hin : InShape p.shape coords := by
    rw [← hshape]
    by_contra hout
    rw [Affine.index_of_not_inRanges fun h => hout (ha.wellFormed.inShape h)] at hq
    cases hq
  rw [hindex coords hin] at hq
  split at hq
  · obtain rfl := Option.some.inj hq
    have := abs_add_le p.offset (Merge.dot p.strideList coords)
    have := abs_dot_le_of_inShape hin p.strideList
    unfold room
    linarith
  · cases hq

theorem index_unmasked {coords strides : List Int} {shape : List Int} (offset : Int)
    (hlength : strides.length = shape.length) (hsize : product shape ≤ bound)
    (hin : InShape shape coords) (hsum : |offset + Merge.dot strides coords| ≤ bound) {v : View}
    (hv : v = .create (shape.map .const) (some (strides.map .const)) (.const offset) none) :
    v.index coords = some (offset + Merge.dot strides coords) ∧
      (v.contiguous = true → v.index coords = some (ravel shape coords)) := by
  have hview := isAffine_unmasked offset (fun d hd => (hin.dims_pos d hd).le) hlength
  rw [← hv] at hview
  rw [← dot_dropUnits strides hin hlength] at hsum ⊢
  have hread := Affine.index_of_inRanges (a := ⟨shape, dropUnits shape strides, offset, none⟩) hin
  rw [hview.index_eq hexact hin fun p hp => Option.some.inj (hread.symm.trans hp) ▸ hsum]
  exact ⟨hread, fun hcontiguous => hview.index_of_contiguous hexact hcontiguous hsize hin⟩

/-- Canonical form keeps what a view reads: the offset that its strides give wherever the mask is
valid and nothing elsewhere, in row-major order if the view is contiguous. The number of elements,
the ends of the mask with their distances and the sum of the offset with what the strides contribute
must be exact. -/
theorem view_reads_parts {coords : List Int}
    (hstrides : ∀ s, p.strides = some s → s.length = p.shape.length)
    (hmask : ∀ m, p.mask = some m → m.length = p.shape.length ∧ RangesFit bound m)
    (hsize : product p.shape ≤ bound) (hin : InShape p.shape coords)
    (hsum : |p.offset| + spread coords p.strideList ≤ bound) :
    p.view.index coords = (if InRanges (p.mask.getD (fullRanges p.shape)) coords then
        some (p.offset + Merge.dot p.strideList coords) else none) ∧
      (p.view.contiguous = true → p.view.index coords = some (ravel p.shape coords)) := by
  have hpos := hin.dims_pos
  have hdims : ∀ d ∈ p.shape, 0 ≤ d := fun d hd => (hpos d hd).le
  have hlength := length_strideList hstrides
  have hfull : InRanges (fullRanges p.shape) coords := hin
  have htotal : |p.offset + Merge.dot p.strideList coords| ≤ bound := by
    have := abs_add_le p.offset (Merge.dot p.strideList coords)
    have := abs_dot_le_spread p.strideList coords
    rw [spread_comm] at this
    linarith
  rw [view_eq hexact hdims fun _ rest hrest => (product_suffix_le hpos hrest).trans hsize]
  cases hm : p.mask with
  | none =>
    rw [Option.getD_none, if_pos hfull]
    exact index_unmasked hexact p.offset hlength hsize hin htotal rfl
  | some m =>
    obtain ⟨hrank, hfit⟩ := hmask m hm
    rw [Option.getD_some, Option.map_some]
    rcases create_masked hexact hfit hrank rfl with
      ⟨⟨r, hr, hle⟩, hview⟩ | ⟨-, ⟨rfl, hview⟩ | ⟨folded, hfolded, hview⟩⟩
    · rw [hview, if_neg (not_inRanges_of_empty hr hle), (isAffine_invalid hdims).index_eq_map hin,
        Option.map_eq_none_iff]
      refine ⟨Affine.index_of_not_inRanges ?_, fun h => nomatch h⟩
      exact not_inRanges_of_empty (r := (0, 0)) (mem_zeros hrank hr) le_rfl
    · rw [if_pos hfull]
      exact index_unmasked hexact p.offset hlength hsize hin htotal hview
    · rw [hview]
      refine ⟨?_, fun h => nomatch h⟩
      have hall := all_inRange?_iff (hin.length_eq.trans hrank.symm)
      by_cases hranges : InRanges m coords
      · have hunits : (dropUnits p.shape p.strideList).length = m.length := by
          simp [dropUnits, hlength, hrank]
        obtain ⟨strides, offset, stored, heq, hstored, hfolds⟩ :=
          foldSingles_const hexact hfit hunits (.refl p.offset)
        obtain rfl := hexact.eq_of_stores ((hfolds.abs_le coords hranges).trans
          ((add_le_add_right (spread_dropUnits_le coords p.shape p.strideList) _).trans hsum)) hstored
        rw [← dot_dropUnits _ hin hlength, ← hfolds.reads_eq coords hranges] at htotal ⊢
        rw [if_pos hranges, hfolded, heq]
        simp [View.index, hall.mpr hranges, dot?_const, hexact.wrap_eq htotal]
      · rw [if_neg hranges, View.index, Option.getD_some, if_neg (hall.not.mpr hranges)]

end Exact

/-- A matrix read from its last column, with one valid row, in 64-bit arithmetic. -/
theorem view_reads_parts_oneRow :
    @index .word64 (@view .word64 ⟨[2, 3], some [3, -1], 2, some [(1, 2), (0, 2)]⟩) [1, 1] =
        some 4 ∧
      @index .word64 (@view .word64 ⟨[2, 3], some [3, -1], 2, some [(1, 2), (0, 2)]⟩) [0, 1] =
        none := by
  have hreads := fun coords hin hsum => (@view_reads_parts .word64 _
    (Width.exactTo_word64 le_rfl) ⟨[2, 3], some [3, -1], 2, some [(1, 2), (0, 2)]⟩ coords
    (by rintro s ⟨⟩; rfl) (by rintro m ⟨⟩; exact ⟨rfl, by unfold RangesFit; decide⟩) (by decide) hin hsum).1
  exact ⟨(hreads [1, 1] (by decide) (by decide)).trans (by decide),
    (hreads [0, 1] (by decide) (by decide)).trans (by decide)⟩

end Parts

/-- A bound for the numbers that come up when two views are merged. -/
def Parts.mergeRoom (inner outer : Parts) : Int :=
  outer.room + product inner.shape + inner.room * (1 + 2 * outer.shape.sum)

/-- Wherever two views merge, the merged view has the shape of the outer one and reads what the
inner view reads at the position the outer one gives, if both read anything. -/
theorem merge?_reads_through [Width] {inner outer : Parts} (hinner : inner.Legal)
    (houter : outer.Legal) (hrank : 1 ≤ outer.shape.length)
    (hpositions : ∀ coords position, InShape outer.shape coords →
      outer.view.index coords = some position → 0 ≤ position ∧ position < product inner.shape)
    (hexact : Width.ExactTo (inner.mergeRoom outer)) {merged : View}
    (h : inner.view.merge? outer.view = some merged) :
    merged.shape = outer.view.shape ∧ ∀ coords, InShape outer.shape coords →
      merged.index coords = (outer.view.index coords).bind fun position =>
        inner.view.index (unravel inner.shape position) := by
  have hsum : 0 ≤ outer.shape.sum := List.sum_nonneg houter.dims_nonneg
  have hsize : 0 ≤ product inner.shape := product_nonneg hinner.dims_nonneg
  have houterRoom := houter.room_pos
  have hinnerRoom := hinner.room_pos
  have hscaled : inner.room ≤ inner.room * (1 + 2 * outer.shape.sum) :=
    le_mul_of_one_le_right hinnerRoom.le (by linarith)
  have hroom : inner.mergeRoom outer
      = outer.room + product inner.shape + inner.room * (1 + 2 * outer.shape.sum) := rfl
  obtain ⟨a, ha, hshape, hreads, hindex⟩ := Parts.exists_isAffine hexact hinner (by linarith)
  obtain ⟨b, hb, hshape', -, hindex'⟩ := Parts.exists_isAffine hexact houter (by linarith)
  have hwithin : b.Within (product a.shape) := by
    intro coords hin
    have hcoords := hb.wellFormed.inShape hin
    rw [hshape]
    refine hpositions coords _ (hshape' ▸ hcoords) ?_
    rw [hindex' coords (hshape' ▸ hcoords), Affine.index_of_inRanges hin]
  have hne : b.shape ≠ [] := by rw [hshape']; exact List.ne_nil_of_length_pos hrank
  obtain ⟨c, hc, hshape'', hthrough⟩ := (ha.merge? hexact hb hwithin
    (fun d hd => by
      have hle := List.single_le_sum houter.dims_nonneg d (hshape' ▸ hd)
      have := outer.sum_le_room
      linarith)
    (by rw [hshape]; linarith) hreads (by rw [hshape']; linarith) h).resolve_right
      fun hnil => hne hnil.1
  constructor
  · rw [hc.shape_eq, hb.shape_eq, hshape'']
  · intro coords hin
    have hread := hthrough coords (hshape' ▸ hin)
    rw [hc.index_eq hexact (by rwa [hshape'', hshape']) fun p hp => ?_, hread, hindex' coords hin,
      Affine.through]
    rotate_left
    · obtain ⟨position, -, hp⟩ := Option.bind_eq_some_iff.mp (hread ▸ hp)
      exact (hreads _ p hp).trans (by linarith)
    cases hposition : b.index coords with
    | none => rfl
    | some position =>
      obtain ⟨hlow, hhigh⟩ := Affine.within_iff.mp hwithin coords position hposition
      have hpos := dims_pos_of_lt_product ha.wellFormed.dims_nonneg hlow hhigh
      simp only [Option.bind_some]
      rw [← hshape, hindex _ (hshape ▸ inShape_unravel hpos position)]

/-- Reading the last row of a masked matrix backwards, in 64-bit arithmetic. -/
theorem merge?_reads_last_row :
    ∃ merged, @merge? .word64 (@Parts.view .word64 ⟨[2, 3], none, 0, some [(0, 2), (1, 3)]⟩)
        (@Parts.view .word64 ⟨[3], some [-1], 5, none⟩) = some merged ∧
      ∀ coords, InShape [3] coords →
        @index .word64 merged coords
          = (@index .word64 (@Parts.view .word64 ⟨[3], some [-1], 5, none⟩) coords).bind
              fun position => @index .word64
                (@Parts.view .word64 ⟨[2, 3], none, 0, some [(0, 2), (1, 3)]⟩)
                (unravel [2, 3] position) := by
  refine ⟨_, rfl, (@merge?_reads_through .word64 ⟨[2, 3], none, 0, some [(0, 2), (1, 3)]⟩
    ⟨[3], some [-1], 5, none⟩ ⟨by decide, by simp, ?_⟩ ⟨by decide, ?_, by simp⟩ (by decide) ?_
    (Width.exactTo_word64 (by decide)) _ rfl).2⟩
  · rintro m ⟨⟩
    simp [RangesInside]
  · rintro s ⟨⟩
    rfl
  · intro coords position hin hindex
    obtain ⟨c, rfl⟩ := List.length_eq_one_iff.mp hin.length_eq
    obtain ⟨⟨hlow, hhigh⟩, -⟩ := inShape_cons_cons.mp hin
    obtain rfl | rfl | rfl : c = 0 ∨ c = 1 ∨ c = 2 := by omega
    all_goals cases hindex; decide

end View

end LazyTensor

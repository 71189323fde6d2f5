import LazyTensor.Proofs.Movement.Views
import LazyTensor.Proofs.View.Merge
import Mathlib.Data.List.GetD

/-!
# The operations on views

What expanding, padding, shrinking, striding, permuting and reshaping compute on a view without
variables, and that each of them succeeds where the movement is legal.
-/

namespace LazyTensor

open Merge

/-- A view that reads, at the coordinates of `shape`, what `a` reads at their sources. -/
def View.ReadsFrom [Width] (v : View) (a : Affine) (shape : List Int)
    (source : List Int → Option (List Int)) : Prop :=
  ∃ a', v.IsAffine a' ∧ a'.shape = shape ∧
    ∀ coords, InShape shape coords → a'.index coords = (source coords).bind a.index

section Carry

variable [Width] {bound n extent : Int} {v : View} {a : Affine} {α : Type}
  {axes : List (AxisState × α)} {f : α → AxisMove} (haxes : a.HasAxes axes)

include haxes

/-- A view made of the parts carried along the axes reads at each coordinate what the view reads at
the source of it, as soon as the parts are right where there is anything to read. -/
theorem View.Located.readsFrom_create (h : v.Located a n extent) (hexact : Width.ExactTo bound)
    (hlegal : ∀ l ∈ axes, (f l.2).Legal l.1.dim) (strides : List Int) (stored : Int)
    {mask : Option (List (Int × Int))} (hlength : strides.length = axes.length)
    (hmask : mask.getD (fullRanges (axes.map fun l => (f l.2).size l.1.dim))
      = axes.map fun l => (f l.2).carryRange l.1) (hroom : HasRoom bound n extent)
    (hsum : (axes.map fun l => (f l.2).size l.1.dim).sum ≤ extent)
    (hcarried : (∀ r ∈ a.ranges, r.1 < r.2) →
      dropUnits (axes.map fun l => (f l.2).size l.1.dim) strides
          = dropUnits (axes.map fun l => (f l.2).size l.1.dim)
            (axes.map fun l => (f l.2).carryStride l.1) ∧
        Width.Stores stored (a.offset + (axes.map fun l => (f l.2).carryOffset l.1).sum)) :
    (View.create ((axes.map fun l => (f l.2).size l.1.dim).map .const) (some (strides.map .const))
        (.const stored) (mask.map constRanges)).ReadsFrom a
      (axes.map fun l => (f l.2).size l.1.dim)
      (Move.sourceAlong (axes.map fun l => f l.2) a.shape) := by
  have hinside := carryRanges_inside hlegal
  have hrank : strides.length = (axes.map fun l => (f l.2).size l.1.dim).length := by
    simpa using hlength
  obtain ⟨offset, hstored, hoffset⟩ : ∃ offset, Width.Stores stored offset ∧
      ((∀ r ∈ a.ranges, r.1 < r.2) →
        offset = a.offset + (axes.map fun l => (f l.2).carryOffset l.1).sum) := by
    by_cases hvalid : ∀ r ∈ a.ranges, r.1 < r.2
    · exact ⟨_, (hcarried hvalid).2, fun _ => rfl⟩
    · exact ⟨stored, .refl stored, fun h => absurd h hvalid⟩
  have hspec := fun coords (hin : InShape _ coords) => sourceAlong_spec hlegal hin
  simp only [haxes.shape_eq, haxes.ranges_eq, haxes.strides_eq] at hspec
  have hreads : ∀ coords, InRanges (axes.map fun l => (f l.2).carryRange l.1) coords →
      ∃ xs, Move.sourceAlong (axes.map fun l => f l.2) a.shape coords = some xs ∧
        InRanges a.ranges xs ∧ offset + dot strides coords = a.offset + dot a.strides xs := by
    intro coords hvalid
    have hin := hinside.inShape hvalid
    obtain ⟨xs, hsource, hxs⟩ := (hspec coords hin).1.mp hvalid
    refine ⟨xs, hsource, hxs, ?_⟩
    rw [hoffset hxs.nonempty, ← dot_dropUnits strides hin hrank, (hcarried hxs.nonempty).1,
      dot_dropUnits _ hin (by simp), ← (hspec coords hin).2 xs hsource, add_assoc]
  have hsizes : ∀ d ∈ axes.map fun l => (f l.2).size l.1.dim, d ≤ bound := by
    intro d hd
    have := List.single_le_sum (sizes_nonneg hlegal) d hd
    linarith [hroom.extent_le, hroom.extent_nonneg]
  have hmasked : ∀ m, mask = some m → RangesInside m (axes.map fun l => (f l.2).size l.1.dim) := by
    rintro m rfl
    exact (show m = _ from hmask) ▸ hinside
  obtain ⟨a', ha', hshape', hindex⟩ := View.exists_isAffine_create hexact hstored
    (sizes_nonneg hlegal) hsizes hrank hmasked (by
      rw [hmask]
      refine fun hvalid _ _ hfolds => (hfolds.abs_offset_le hinside (by simp [dropUnits, hlength])
        hvalid fun coords hin => ?_).trans (hroom.offset_le hsum)
      obtain ⟨xs, -, hxs, heq⟩ := hreads coords hin
      rw [dot_dropUnits _ (hinside.inShape hin) hrank, heq]
      exact h.abs_read_le hxs)
  rw [hmask] at hindex
  refine ⟨a', ha', hshape', fun coords hin => ?_⟩
  by_cases hvalid : InRanges (axes.map fun l => (f l.2).carryRange l.1) coords
  · obtain ⟨xs, hsource, hxs, heq⟩ := hreads coords hvalid
    rw [hindex coords hin, if_pos hvalid, hsource, Option.bind_some, Affine.index_of_inRanges hxs,
      heq]
  · rw [hindex coords hin, if_neg hvalid]
    cases hsource : Move.sourceAlong (axes.map fun l => f l.2) a.shape coords with
    | none => rfl
    | some xs =>
      refine (Affine.index_of_not_inRanges fun hxs => ?_).symm
      exact hvalid ((hspec coords hin).1.mpr ⟨xs, hsource, hxs⟩)

omit [Width] in
theorem Merge.Affine.HasAxes.length_strides : a.strides.length = axes.length := by
  rw [← haxes.strides_eq, List.length_map]

omit haxes in
/-- The axes of a view, each with what a legal movement does along it. -/
theorem View.IsAffine.exists_axes (h : v.IsAffine a) {args : List α}
    (hlegal : Move.LegalAlong (args.map f) a.shape) :
    ∃ axes, a.HasAxes axes ∧ axes.map (·.2) = args ∧ (∀ l ∈ axes, (f l.2).Legal l.1.dim) ∧
      (args.map f).zipWith AxisMove.size a.shape = axes.map fun l => (f l.2).size l.1.dim := by
  obtain ⟨axes, haxes, rfl⟩ := h.wellFormed.exists_hasAxes
    (by simpa using hlegal.length_eq : args.length = a.shape.length)
  rw [← haxes.shape_eq, List.map_map] at hlegal ⊢
  refine ⟨axes, haxes, rfl, Move.legalAlong_map_iff.mp hlegal, ?_⟩
  rw [List.zipWith_map, List.zipWith_self]
  rfl

theorem View.Located.readsFrom_self (h : v.Located a n extent)
    (hsame : ∀ l ∈ axes, (f l.2).size l.1.dim = l.1.dim ∧ ∀ c, 0 ≤ c → c < l.1.dim → (f l.2).source
      l.1.dim c = some c) :
    v.ReadsFrom a (axes.map fun l => (f l.2).size l.1.dim)
      (Move.sourceAlong (axes.map fun l => f l.2) a.shape) := by
  have hsizes : axes.map (fun l => (f l.2).size l.1.dim) = a.shape := by
    rw [← haxes.shape_eq]
    exact List.map_congr_left fun l hl => (hsame l hl).1
  refine ⟨a, h.isAffine, hsizes.symm, fun coords hin => ?_⟩
  rw [hsizes] at hin
  rw [← haxes.shape_eq] at hin ⊢
  have hsource : Move.sourceAlong (axes.map fun l => f l.2) (axes.map (·.1.dim)) coords
      = some coords := by
    clear haxes hsizes
    induction axes generalizing coords with
    | nil =>
      obtain rfl : coords = [] := by simpa using hin
      rfl
    | cons l axes ih =>
      obtain ⟨c, coords, rfl, ⟨hc, hcd⟩, hin⟩ := inShape_cons.mp hin
      rw [List.forall_mem_cons] at hsame
      simp only [List.map_cons, Move.sourceAlong, hsame.1.2 c hc hcd, ih hsame.2 coords hin]
      rfl
  rw [hsource, Option.bind_some]

omit haxes in
theorem View.IsAffine.any_zero_iff (h : v.IsAffine a) :
    v.shape.any (· == 0) = true ↔ 0 ∈ a.shape := by
  simp [h.shape_eq]

theorem View.IsAffine.parts_eq (h : v.IsAffine a) :
    v.shape = axes.map (fun l => .const l.1.dim) ∧
      v.strides = axes.map (fun l => .const l.1.stride) ∧ v.offset = .const a.offset ∧
      v.mask = a.mask.map fun _ => axes.map fun l => (.const l.1.range.1, .const l.1.range.2) := by
  rw [h.eq_toView]
  simp only [Affine.toView, ← haxes.shape_eq, ← haxes.strides_eq, List.map_map, Function.comp_def,
    true_and]
  cases hmask : a.mask with
  | none => rfl
  | some m =>
    have hm : m = axes.map (·.1.range) := by
      rw [haxes.ranges_eq, Affine.ranges, hmask, Option.getD_some]
    simp [constRanges, hm, Function.comp_def]

omit [Width] in
theorem Merge.Affine.HasAxes.range_of_unmasked (hmask : a.mask = none) :
    ∀ l ∈ axes, l.1.range = (0, l.1.dim) := by
  have hranges := haxes.ranges_eq
  rw [Affine.ranges, hmask, Option.getD_none, ← haxes.shape_eq, List.map_map,
    List.map_inj_left] at hranges
  exact hranges

omit [Width] in
theorem Merge.Affine.HasAxes.carried_mask (hlegal : ∀ l ∈ axes, (f l.2).Legal l.1.dim)
    (hpad : ∀ x before after, f x ≠ .pad before after) :
    (a.mask.map fun _ => axes.map fun l => (f l.2).carryRange l.1).getD
        (fullRanges (axes.map fun l => (f l.2).size l.1.dim))
      = axes.map fun l => (f l.2).carryRange l.1 := by
  cases hmask : a.mask with
  | some m => rfl
  | none =>
    rw [Option.map_none, Option.getD_none, fullRanges, List.map_map, List.map_inj_left]
    intro l hl
    exact (AxisMove.carryRange_full (hlegal l hl) (hpad l.2)
      (haxes.range_of_unmasked hmask l hl)).symm

end Carry

/-! ### Row-major views -/

section OfShape

variable [Width] {bound : Int}

theorem rowMajorSize_isConst (shape : List Int) :
    ∃ (strides : List Int) (size : Int), strides.length = shape.length ∧
      rowMajorSize (shape.map .const) = (strides.map .const, .const size) := by
  induction shape with
  | nil => exact ⟨[], 1, rfl, rfl⟩
  | cons d shape ih =>
    obtain ⟨strides, size, hlength, heq⟩ := ih
    refine ⟨(if d = 1 then 0 else size) :: strides, Width.wrap (size * d), by simp [hlength], ?_⟩
    simp only [List.map_cons, rowMajorSize, heq, SymInt.const_eq_one_iff]
    congr 2
    split <;> rfl

theorem View.exists_isAffine_ofShape (hexact : Width.ExactTo bound) {shape : List Int}
    (hdims : ∀ d ∈ shape, 0 ≤ d) (hsize : product shape ≤ bound) :
    ∃ a, (View.ofShape (shape.map .const)).IsAffine a ∧ a.shape = shape ∧
      ∀ coords, InShape shape coords → a.index coords = some (ravel shape coords) := by
  obtain ⟨strides, size, hlength, hrow⟩ := rowMajorSize_isConst shape
  have hstrides : rowMajor (shape.map .const) = strides.map .const := by rw [rowMajor, hrow]
  have hview := View.isAffine_unmasked 0 hdims hlength
  rw [← hstrides, show SymInt.const 0 = 0 from rfl, ← View.create_none_eq] at hview
  refine ⟨_, hview, rfl, fun coords hin => ?_⟩
  refine hview.index_of_contiguous hexact ?_ hsize hin
  simp [View.create]

end OfShape

/-! ### Expanding -/

section Expand

theorem View.checkExpand_eq_ok_iff {new shape : List Int} (hnew : ∀ d ∈ new, 0 ≤ d)
    (hlength : new.length = shape.length) (dim : Nat) :
    View.checkExpand dim (shape.map .const) (new.map .const) = .ok () ↔
      Move.LegalAlong (new.map .expand) shape := by
  induction new generalizing shape dim with
  | nil =>
    rw [List.eq_nil_of_length_eq_zero hlength.symm]
    exact iff_of_true rfl trivial
  | cons d new ih =>
    cases shape with
    | nil => cases hlength
    | cons o shape =>
      rw [List.forall_mem_cons] at hnew
      have hhead : SymInt.const o = .const d ∨ SymInt.const o = 1 ↔ (AxisMove.expand d).Legal o := by
        simp [AxisMove.Legal, hnew.1]
      simp only [List.map_cons, View.checkExpand, hhead, Move.LegalAlong]
      rw [← ih hnew.2 (Nat.succ.inj hlength) (dim + 1)]
      split <;> simp_all

theorem View.expandRange_const (x : AxisState) (size : Int) :
    View.expandRange (.const x.range.1, .const x.range.2) (.const x.dim) (.const size)
      = (.const ((AxisMove.expand size).carryRange x).1,
        .const ((AxisMove.expand size).carryRange x).2) := by
  have hrange : (SymInt.const x.range.1, SymInt.const x.range.2) = (0, 1) ↔ x.range = (0, 1) := by
    rw [Prod.ext_iff, Prod.ext_iff]
    simp
  simp only [View.expandRange, AxisMove.carryRange, SymInt.const.injEq, hrange]
  split
  · rfl
  · split <;> rfl

end Expand

section Expand

variable [Width] {bound n extent : Int} {v : View} {a : Affine}

theorem View.Located.expand (h : v.Located a n extent) (hexact : Width.ExactTo bound)
    (hroom : HasRoom bound n extent) {new : List Int}
    (hlegal : Move.LegalAlong (new.map .expand) a.shape)
    (hsum : ((new.map .expand).zipWith AxisMove.size a.shape).sum ≤ extent) :
    ∃ v', v.expand (new.map .const) = .ok v' ∧
      v'.ReadsFrom a ((new.map .expand).zipWith AxisMove.size a.shape)
        (Move.sourceAlong (new.map .expand) a.shape) := by
  have hlength : new.length = a.shape.length := by simpa using hlegal.length_eq
  have hcheck := fun hnew => (View.checkExpand_eq_ok_iff hnew hlength 0).mpr hlegal
  obtain ⟨axes, haxes, rfl, hlegal, hsizes⟩ := h.isAffine.exists_axes hlegal
  obtain ⟨hshape, hstrides, hoffset, hmask⟩ := h.isAffine.parts_eq haxes
  rw [hsizes] at hsum ⊢
  simp only [List.map_map, Function.comp_def]
  have hrank : ¬ (axes.map fun l => SymInt.const l.2).length ≠ v.rank := by
    simp [View.rank, hshape]
  by_cases hzero : 0 ∈ a.shape
  · have hany := h.isAffine.any_zero_iff.mpr hzero
    have hnew : 0 ∈ axes.map fun l => (AxisMove.expand l.2).size l.1.dim := by
      rw [← haxes.shape_eq] at hzero
      obtain ⟨l, hl, hdim⟩ := List.mem_map.mp hzero
      refine List.mem_map.mpr ⟨l, hl, ?_⟩
      have := (hlegal l hl).2
      simp only [AxisMove.size]
      omega
    obtain ⟨a', ha', hshape', -⟩ := View.exists_isAffine_ofShape hexact (sizes_nonneg hlegal) (by
      rw [product_eq_zero_iff.mpr hnew]
      linarith [hroom.extent_le, hroom.extent_nonneg])
    refine ⟨_, by rw [View.expand, if_neg hrank, hany, if_pos rfl], a', ?_, hshape', ?_⟩
    · simpa only [List.map_map, Function.comp_def, AxisMove.size] using ha'
    · intro coords hin
      exact (lt_irrefl 0 (hin.dims_pos 0 hnew)).elim
  · have hany := Bool.eq_false_iff.mpr (mt h.isAffine.any_zero_iff.mp hzero)
    refine ⟨_, ?_, h.readsFrom_create haxes hexact hlegal _ _ (by simp)
      (haxes.carried_mask hlegal (by simp)) hroom hsum fun _ => ⟨rfl, .refl _⟩⟩
    have hcheck := hcheck (List.forall_mem_map.mpr fun l hl => (hlegal l hl).1)
    simp only [← h.isAffine.shape_eq, List.map_map, Function.comp_def] at hcheck
    rw [View.expand, if_neg hrank, hany, hcheck, hshape]
    have hshift : (axes.map fun l => (AxisMove.expand l.2).carryOffset l.1).sum = 0 := by
      simp [AxisMove.carryOffset]
    simp only [hstrides, hoffset, hmask, hshift, add_zero, List.zip_map', List.zipWith_map,
      List.zipWith_self, SymInt.const.injEq, Option.map_map, Function.comp_def, constRanges,
      List.map_map, View.expandRange_const, AxisMove.carryStride, apply_ite SymInt.const]
    rfl

end Expand

/-! ### Striding -/

section Stride

variable [Width] {bound n extent : Int} {v : View} {a : Affine}

omit [Width] in
theorem View.ceilDiv_const (x m : Int) :
    View.ceilDiv (.const x) m.natAbs = .ok (.const (AxisMove.ceil x m.natAbs)) := by
  unfold View.ceilDiv AxisMove.ceil
  split
  · rename_i hone
    rw [hone]
    simp
  · rfl

variable (hexact : Width.ExactTo bound)

include hexact

theorem View.strideRange_const {x : AxisState} (step : Int) (hdim : x.dim ≤ bound) :
    View.strideRange (.const x.range.1, .const x.range.2) (.const x.dim) step
      = .ok (.const ((AxisMove.stride step).carryRange x).1,
        .const ((AxisMove.stride step).carryRange x).2) := by
  obtain ⟨⟨hstart, hstart'⟩, hstop, hstop'⟩ := x.range_mem
  have hfrom : SymInt.const x.dim - SymInt.const x.range.2 = .const (x.dim - x.range.2) :=
    SymInt.sub_const hexact (by omega) (by omega)
  have hto : SymInt.const x.dim - SymInt.const x.range.1 = .const (x.dim - x.range.1) :=
    SymInt.sub_const hexact (by omega) (by omega)
  simp only [View.strideRange, AxisMove.carryRange]
  split
  · rw [View.ceilDiv_const, View.ceilDiv_const]
    rfl
  · rw [hfrom, hto, View.ceilDiv_const, View.ceilDiv_const]
    rfl

theorem View.exists_stride_offset (hone : 1 ≤ bound) (start : Int) {axes : List (AxisState × Int)}
    (hdims : ∀ l ∈ axes, l.1.dim ≤ bound) :
    ∃ offset, axes.foldl (fun acc l => if l.2 < 0 then
        acc + (SymInt.const l.1.dim - 1) * SymInt.const l.1.stride else acc) (.const start)
          = .const offset ∧
      Width.Stores offset
        (start + (axes.map fun l => (AxisMove.stride l.2).carryOffset l.1).sum) := by
  refine exists_foldl_stores (fun l hl y total hy => ?_) (.refl start)
  have hdim := l.1.dim_nonneg
  have hdim' := hdims l hl
  simp only [AxisMove.carryOffset]
  by_cases hneg : l.2 < 0
  · have hlast : SymInt.const l.1.dim - SymInt.const 1 = .const (l.1.dim - 1) :=
      SymInt.sub_const hexact (by omega) (by omega)
    refine ⟨Width.wrap (y + Width.wrap ((l.1.dim - 1) * l.1.stride)), ?_, .inr ?_⟩
    · rw [if_pos hneg]
      change SymInt.const y + (SymInt.const l.1.dim - SymInt.const 1) * _ = _
      rw [hlast]
      rfl
    · rw [if_pos hneg, Width.wrap_add_wrap, hy.wrap_add]
  · exact ⟨y, by rw [if_neg hneg], by rwa [if_neg hneg, add_zero]⟩

theorem View.Located.stride (h : v.Located a n extent) (hroom : HasRoom bound n extent)
    {steps : List Int} (hlegal : Move.LegalAlong (steps.map .stride) a.shape)
    (hsum : ((steps.map .stride).zipWith AxisMove.size a.shape).sum ≤ extent) :
    ∃ v', v.stride steps = .ok v' ∧
      v'.ReadsFrom a ((steps.map .stride).zipWith AxisMove.size a.shape)
        (Move.sourceAlong (steps.map .stride) a.shape) := by
  obtain ⟨axes, haxes, rfl, hlegal, hsizes⟩ := h.isAffine.exists_axes hlegal
  obtain ⟨hshape, hstrides, hoffset, hmask⟩ := h.isAffine.parts_eq haxes
  rw [hsizes] at hsum ⊢
  simp only [List.map_map, Function.comp_def]
  have hrank : ¬ (axes.map (·.2)).length ≠ v.rank := by simp [View.rank, hshape]
  have hnonzero : (axes.map (·.2)).findIdx? (· == 0) = none := by
    rw [List.findIdx?_eq_none_iff]
    intro m hm
    obtain ⟨l, hl, rfl⟩ := List.mem_map.mp hm
    have : l.2 ≠ 0 := hlegal l hl
    simpa using this
  have hdims : ∀ l ∈ axes, l.1.dim ≤ bound := by
    intro l hl
    have := h.dim_le l.1.dim (haxes.shape_eq ▸ List.mem_map_of_mem hl)
    linarith [hroom.extent_le, hroom.extent_nonneg]
  have hnew : (axes.map fun l => (AxisMove.stride l.2).size l.1.dim).map SymInt.const
      = axes.map fun l => .const (AxisMove.ceil l.1.dim l.2.natAbs) := by
    rw [List.map_map]
    rfl
  have hranges : View.strideMask (axes.map fun l => .const l.1.dim) (axes.map (·.2)) v.mask
      = .ok ((a.mask.map fun _ => axes.map fun l => (AxisMove.stride l.2).carryRange l.1).map
          constRanges) := by
    rw [hmask]
    cases a.mask with
    | none => rfl
    | some m =>
      simp only [Option.map_some, View.strideMask, List.zip_map']
      rw [mapM_map_eq_ok fun l hl => View.strideRange_const hexact l.2 (hdims l hl)]
      simp [constRanges, Function.comp_def]
  have hstrides' : axes.map (fun l => SymInt.const l.1.stride * SymInt.const l.2)
      = (axes.map fun l => Width.wrap (l.1.stride * l.2)).map .const := by
    rw [List.map_map]
    rfl
  obtain ⟨offset, hoffset', hcarried⟩ := View.exists_stride_offset hexact
    (by linarith [hroom.extent_le, hroom.extent_nonneg]) a.offset hdims
  refine ⟨_, ?_, h.readsFrom_create haxes hexact hlegal
    (axes.map fun l => Width.wrap (l.1.stride * l.2)) offset (by simp)
    (haxes.carried_mask hlegal (by simp)) hroom hsum fun hnonempty => ⟨?_, hcarried⟩⟩
  · rw [View.stride, if_neg hrank, hnonzero]
    simp only [hshape, hstrides, hoffset, List.zip_map', List.zipWith_map, List.zipWith_self,
      hranges, List.foldl_map, hstrides', hoffset']
    rw [mapM_map_eq_ok fun l _ => View.ceilDiv_const l.1.dim l.2, hnew]
    rfl
  · -- A step that leaves two elements is shorter than the dimension.
    simp only [dropUnits, List.zipWith_map, List.zipWith_self]
    refine List.map_congr_left fun l hl => ite_congr rfl (fun _ => rfl) fun hunit => ?_
    have hrange := hnonempty l.1.range (haxes.ranges_eq ▸ List.mem_map_of_mem hl)
    have hsize := AxisMove.size_nonneg (hlegal l hl)
    have hstep : l.2 ≠ 0 := hlegal l hl
    have hstart := l.1.start_nonneg
    have hstop := l.1.stop_le
    have hfirst := (AxisMove.lt_ceil_iff (by omega : (0 : Int) < l.2.natAbs)).mpr
      (by omega : (l.2.natAbs : Int) * 0 < l.1.dim)
    have hshort := (AxisMove.lt_ceil_iff (by omega : (0 : Int) < l.2.natAbs)).mp
      (by simp only [AxisMove.size] at hunit hsize; unfold AxisMove.ceil at *; omega :
        1 < AxisMove.ceil l.1.dim l.2.natAbs)
    have hstride := h.abs_stride_le hnonempty l.1.stride (haxes.strides_eq ▸ List.mem_map_of_mem hl)
    have hdim := h.dim_le l.1.dim (haxes.shape_eq ▸ List.mem_map_of_mem hl)
    have hproduct : |l.1.stride * l.2| ≤ bound := by
      rw [abs_mul]
      refine (mul_le_mul hstride (abs_le.mpr (by omega) : |l.2| ≤ extent) (abs_nonneg _)
        (by linarith [hroom.n_nonneg])).trans ?_
      nlinarith [hroom.offset_le le_rfl, hroom.n_nonneg]
    rw [abs_le] at hproduct
    exact (hexact _ hproduct.1 hproduct.2).1

end Stride

/-! ### Windows -/

section Resize

variable [Width] {bound n extent : Int} {v : View} {a : Affine} {α : Type} {mask : Option Mask}
  (hexact : Width.ExactTo bound)

include hexact

theorem View.clampTo_const {x top : Int} (hbound : 0 ≤ bound) (hx : |x| ≤ bound)
    (htop : |top| ≤ bound) (hdiff : |x - top| ≤ bound) :
    View.clampTo (.const x) (.const top) = .ok (.const (AxisMove.clamp x top)) := by
  rw [abs_le] at hx htop hdiff
  have hmin := SymInt.min?_const hexact htop hdiff
  have hmax := SymInt.max?_const (a := min x top) (b := 0) hexact (by omega) (by omega)
  rw [View.clampTo, hmin]
  change View.decided _ ((SymInt.const (min x top)).max? (.const 0)) = _
  rw [hmax]
  rfl

theorem View.windowRange_const (hroom : 4 * extent ≤ bound) (x : AxisState) {w : Int × Int}
    (hdim : x.dim ≤ extent) (hstart : -extent ≤ w.1) (hle : w.1 ≤ w.2) (hstop : w.2 ≤ extent) :
    View.windowRange (.const x.range.1, .const x.range.2) (.const w.1, .const w.2)
      = .ok (.const (AxisMove.clamp (x.range.1 - w.1) (w.2 - w.1)),
        .const (AxisMove.clamp (x.range.2 - w.1) (w.2 - w.1))) := by
  obtain ⟨⟨h₁, h₂⟩, h₃, h₄⟩ := x.range_mem
  have hsub : ∀ y, 0 ≤ y → y ≤ extent →
      SymInt.const y - SymInt.const w.1 = .const (y - w.1) := fun y hy hy' =>
    SymInt.sub_const hexact (by omega) (by omega)
  have hspan : SymInt.const w.2 - SymInt.const w.1 = .const (w.2 - w.1) :=
    SymInt.sub_const hexact (by omega) (by omega)
  have hclamp : ∀ y, 0 ≤ y → y ≤ extent →
      View.clampTo (.const (y - w.1)) (.const (w.2 - w.1))
        = .ok (.const (AxisMove.clamp (y - w.1) (w.2 - w.1))) := fun y hy hy' =>
    View.clampTo_const hexact (by omega) (abs_le.mpr ⟨by omega, by omega⟩)
      (abs_le.mpr ⟨by omega, by omega⟩) (abs_le.mpr ⟨by omega, by omega⟩)
  simp only [View.windowRange, hspan, hsub x.range.1 h₁ (by omega), hsub x.range.2 h₃ (by omega),
    hclamp x.range.1 h₁ (by omega), hclamp x.range.2 h₃ (by omega)]
  rfl

theorem View.intersectRange_const {r s : Int × Int}
    (hs : ∀ x ∈ [s.1, s.2, r.1 - s.1, r.2 - s.2], |x| ≤ bound) :
    View.intersectRange (.const r.1, .const r.2) (.const s.1, .const s.2)
      = .ok (.const (max r.1 s.1), .const (min r.2 s.2)) := by
  simp only [List.forall_mem_cons, abs_le] at hs
  obtain ⟨hs₁, hs₂, hd₁, hd₂, -⟩ := hs
  simp only [View.intersectRange, SymInt.max?_const hexact hs₁ hd₁,
    SymInt.min?_const hexact hs₂ hd₂]
  rfl

omit hexact in
theorem View.IsAffine.resize_eq (h : v.IsAffine a) {axes : List (AxisState × α)}
    (haxes : a.HasAxes axes) (w : AxisState × α → Int × Int)
    (hspan : ∀ l ∈ axes, SymInt.const (w l).2 - SymInt.const (w l).1 = .const ((w l).2 - (w l).1))
    {kept extra : Option Mask}
    (hkept : View.windowMask (axes.map fun l => (.const (w l).1, .const (w l).2)) v.mask = .ok kept)
    (hmask : View.intersectMasks kept extra = .ok mask) :
    ∃ offset, v.resize (axes.map fun l => (.const (w l).1, .const (w l).2)) extra
        = .ok (.create ((axes.map fun l => (w l).2 - (w l).1).map .const)
            (some (a.strides.map .const)) (.const offset) mask) ∧
      Width.Stores offset (a.offset + (axes.map fun l => l.1.stride * (w l).1).sum) := by
  obtain ⟨-, hstrides, hoffset, -⟩ := h.parts_eq haxes
  obtain ⟨shift, hshift, hsum⟩ : ∃ y,
      axes.foldl (fun acc l => acc + SymInt.const l.1.stride * SymInt.const (w l).1) 0
          = .const y ∧
        Width.Stores y (0 + (axes.map fun l => l.1.stride * (w l).1).sum) :=
    exists_foldl_stores (fun l _ y total hy =>
      ⟨_, rfl, .inr (by rw [Width.wrap_add_wrap, hy.wrap_add])⟩) (.refl 0)
  refine ⟨Width.wrap (a.offset + shift), ?_, .inr ?_⟩
  · have hsizes : axes.map (fun l => SymInt.const (w l).2 - SymInt.const (w l).1)
        = (axes.map fun l => (w l).2 - (w l).1).map .const := by
      rw [List.map_map]
      exact List.map_congr_left hspan
    have hkept' : axes.map (fun l => SymInt.const l.1.stride) = a.strides.map .const := by
      rw [← haxes.strides_eq, List.map_map]
      rfl
    simp only [View.resize, hstrides, List.zip_map', List.foldl_map, hoffset, hkept, List.map_map,
      Function.comp_def, hsizes, hshift]
    change View.intersectMasks kept extra >>= _ = _
    rw [hmask, hkept']
    rfl
  · rw [add_comm, hsum.wrap_add, zero_add, add_comm]

theorem View.checkShrink_eq_ok_iff (hroom : 1 + 4 * extent ≤ bound) {ranges : List (Int × Int)}
    {shape : List Int} (hdims : ∀ d ∈ shape, 0 ≤ d ∧ d ≤ extent)
    (hranges : ∀ r ∈ ranges, |r.1| ≤ extent ∧ |r.2| ≤ extent)
    (hlength : ranges.length = shape.length) (dim : Nat) :
    View.checkShrink dim (ranges.map fun r => (.const r.1, .const r.2)) (shape.map .const) = .ok () ↔
      Move.LegalAlong (ranges.map fun r => .shrink r.1 r.2) shape := by
  induction ranges generalizing shape dim with
  | nil =>
    rw [List.eq_nil_of_length_eq_zero hlength.symm]
    exact iff_of_true rfl trivial
  | cons r ranges ih =>
    cases shape with
    | nil => cases hlength
    | cons d shape =>
      rw [List.forall_mem_cons] at hdims hranges
      obtain ⟨hstart, hstop⟩ := hranges.1
      rw [abs_le] at hstart hstop
      have hd := hdims.1
      have hsucc : ∀ x, -extent ≤ x → x ≤ extent → SymInt.const x + 1 = .const (x + 1) :=
        fun x hx hx' => SymInt.add_const (b := 1) hexact (by omega)
      simp only [List.map_cons, View.checkShrink, Move.LegalAlong, AxisMove.Legal]
      rw [SymInt.lower_const hexact (by omega), hsucc r.2 hstop.1 hstop.2,
        hsucc d (by omega) hd.2, SymInt.lt?_const hexact (by omega) (by omega),
        SymInt.lt?_const hexact (by omega) (by omega),
        ← ih hdims.2 hranges.2 (Nat.succ.inj hlength) (dim + 1)]
      simp only [Option.some.injEq, decide_eq_true_eq, Int.lt_add_one_iff]
      split <;> simp_all

theorem View.Located.shrink (h : v.Located a n extent) (hroom : HasRoom bound n extent)
    {ranges : List (Int × Int)}
    (hlegal : Move.LegalAlong (ranges.map fun r => .shrink r.1 r.2) a.shape)
    (hsum : ((ranges.map fun r => AxisMove.shrink r.1 r.2).zipWith AxisMove.size a.shape).sum ≤
      extent) :
    ∃ v', v.shrink (ranges.map fun r => (.const r.1, .const r.2)) = .ok v' ∧
      v'.ReadsFrom a
        ((ranges.map fun r => AxisMove.shrink r.1 r.2).zipWith AxisMove.size a.shape)
        (Move.sourceAlong (ranges.map fun r => .shrink r.1 r.2) a.shape) := by
  have hwell := h.isAffine.wellFormed
  have hlength : ranges.length = a.shape.length := by simpa using hlegal.length_eq
  have hcheck := fun hranges => (View.checkShrink_eq_ok_iff hexact hroom.extent_le
    (fun d hd => ⟨hwell.dims_nonneg d hd, h.dim_le d hd⟩) hranges hlength 0).mpr hlegal
  obtain ⟨axes, haxes, rfl, hlegal, hsizes⟩ := h.isAffine.exists_axes hlegal
  obtain ⟨hshape, hstrides, hoffset, hmask⟩ := h.isAffine.parts_eq haxes
  rw [hsizes] at hsum ⊢
  simp only [List.map_map, Function.comp_def]
  have hextent := hroom.extent_le
  have hnonneg := hroom.extent_nonneg
  have hdims : ∀ l ∈ axes, l.1.dim ≤ extent := fun l hl =>
    h.dim_le l.1.dim (haxes.shape_eq ▸ List.mem_map_of_mem hl)
  have hrank : ¬ (axes.map fun l => (SymInt.const l.2.1, SymInt.const l.2.2)).length ≠ v.rank := by
    simp [View.rank, hshape]
  have hcheck := hcheck (List.forall_mem_map.mpr fun l hl => by
    obtain ⟨hstart, hle, hstop⟩ := hlegal l hl
    have := hdims l hl
    simp only [abs_le]
    omega)
  simp only [← h.isAffine.shape_eq, List.map_map, Function.comp_def] at hcheck
  by_cases hcovers :
      View.coversShape (axes.map fun l => (.const l.2.1, .const l.2.2)) v.shape = true
  · refine ⟨v, ?_, h.readsFrom_self (f := fun r => .shrink r.1 r.2) haxes ?_⟩
    · rw [View.shrink, if_neg hrank, hcheck]
      simp only [hcovers, if_true]
      rfl
    · intro l hl
      simp only [View.coversShape, hshape, List.zip_map', List.all_map, List.all_eq_true,
        Function.comp_apply, Bool.and_eq_true, beq_iff_eq, SymInt.const_eq_zero_iff,
        SymInt.const.injEq] at hcovers
      obtain ⟨hstart, hstop⟩ := hcovers l hl
      refine ⟨by simp only [AxisMove.size]; omega, fun c _ _ => ?_⟩
      simp only [AxisMove.source, hstart, add_zero]
  · have hkept : View.windowMask (axes.map fun l => (.const l.2.1, .const l.2.2)) v.mask
        = .ok ((a.mask.map fun _ => axes.map fun l => (AxisMove.shrink l.2.1 l.2.2).carryRange
            l.1).map constRanges) := by
      rw [hmask]
      cases a.mask with
      | none => rfl
      | some m =>
        simp only [Option.map_some, View.windowMask, List.zip_map']
        rw [mapM_map_eq_ok fun l hl => View.windowRange_const hexact (by omega) l.1 (hdims l hl)
          (by have := (hlegal l hl).1; omega) (hlegal l hl).2.1
          ((hlegal l hl).2.2.trans (hdims l hl))]
        simp [constRanges, Function.comp_def, AxisMove.carryRange]
    obtain ⟨offset, hresize, hcarried⟩ := h.isAffine.resize_eq haxes (fun l => l.2)
      (fun l hl => by
        obtain ⟨hstart, hle, hstop⟩ := hlegal l hl
        have := hdims l hl
        exact SymInt.sub_const hexact (by omega) (by omega))
      hkept (show View.intersectMasks _ none = .ok _ from rfl)
    refine ⟨_, ?_, h.readsFrom_create (f := fun r => .shrink r.1 r.2) haxes hexact hlegal
      a.strides offset haxes.length_strides (haxes.carried_mask (f := fun r => .shrink r.1 r.2) hlegal (by simp)) hroom
      hsum fun _ => ?_⟩
    · rw [View.shrink, if_neg hrank, hcheck]
      simp only [hcovers]
      exact hresize
    · simp only [AxisMove.carryStride, AxisMove.carryOffset]
      exact ⟨congrArg _ haxes.strides_eq.symm, hcarried⟩

section PadRange

variable {x : AxisState} {before after : Nat} (hroom : 1 + 4 * extent ≤ bound)
  (hsize : before + x.dim + after ≤ extent)

include hroom hsize

theorem View.windowRange_pad :
    View.windowRange (.const x.range.1, .const x.range.2)
        (.const (-before), .const (x.dim + after))
      = .ok (.const (x.range.1 + before), .const (x.range.2 + before)) := by
  obtain ⟨⟨h₁, h₂⟩, h₃, h₄⟩ := x.range_mem
  have hwindow := View.windowRange_const (w := (-before, x.dim + after)) hexact
    (by omega : 4 * extent ≤ bound) x (by omega) (by simp only; omega) (by simp only; omega)
    (by simp only; omega)
  have hclamp : ∀ y, 0 ≤ y → y ≤ x.dim →
      AxisMove.clamp (y - -before) (x.dim + after - -before) = y + before := by
    intro y hy hy'
    unfold AxisMove.clamp
    omega
  simpa only [hclamp x.range.1 h₁ h₂, hclamp x.range.2 h₃ h₄] using hwindow

theorem View.intersectRange_pad :
    View.intersectRange (.const (x.range.1 + before), .const (x.range.2 + before))
        (.const before, .const (x.dim + before))
      = .ok (.const (x.range.1 + before), .const (x.range.2 + before)) := by
  obtain ⟨⟨h₁, h₂⟩, h₃, h₄⟩ := x.range_mem
  have hinter := View.intersectRange_const hexact (r := (x.range.1 + before, x.range.2 + before))
    (s := (before, x.dim + before)) (by
      simp only [List.forall_mem_cons, abs_le, List.not_mem_nil, false_imp_iff, implies_true,
        and_true]
      omega)
  have hstart : max (x.range.1 + before) before = x.range.1 + before := by omega
  have hstop : min (x.range.2 + before) (x.dim + before) = x.range.2 + before := by omega
  simpa only [hstart, hstop] using hinter

end PadRange

theorem View.exists_padded_mask (hroom : 1 + 4 * extent ≤ bound)
    {axes : List (AxisState × (Nat × Nat))} (hsizes : ∀ l ∈ axes, l.2.1 + l.1.dim + l.2.2 ≤ extent)
    {old : Option (List (Int × Int))}
    (hmask : mask = old.map fun _ => axes.map fun l => (.const l.1.range.1, .const l.1.range.2))
    (hfull : old = none → ∀ l ∈ axes, l.1.range = (0, l.1.dim)) :
    ∃ kept, View.windowMask (axes.map fun l => (.const (-l.2.1), .const (l.1.dim + l.2.2))) mask
        = .ok kept ∧
      View.intersectMasks kept
          (some (axes.map fun l => (.const l.2.1, .const (l.1.dim + l.2.1))))
        = .ok (some (constRanges
            (axes.map fun l => (AxisMove.pad l.2.1 l.2.2).carryRange l.1))) := by
  subst hmask
  cases old with
  | none =>
    refine ⟨none, rfl, ?_⟩
    simp only [View.intersectMasks, constRanges, List.map_map]
    congr 2
    refine List.map_congr_left fun l hl => ?_
    simp [AxisMove.carryRange, hfull rfl l hl]
  | some m =>
    refine ⟨some (axes.map fun l =>
      (.const (l.1.range.1 + l.2.1), .const (l.1.range.2 + l.2.1))), ?_, ?_⟩
    · simp only [Option.map_some, View.windowMask, List.zip_map']
      refine (congrArg (some <$> ·) (mapM_map_eq_ok fun l hl => ?_)).trans rfl
      exact View.windowRange_pad hexact hroom (hsizes l hl)
    · simp only [View.intersectMasks, List.zip_map']
      rw [constRanges, List.map_map]
      refine (congrArg (some <$> ·) (mapM_map_eq_ok fun l hl => ?_)).trans rfl
      exact View.intersectRange_pad hexact hroom (hsizes l hl)

theorem View.Located.pad (h : v.Located a n extent) (hroom : HasRoom bound n extent)
    {padding : List (Nat × Nat)}
    (hlegal : Move.LegalAlong (padding.map fun p => .pad p.1 p.2) a.shape)
    (hsum : ((padding.map fun p => AxisMove.pad p.1 p.2).zipWith AxisMove.size a.shape).sum ≤
      extent) :
    ∃ v', v.pad padding = .ok v' ∧
      v'.ReadsFrom a ((padding.map fun p => AxisMove.pad p.1 p.2).zipWith AxisMove.size a.shape)
        (Move.sourceAlong (padding.map fun p => .pad p.1 p.2) a.shape) := by
  obtain ⟨axes, haxes, rfl, hlegal, hnew⟩ := h.isAffine.exists_axes hlegal
  obtain ⟨hshape, hstrides, hoffset, hmask⟩ := h.isAffine.parts_eq haxes
  rw [hnew] at hsum ⊢
  simp only [List.map_map, Function.comp_def]
  have hextent := hroom.extent_le
  have hnonneg := hroom.extent_nonneg
  have hsizes : ∀ l ∈ axes, l.2.1 + l.1.dim + l.2.2 ≤ extent := by
    intro l hl
    refine le_trans ?_ hsum
    exact List.single_le_sum (sizes_nonneg (f := fun p => .pad p.1 p.2) hlegal) _
      (List.mem_map.mpr ⟨l, hl, rfl⟩)
  have hrank : ¬ (axes.map (·.2)).length ≠ v.rank := by simp [View.rank, hshape]
  by_cases hzero : (axes.map (·.2)).all (fun p => p.1 == 0 && p.2 == 0) = true
  · refine ⟨v, by rw [View.pad, if_neg hrank, if_pos hzero], ?_⟩
    refine h.readsFrom_self (f := fun p => .pad p.1 p.2) haxes ?_
    intro l hl
    simp only [List.all_map, List.all_eq_true, Function.comp_apply, Bool.and_eq_true,
      beq_iff_eq] at hzero
    obtain ⟨hbefore, hafter⟩ := hzero l hl
    refine ⟨by simp [AxisMove.size, hbefore, hafter], fun c hc hcd => ?_⟩
    simp [AxisMove.source, hbefore, hc, hcd]
  · -- The window of an axis reaches over the padding on both sides.
    have hwindow : (axes.map fun l =>
          (SymInt.const (-Width.wrap l.2.1), SymInt.const l.1.dim + .ofInt l.2.2))
        = axes.map fun l => (SymInt.const (-l.2.1), SymInt.const (l.1.dim + l.2.2)) := by
      refine List.map_congr_left fun l hl => ?_
      have hsize := hsizes l hl
      have hdim := l.1.dim_nonneg
      simp only [SymInt.ofInt, (hexact (l.2.1 : Int) (by omega) (by omega)).1,
        (hexact (l.2.2 : Int) (by omega) (by omega)).1]
      rw [SymInt.add_const hexact (by omega)]
    have hextra : (axes.map fun l =>
          (SymInt.ofInt l.2.1, SymInt.const l.1.dim + .ofInt l.2.1))
        = axes.map fun l => (SymInt.const l.2.1, SymInt.const (l.1.dim + l.2.1)) := by
      refine List.map_congr_left fun l hl => ?_
      have hsize := hsizes l hl
      have hdim := l.1.dim_nonneg
      simp only [SymInt.ofInt, (hexact (l.2.1 : Int) (by omega) (by omega)).1]
      rw [SymInt.add_const hexact (by omega)]
    obtain ⟨kept, hkept, hranges⟩ := View.exists_padded_mask hexact hextent hsizes hmask
      haxes.range_of_unmasked
    obtain ⟨offset, hresize, hcarried⟩ := h.isAffine.resize_eq haxes
      (fun l => (-l.2.1, l.1.dim + l.2.2))
      (fun l hl => by
        have := hsizes l hl
        have := l.1.dim_nonneg
        exact SymInt.sub_const hexact (by omega) (by omega))
      hkept hranges
    refine ⟨_, ?_, h.readsFrom_create (f := fun p => .pad p.1 p.2) haxes hexact hlegal
      a.strides offset haxes.length_strides (show (some _).getD _ = _ from rfl) hroom hsum
      fun _ => ?_⟩
    · rw [View.pad, if_neg hrank, if_neg hzero]
      have hnew : axes.map (fun l => l.1.dim + (l.2.2 : Int) - -(l.2.1 : Int))
          = axes.map fun l => (AxisMove.pad l.2.1 l.2.2).size l.1.dim := by
        refine List.map_congr_left fun l _ => ?_
        simp only [AxisMove.size]
        omega
      simp only [hshape, List.zip_map', List.map_map, Function.comp_def, hwindow, hextra, hresize,
        hnew]
      rfl
    · simp only [AxisMove.carryStride, AxisMove.carryOffset]
      exact ⟨congrArg _ haxes.strides_eq.symm, hcarried⟩

end Resize

/-! ### Permuting -/

section Permute

variable {α : Type} {axes : List Nat} {coords : List Int} {r : α → Int × Int} {as : List α}
  {ranges : List (Int × Int)}

theorem perm_range_of_nodup (hlt : ∀ i ∈ axes, i < axes.length) (hnodup : axes.Nodup) :
    axes.Perm (List.range axes.length) :=
  (List.subperm_of_subset hnodup fun i hi => List.mem_range.mpr (hlt i hi)).perm_of_length_le
    (by simp)

theorem map_getD_range (xs : List α) (d : α) : (List.range xs.length).map (xs.getD · d) = xs := by
  refine List.ext_getElem (by simp) fun i hi _ => ?_
  have hi : i < xs.length := by simpa using hi
  simp [hi]

theorem map_getD_idxOf (hnodup : axes.Nodup) (hlength : coords.length = axes.length) :
    axes.map (fun i => coords.getD (axes.idxOf i) 0) = coords := by
  refine List.ext_getElem (by simp [hlength]) fun i hi hi' => ?_
  have hi : i < axes.length := by simpa using hi
  simp [List.getElem_map, hnodup.idxOf_getElem i hi, hi']

theorem inRanges_map_iff {f : α → Int} :
    InRanges (as.map r) (as.map f) ↔ ∀ x ∈ as, (r x).1 ≤ f x ∧ f x < (r x).2 := by
  induction as with
  | nil => simp [InRanges]
  | cons x as ih => simp [InRanges, ih]

theorem RangesInside.getD {shape : List Int} (h : RangesInside ranges shape) (i : Nat) :
    0 ≤ (ranges.getD i (0, 0)).1 ∧ (ranges.getD i (0, 0)).1 ≤ shape.getD i 0 ∧
      0 ≤ (ranges.getD i (0, 0)).2 ∧ (ranges.getD i (0, 0)).2 ≤ shape.getD i 0 := by
  induction ranges generalizing shape i with
  | nil => cases shape <;> simp_all [RangesInside]
  | cons r ranges ih =>
    cases shape with
    | nil => exact h.elim
    | cons d shape =>
      cases i with
      | zero => simpa using h.1
      | succ i => simpa using ih h.2 i

theorem dot_map_map (s f : α → Int) (as : List α) :
    dot (as.map s) (as.map f) = (as.map fun x => s x * f x).sum := by
  rw [dot_eq_sum, List.zipWith_map, List.zipWith_self]

theorem permuted_reads (hlt : ∀ i ∈ axes, i < axes.length) (hnodup : axes.Nodup)
    {strides : List Int} (hcoords : coords.length = axes.length)
    (hstrides : strides.length = axes.length) (hranges : ranges.length = axes.length) :
    (InRanges (axes.map (ranges.getD · (0, 0))) coords ↔
      InRanges ranges (Move.sourceOfPermute axes coords)) ∧
    dot (axes.map (strides.getD · 0)) coords = dot strides (Move.sourceOfPermute axes coords) := by
  have hperm := perm_range_of_nodup hlt hnodup
  set f := fun i => coords.getD (axes.idxOf i) 0
  have hsource : Move.sourceOfPermute axes coords = (List.range axes.length).map f := rfl
  have hmoved : axes.map f = coords := map_getD_idxOf hnodup hcoords
  constructor
  · conv_lhs => rw [← hmoved]
    conv_rhs => rw [hsource, ← map_getD_range ranges (0, 0), hranges]
    rw [inRanges_map_iff, inRanges_map_iff]
    simp only [hperm.mem_iff]
  · conv_lhs => rw [← hmoved]
    conv_rhs => rw [hsource, ← map_getD_range strides 0, hstrides]
    rw [dot_map_map, dot_map_map]
    exact (hperm.map _).sum_eq

variable [Width] {bound n extent : Int} {v : View} {a : Affine}

omit [Width] in
theorem View.isPermutation_iff {n : Nat} :
    View.isPermutation axes n = true ↔ axes.length = n ∧ (∀ i ∈ axes, i < n) ∧ axes.Nodup := by
  simp [View.isPermutation, and_assoc]

theorem View.Located.permute (h : v.Located a n extent) (hexact : Width.ExactTo bound)
    (hroom : HasRoom bound n extent) (hlegal : (Move.permute axes).Legal a.shape) :
    ∃ v', v.permute axes = .ok v' ∧
      v'.ReadsFrom a (axes.map fun i => a.shape.getD i 0)
        fun coords => some (Move.sourceOfPermute axes coords) := by
  obtain ⟨hlength, hlt, hnodup⟩ := hlegal
  have hwell := h.isAffine.wellFormed
  have hlt' : ∀ i ∈ axes, i < axes.length := hlength ▸ hlt
  have hranges : a.ranges.length = axes.length := by rw [hwell.inside.length_eq, hlength]
  have hstrides : a.strides.length = axes.length := by rw [hwell.length_strides, hlength]
  have hok : View.isPermutation axes v.rank = true := by
    rw [View.isPermutation_iff, View.rank, h.isAffine.shape_eq, List.length_map]
    exact ⟨hlength, hlt, hnodup⟩
  have hdims : ∀ d ∈ axes.map fun i => a.shape.getD i 0, 0 ≤ d := by
    intro d hd
    obtain ⟨i, hi, rfl⟩ := List.mem_map.mp hd
    have := hwell.inside.getD i
    omega
  have hinside : RangesInside (axes.map fun i => a.ranges.getD i (0, 0))
      (axes.map fun i => a.shape.getD i 0) :=
    rangesInside_map fun i _ => hwell.inside.getD i
  have hmask : ∀ m, a.mask.map (fun m => axes.map fun i => m.getD i (0, 0)) = some m →
      m = axes.map fun i => a.ranges.getD i (0, 0) := by
    intro m hm
    cases hm' : a.mask <;> simp_all [Affine.ranges]
  have hview : v.permute axes = .ok (.create ((axes.map fun i => a.shape.getD i 0).map .const)
      (some ((axes.map fun i => a.strides.getD i 0).map .const)) (.const a.offset)
      ((a.mask.map fun m => axes.map fun i => m.getD i (0, 0)).map constRanges)) := by
    rw [View.permute, if_pos hok, h.isAffine.eq_toView]
    simp only [Affine.toView, List.map_map, Function.comp_def, Option.map_map]
    congr 2
    · exact List.map_congr_left fun i _ => List.getD_map _ _ SymInt.const
    · exact congrArg some (List.map_congr_left fun i _ => List.getD_map _ _ SymInt.const)
    · refine congrArg (Option.map · a.mask) (funext fun m => ?_)
      rw [constRanges, constRanges, List.map_map]
      exact List.map_congr_left fun i _ =>
        List.getD_map m (0, 0) fun r : Int × Int => (SymInt.const r.1, SymInt.const r.2)
  have hsum : (axes.map fun i => a.shape.getD i 0).sum = a.shape.sum := by
    rw [((perm_range_of_nodup hlt' hnodup).map _).sum_eq, hlength, map_getD_range]
  have hall : (a.mask.map fun m => axes.map fun i => m.getD i (0, 0)).getD
      (fullRanges (axes.map fun i => a.shape.getD i 0))
        = axes.map fun i => a.ranges.getD i (0, 0) := by
    cases hm : a.mask with
    | some m => simp [Affine.ranges, hm]
    | none =>
      simp only [Option.map_none, Option.getD_none, Affine.ranges, hm, fullRanges, List.map_map]
      exact List.map_congr_left fun i _ => (List.getD_map _ _ fun d : Int => ((0 : Int), d)).symm
  have hrank : (axes.map fun i => a.strides.getD i 0).length
      = (axes.map fun i => a.shape.getD i 0).length := by simp
  obtain ⟨a', ha', hshape', hindex⟩ := View.exists_isAffine_create hexact (.refl a.offset) hdims
    (fun d hd => by
      have := List.single_le_sum hdims d hd
      rw [hsum] at this
      linarith [h.sum_le, hroom.extent_le, hroom.extent_nonneg])
    hrank (fun m hm => hmask m hm ▸ hinside) (by
      rw [hall]
      refine fun hvalid _ _ hfolds => (hfolds.abs_offset_le hinside (by simp [dropUnits]) hvalid
        fun coords hin => ?_).trans (hroom.offset_le (hsum ▸ h.sum_le))
      obtain ⟨hsource, hdot⟩ :=
        permuted_reads hlt' hnodup (by simpa using hin.length_eq) hstrides hranges
      rw [dot_dropUnits _ (hinside.inShape hin) hrank, hdot]
      exact h.abs_read_le (hsource.mp hin))
  refine ⟨_, hview, a', ha', hshape', fun coords hin => ?_⟩
  obtain ⟨hvalid, hdot⟩ :=
    permuted_reads hlt' hnodup (by simpa using hin.length_eq) hstrides hranges
  rw [hindex coords hin, hall, hdot, Option.bind_some, Affine.index]
  simp only [hvalid]

end Permute

/-! ### Reshaping -/

section Reshape

variable [Width] {bound n extent : Int} {v w u : View} {a b : Affine} {shape new : List Int}
  {r : Option View}

theorem View.Located.mem_of_index (h : v.Located a n extent) {coords : List Int} {p : Int}
    (hp : a.index coords = some p) : 0 ≤ p ∧ p < n :=
  Affine.within_iff.mp h.within coords p hp

theorem View.Located.index_eq (h : v.Located a n extent) (hexact : Width.ExactTo bound)
    (hn : n ≤ bound) {coords : List Int} (hin : InShape a.shape coords) :
    v.index coords = a.index coords := by
  refine h.isAffine.index_eq hexact hin fun p hp => ?_
  obtain ⟨hlow, hhigh⟩ := h.mem_of_index hp
  rw [abs_of_nonneg hlow]
  exact hhigh.le.trans hn

theorem View.IsAffine.located (h : v.IsAffine a) (hsum : a.shape.sum ≤ extent)
    (hreads : ∀ coords, InShape a.shape coords → ∀ p, a.index coords = some p → 0 ≤ p ∧ p < n) :
    v.Located a n extent where
  isAffine := h
  within := fun coords hin =>
    hreads coords (h.wellFormed.inShape hin) _ (Affine.index_of_inRanges hin)
  sum_le := hsum

theorem View.ReadsFrom.located {source : List Int → Option (List Int)}
    (hreads : w.ReadsFrom a shape source) (h : v.Located a n extent) (hsum : shape.sum ≤ extent) :
    ∃ a', w.Located a' n extent ∧ a'.shape = shape ∧
      ∀ coords, InShape shape coords → a'.index coords = (source coords).bind a.index := by
  obtain ⟨a', ha', rfl, hindex⟩ := hreads
  refine ⟨a', ha'.located hsum fun coords hin p hp => ?_, rfl, hindex⟩
  rw [hindex coords hin] at hp
  obtain ⟨xs, -, hxs⟩ := Option.bind_eq_some_iff.mp hp
  exact h.mem_of_index hxs

theorem View.exists_located_ofShape (hexact : Width.ExactTo bound) (hdims : ∀ d ∈ shape, 0 ≤ d)
    (hsum : shape.sum ≤ extent) (hsize : product shape ≤ bound) :
    ∃ a, (View.ofShape (shape.map .const)).Located a (product shape) extent ∧ a.shape = shape ∧
      ∀ coords, InShape shape coords → a.index coords = some (ravel shape coords) := by
  obtain ⟨a, ha, rfl, hindex⟩ := View.exists_isAffine_ofShape hexact hdims hsize
  refine ⟨a, ha.located hsum fun coords hin p hp => ?_, rfl, hindex⟩
  obtain rfl : ravel a.shape coords = p := Option.some.inj ((hindex coords hin).symm.trans hp)
  exact ravel_nonneg_and_lt hin

/-- Merging keeps what is read and from where, unless nothing is left to read and there are no
dimensions to mask it out. -/
theorem View.Located.merge? (h : v.Located a n extent)
    (houter : w.Located b (product a.shape) extent) (hexact : Width.ExactTo bound)
    (hroom : HasRoom bound n extent) (hsize : product a.shape ≤ bound)
    (hmerge : v.merge? w = some u) :
    (∃ c, u.Located c n extent ∧ c.shape = b.shape ∧
      ∀ coords, InShape b.shape coords → c.index coords = a.through b coords) ∨
    b.shape = [] ∧ u = .invalid [] ∧ ∀ coords, a.through b coords = none := by
  refine (h.isAffine.merge? hexact houter.isAffine houter.within
    (fun d hd => by linarith [houter.dim_le d hd, hroom.extent_le, hroom.extent_nonneg])
    hsize (fun coords p hp => abs_le.mpr (by have := h.mem_of_index hp; omega))
    (hroom.offset_le houter.sum_le) hmerge).imp_left ?_
  rintro ⟨c, hc, hshape, hthrough⟩
  refine ⟨c, hc.located (hshape ▸ houter.sum_le) fun coords hin p hp => ?_, hshape, hthrough⟩
  rw [hthrough coords (hshape ▸ hin)] at hp
  obtain ⟨q, -, hq⟩ := Option.bind_eq_some_iff.mp hp
  exact h.mem_of_index hq

theorem View.reshape_cases {shape : Shape} (h : v.reshape shape = .ok r) :
    (v.shape = shape ∧ r = some v) ∨
      ((∀ d ∈ shape, 0 ≤ d.lower) ∧
        (v.size = SymInt.prod shape ∨ v.size.evalBound? = (SymInt.prod shape).evalBound?)) ∧
        (((v.shape.any (· == 0) || v.contiguous) = true ∧ r = some (ofShape shape)) ∨
          (v.shape.any (· == 0) || v.contiguous) = false ∧ r = v.merge? (ofShape shape)) := by
  unfold View.reshape at h
  split at h
  · exact .inl ⟨‹_›, (Except.ok.inj h).symm⟩
  split at h
  · cases h
  next hnegative =>
    rcases ite_eq_iff.mp h with ⟨-, h⟩ | ⟨hagree, h⟩
    · split at h <;> cases h
    rw [Bool.not_eq_true, Bool.not_eq_false', Bool.or_eq_true, beq_iff_eq] at hagree
    refine .inr ⟨⟨fun d hd => ?_, hagree.imp_right fun hagree => ?_⟩, ?_⟩
    · by_contra hlt
      exact hnegative (List.any_eq_true.mpr ⟨d, hd, decide_eq_true (not_le.mp hlt)⟩)
    · split at hagree
      · rename_i x y hx hy
        rw [hx, hy, beq_iff_eq.mp hagree]
      · cases hagree
    · split at h
      · exact .inl ⟨‹_›, (Except.ok.inj h).symm⟩
      · exact .inr ⟨Bool.eq_false_iff.mpr ‹_›, (Except.ok.inj h).symm⟩

variable (hexact : Width.ExactTo bound) (hsize : product a.shape ≤ bound)

include hexact hsize

/-- A reshape that succeeds keeps the number of elements. It reads each of them at its position,
unless nothing is left to read and there are no dimensions, or it needs a row-major view on top of one
without empty dimensions. -/
theorem View.Located.reshape (h : v.Located a n extent) (hroom : HasRoom bound n extent)
    (hnew : ∀ d ∈ new, |d| ≤ extent) (hsize' : product new ≤ bound) (hsum : new.sum ≤ extent)
    (hok : v.reshape (new.map .const) = .ok r) :
    (∀ d ∈ new, 0 ≤ d) ∧ product new = product a.shape ∧
      ((∃ u, r = some u ∧ u.ReadsFrom a new fun coords => some (unravel a.shape (ravel new coords))) ∨
        (new = [] ∧ r = some (.invalid []) ∧ a.index (unravel a.shape 0) = none) ∨
        r = none ∧ ∀ d ∈ a.shape, 0 < d) := by
  have hwell := h.isAffine.wellFormed
  rcases View.reshape_cases hok with ⟨hsame, rfl⟩ | ⟨⟨hlower, hagree⟩, hcases⟩
  · obtain rfl := map_const_injective (h.isAffine.shape_eq.symm.trans hsame)
    refine ⟨hwell.dims_nonneg, rfl, .inl ⟨v, rfl, a, h.isAffine, rfl, fun coords hin => ?_⟩⟩
    rw [Option.bind_some, unravel_ravel hin]
  have hdims : ∀ d ∈ new, 0 ≤ d := by
    intro d hd
    have hd' := abs_le.mp (hnew d hd)
    have hextent := hroom.extent_le
    have hle := hlower _ (List.mem_map_of_mem hd)
    rwa [SymInt.lower_const hexact (by omega)] at hle
  have hproduct : product new = product a.shape := by
    rw [View.size, h.isAffine.shape_eq, prod_const hexact hwell.dims_nonneg hsize,
      prod_const hexact hdims hsize', SymInt.evalBound?_const, SymInt.evalBound?_const] at hagree
    exact (hagree.elim SymInt.const.inj Option.some.inj).symm
  refine ⟨hdims, hproduct, ?_⟩
  obtain ⟨b, hb, rfl, hindex⟩ := View.exists_located_ofShape hexact hdims hsum hsize'
  rcases hcases with ⟨hempty, rfl⟩ | ⟨hnonempty, rfl⟩
  · refine .inl ⟨_, rfl, b, hb.isAffine, rfl, fun coords hin => ?_⟩
    obtain ⟨hlow, hhigh⟩ := ravel_nonneg_and_lt hin
    rw [hproduct] at hhigh
    have hpos := dims_pos_of_lt_product hwell.dims_nonneg hlow hhigh
    have hcontiguous : v.contiguous = true := by
      refine (Bool.or_eq_true_iff.mp hempty).resolve_left fun hzero => ?_
      exact lt_irrefl 0 (hpos 0 (h.isAffine.any_zero_iff.mp hzero))
    rw [hindex coords hin, Option.bind_some,
      h.isAffine.index_of_contiguous hexact hcontiguous hsize (inShape_unravel hpos _),
      ravel_unravel hwell.dims_nonneg hlow hhigh]
  · have hpos : ∀ d ∈ a.shape, 0 < d := by
      refine fun d hd => lt_of_le_of_ne (hwell.dims_nonneg d hd) fun hzero => ?_
      rw [Bool.or_eq_false_iff, Bool.eq_false_iff, ne_eq, h.isAffine.any_zero_iff] at hnonempty
      exact hnonempty.1 (hzero ▸ hd)
    cases hmerge : v.merge? (View.ofShape (b.shape.map .const)) with
    | none => exact .inr (.inr ⟨rfl, hpos⟩)
    | some u =>
      rcases h.merge? (hproduct ▸ hb) hexact hroom hsize hmerge with
        ⟨c, hc, hshape, hthrough⟩ | ⟨hnil, rfl, hnone⟩
      · refine .inl ⟨u, rfl, c, hc.isAffine, hshape, fun coords hin => ?_⟩
        rw [hthrough coords hin, Affine.through, hindex coords hin]
        rfl
      · refine .inr (.inl ⟨hnil, rfl, ?_⟩)
        have hread := hnone []
        rw [Affine.through, hindex [] (by rw [hnil]; trivial), hnil] at hread
        exact hread

omit hsize in
theorem View.exists_reshape_const {dims : List Int} (hshape : v.shape = dims.map .const)
    (hold : ∀ d ∈ dims, 0 ≤ d) (hsize : product dims ≤ bound) (hdims : ∀ d ∈ new, 0 ≤ d)
    (hle : ∀ d ∈ new, d ≤ bound) (hproduct : product new = product dims) :
    ∃ r, v.reshape (new.map .const) = .ok r := by
  have hbound : 0 ≤ bound := (product_nonneg hold).trans hsize
  have hnegative : ((new.map SymInt.const).any fun d => decide (d.lower < 0)) = false := by
    rw [List.any_eq_false]
    intro x hx
    obtain ⟨d, hd, rfl⟩ := List.mem_map.mp hx
    have hd' := hdims d hd
    rw [SymInt.lower_const hexact ⟨by omega, hle d hd⟩]
    simpa using hd'
  have hagree : (v.size == SymInt.prod (new.map .const)) = true := by
    rw [View.size, hshape, prod_const hexact hold hsize,
      prod_const hexact hdims (hproduct ▸ hsize), hproduct, beq_self_eq_true]
  unfold View.reshape
  simp only [hnegative, hagree, Bool.true_or, Bool.not_true, Bool.false_eq_true, if_false]
  split
  · exact ⟨_, rfl⟩
  · split <;> exact ⟨_, rfl⟩

theorem View.Placed.reshape (h : v.Placed a n extent) (hroom : HasRoom bound n extent)
    (hlegal : (Move.reshape new).Legal a.shape) (hsum : new.sum ≤ extent) :
    (∃ u, v.reshape (new.map .const) = .ok (some u) ∧
      u.ReadsFrom a new fun coords => some (unravel a.shape (ravel new coords))) ∨
    v.reshape (new.map .const) = .ok none ∧ ∀ d ∈ a.shape, 0 < d := by
  obtain ⟨hrank, hdims, hproduct⟩ := hlegal
  have hle : ∀ d ∈ new, d ≤ extent := fun d hd => (List.single_le_sum hdims d hd).trans hsum
  obtain ⟨r, hr⟩ := View.exists_reshape_const hexact h.isAffine.shape_eq
    h.isAffine.wellFormed.dims_nonneg hsize hdims
    (fun d hd => by linarith [hle d hd, hroom.extent_le, hroom.extent_nonneg]) hproduct
  obtain ⟨-, -, ⟨u, rfl, hreads⟩ | ⟨hnil, -⟩ | ⟨rfl, hpos⟩⟩ := h.toLocated.reshape hexact hsize hroom
    (fun d hd => (abs_of_nonneg (hdims d hd)).trans_le (hle d hd)) (hproduct ▸ hsize) hsum hr
  · exact .inl ⟨u, hr, hreads⟩
  · exact absurd hnil (List.ne_nil_of_length_pos hrank)
  · exact .inr ⟨hr, hpos⟩

end Reshape

end LazyTensor

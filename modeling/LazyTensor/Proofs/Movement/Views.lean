import LazyTensor.Proofs.Movement.Axes

/-!
# Movements of views

Every legal movement of a view without variables succeeds, and the moved view reads at each
coordinate what the view reads at the source of it.
-/

namespace LazyTensor

open Merge

/-! ### Lists of axes -/

variable {α : Type} {a : Affine} {as : List α}

theorem Merge.Affine.WellFormed.exists_axes (h : a.WellFormed) :
    ∃ xs : List AxisState, xs.map (·.dim) = a.shape ∧ xs.map (·.stride) = a.strides ∧
      xs.map (·.range) = a.ranges := by
  obtain ⟨hdims, hlength, hinside⟩ := h
  generalize a.shape = shape at *
  generalize a.strides = strides at *
  generalize a.ranges = ranges at *
  induction shape generalizing strides ranges with
  | nil =>
    obtain rfl : strides = [] := by simpa using hlength
    obtain rfl : ranges = [] := by simpa using hinside.length_eq
    exact ⟨[], rfl, rfl, rfl⟩
  | cons d shape ih =>
    cases strides with
    | nil => simp at hlength
    | cons s strides =>
    cases ranges with
    | nil => exact hinside.elim
    | cons r ranges =>
      rw [List.forall_mem_cons] at hdims
      obtain ⟨⟨hstart, hstart', hstop, hstop'⟩, hinside⟩ := hinside
      obtain ⟨xs, rfl, rfl, rfl⟩ := ih hdims.2 strides (by simpa using hlength) ranges hinside
      exact ⟨⟨d, s, r, hdims.1, hstart, hstart', hstop, hstop'⟩ :: xs, rfl, rfl, rfl⟩

/-- The axes of a view, each with an argument of a movement. -/
structure Merge.Affine.HasAxes {α : Type} (a : Affine) (axes : List (AxisState × α)) : Prop where
  shape_eq : axes.map (·.1.dim) = a.shape
  strides_eq : axes.map (·.1.stride) = a.strides
  ranges_eq : axes.map (·.1.range) = a.ranges

theorem Merge.Affine.WellFormed.exists_hasAxes (h : a.WellFormed) {args : List α}
    (hlength : args.length = a.shape.length) : ∃ axes, a.HasAxes axes ∧ axes.map (·.2) = args := by
  obtain ⟨xs, hshape, hstrides, hranges⟩ := h.exists_axes
  have hxs : xs.length = args.length := by rw [hlength, ← hshape, List.length_map]
  have hfst : (xs.zip args).map (·.1) = xs := List.map_fst_zip hxs.le
  refine ⟨xs.zip args, ⟨?_, ?_, ?_⟩, List.map_snd_zip hxs.ge⟩
  · rw [← hshape, ← congrArg (List.map (·.dim)) hfst, List.map_map]
    rfl
  · rw [← hstrides, ← congrArg (List.map (·.stride)) hfst, List.map_map]
    rfl
  · rw [← hranges, ← congrArg (List.map (·.range)) hfst, List.map_map]
    rfl

theorem Move.LegalAlong.length_eq {moves : List AxisMove} {shape : List Int}
    (h : Move.LegalAlong moves shape) : moves.length = shape.length := by
  induction moves generalizing shape with
  | nil => cases shape <;> simp_all [Move.LegalAlong]
  | cons move moves ih =>
    cases shape with
    | nil => exact h.elim
    | cons d shape => simp [ih h.2]

theorem Move.legalAlong_map_iff {f : α → AxisMove} {g : α → Int} :
    Move.LegalAlong (as.map f) (as.map g) ↔ ∀ x ∈ as, (f x).Legal (g x) := by
  induction as with
  | nil => simp [Move.LegalAlong]
  | cons x as ih => simp [Move.LegalAlong, ih]

theorem mapM_map_eq_ok {β γ ε : Type} {f : β → Except ε γ} {h : α → β} {g : α → γ}
    (hok : ∀ x ∈ as, f (h x) = .ok (g x)) : (as.map h).mapM f = .ok (as.map g) := by
  induction as with
  | nil => rfl
  | cons x as ih =>
    rw [List.forall_mem_cons] at hok
    rw [List.map_cons, List.mapM_cons, hok.1, ih hok.2]
    rfl

/-! ### Sums of constants -/

theorem exists_foldl_stores [Width] {step : SymInt → α → SymInt} {g : α → Int}
    (h : ∀ z ∈ as, ∀ y total, Width.Stores y total →
      ∃ y', step (.const y) z = .const y' ∧ Width.Stores y' (total + g z)) {x total : Int}
    (hx : Width.Stores x total) :
    ∃ y, as.foldl step (.const x) = .const y ∧ Width.Stores y (total + (as.map g).sum) := by
  induction as generalizing x total with
  | nil => exact ⟨x, rfl, by simpa using hx⟩
  | cons z as ih =>
    rw [List.forall_mem_cons] at h
    obtain ⟨y, hy, hstored⟩ := h.1 x total hx
    obtain ⟨y', hy', hstored'⟩ := ih h.2 hstored
    refine ⟨y', by rw [List.foldl_cons, hy, hy'], ?_⟩
    rwa [List.map_cons, List.sum_cons, ← add_assoc]

/-! ### Room for the arithmetic -/

/-- The bound leaves room for views with dimensions that add up to at most `extent` and that read
from `n` elements. -/
structure HasRoom (bound n extent : Int) : Prop where
  n_nonneg : 0 ≤ n
  extent_nonneg : 0 ≤ extent
  le_bound : (1 + n) * (1 + 4 * extent) ≤ bound

namespace HasRoom

variable {bound n extent : Int} (h : HasRoom bound n extent)

include h

theorem mono {m : Int} (hm : 0 ≤ m) (hle : m ≤ n) : HasRoom bound m extent where
  n_nonneg := hm
  extent_nonneg := h.extent_nonneg
  le_bound := by nlinarith [h.le_bound, h.extent_nonneg]

theorem extent_le : 1 + 4 * extent ≤ bound := by
  nlinarith [h.le_bound, h.n_nonneg, h.extent_nonneg]

theorem n_le : n ≤ bound := by nlinarith [h.le_bound, h.n_nonneg, h.extent_nonneg]

theorem offset_le {sum : Int} (hsum : sum ≤ extent) : n * (1 + 2 * sum) ≤ bound := by
  nlinarith [h.le_bound, h.n_nonneg, h.extent_nonneg]

end HasRoom

/-- A view without variables that reads from `n` elements and whose dimensions add up to at most
`extent`. -/
structure View.Located [Width] (v : View) (a : Affine) (n extent : Int) : Prop where
  isAffine : v.IsAffine a
  within : a.Within n
  sum_le : a.shape.sum ≤ extent

/-- A located view with at least one dimension, along which nothing can be read if need be. -/
structure View.Placed [Width] (v : View) (a : Affine) (n extent : Int) : Prop
    extends v.Located a n extent where
  rank_pos : a.shape ≠ []

namespace View.Located

variable [Width] {bound n extent : Int} {v : View} {a : Affine}

theorem dim_le (h : v.Located a n extent) : ∀ d ∈ a.shape, d ≤ extent := fun d hd =>
  (List.single_le_sum h.isAffine.wellFormed.dims_nonneg d hd).trans h.sum_le

theorem abs_read_le (h : v.Located a n extent) {coords : List Int} (hin : InRanges a.ranges coords) :
    |a.offset + dot a.strides coords| ≤ n := by
  obtain ⟨hlow, hhigh⟩ := h.within coords hin
  rw [abs_of_nonneg hlow]
  exact hhigh.le

theorem abs_stride_le (h : v.Located a n extent) (hnonempty : ∀ r ∈ a.ranges, r.1 < r.2) :
    ∀ s ∈ a.strides, |s| ≤ 2 * n :=
  abs_stride_le_of_reads
    (by rw [h.isAffine.wellFormed.length_strides, h.isAffine.wellFormed.inside.length_eq]) hnonempty
    h.isAffine.noSingles fun _ => h.abs_read_le

end View.Located

end LazyTensor

import LazyTensor.Proofs.Layout.Shape

/-!
# How far a layout reaches

The size that a layout asks of its buffer looks at the view next to the buffer alone. The views
above it only choose coordinates inside the shape of that view, where no dimension contributes more
than at one end of its range.
-/

namespace LazyTensor

open Merge View

variable {ranges : List (Int × Int)} {strides coords shape : List Int}

/-- The coordinates in the ranges at which the strides contribute most. -/
def lastCoords : List (Int × Int) → List Int → List Int
  | r :: ranges, s :: strides => (if 0 < s then r.2 - 1 else r.1) :: lastCoords ranges strides
  | ranges, _ => ranges.map (·.1)

theorem inRanges_lastCoords (h : ∀ r ∈ ranges, r.1 < r.2) (strides : List Int) :
    InRanges ranges (lastCoords ranges strides) := by
  induction ranges generalizing strides with
  | nil => cases strides <;> trivial
  | cons r ranges ih =>
    cases strides with
    | nil => exact inRanges_starts h
    | cons s strides =>
      rw [List.forall_mem_cons] at h
      refine ⟨?_, ih h.2 strides⟩
      split <;> omega

theorem dot_le_lastCoords (hlength : strides.length ≤ ranges.length) (hin : InRanges ranges coords) :
    dot strides coords ≤ dot strides (lastCoords ranges strides) := by
  induction strides generalizing ranges coords with
  | nil => simp
  | cons s strides ih =>
    cases ranges with
    | nil => simp at hlength
    | cons r ranges =>
      obtain ⟨c, coords, rfl, ⟨hlow, hhigh⟩, hin⟩ := inRanges_cons.mp hin
      rw [lastCoords, dot_cons_cons, dot_cons_cons]
      refine add_le_add ?_ (ih (by simpa using hlength) hin)
      split
      · next hs => exact mul_le_mul_of_nonneg_left (by omega) hs.le
      · next hs => exact mul_le_mul_of_nonpos_left hlow (not_lt.mp hs)

theorem foldl_last_eq (hlength : strides.length ≤ ranges.length) (offset : Int) :
    (ranges.zip strides).foldl
        (fun acc (r, s) => acc + if 0 < s then (r.2 - 1) * s else r.1 * s) offset
      = offset + dot strides (lastCoords ranges strides) := by
  induction strides generalizing ranges offset with
  | nil => simp
  | cons s strides ih =>
    cases ranges with
    | nil => simp at hlength
    | cons r ranges =>
      rw [List.zip_cons_cons, List.foldl_cons, ih (by simpa using hlength), lastCoords, dot_cons_cons]
      dsimp only
      split <;> ring

section Reads

variable [Width]

theorem mapM_evalBound?_const (ranges : List (Int × Int)) :
    (constRanges ranges).mapM (fun r => do return (← r.1.evalBound?, ← r.2.evalBound?))
      = some ranges := by
  induction ranges with
  | nil => rfl
  | cons r ranges ih =>
    rw [constRanges, List.map_cons, List.mapM_cons, ← constRanges, ih]
    rfl

variable {a : Affine} {contiguous : Bool}

theorem Layout.realSize?_of_bottom {l : Layout} (hbottom : l.bottom = a.toView contiguous)
    (hvalid : ¬ l.bottom.isInvalid = true) (hstrides : a.strides.length ≤ a.ranges.length) :
    l.realSize? =
      some (Width.wrap (a.offset + dot a.strides (lastCoords a.ranges a.strides) + 1)) := by
  rw [← foldl_last_eq hstrides]
  unfold Layout.realSize?
  dsimp only
  rw [if_neg hvalid, hbottom]
  cases hmask : a.mask with
  | none => simp [Affine.toView, Affine.ranges, hmask, boundShape?_const]
  | some m =>
    simp only [Affine.toView, Affine.ranges, hmask, boundShape?_const, Option.map_some,
      mapM_evalBound?_const, SymInt.evalBound?_const]
    rfl

theorem View.Parts.exists_eq_create (p : Parts) :
    ∃ strides : List Int, p.view = .create (p.shape.map .const) (some (strides.map .const))
      (.const p.offset) (p.mask.map constRanges) := by
  cases hstrides : p.strides with
  | some s => exact ⟨s, by rw [view, hstrides]; rfl⟩
  | none =>
    obtain ⟨strides, size, -, hrow⟩ := rowMajorSize_isConst p.shape
    exact ⟨strides, by rw [view, hstrides, Option.map_none, create_none_eq, rowMajor, hrow]⟩

variable {top : Parts} {below : List Parts} {n i : Int}

/-- What a layout reads is read by the view next to the buffer, at coordinates inside its shape. -/
theorem Layout.exists_index_bottom (hzero : Width.wrap 0 = 0)
    (hdims : ∀ p ∈ below, ∀ d ∈ p.shape, 0 ≤ d) (hin : InShape top.shape coords)
    (h : (⟨top.view, below.map Parts.view⟩ : Layout).index coords = some i) :
    ∃ p ∈ top :: below, (⟨top.view, below.map Parts.view⟩ : Layout).bottom = p.view ∧
      ∃ coords', InShape p.shape coords' ∧ p.view.index coords' = some i := by
  induction below generalizing top coords with
  | nil => exact ⟨top, by simp, rfl, coords, hin, by simpa [index, indexBelow] using h⟩
  | cons q below ih =>
    obtain ⟨position, -, h⟩ := Option.bind_eq_some_iff.mp h
    rw [List.map_cons, indexBelow, Parts.view, View.shape_create, boundShape?_const] at h
    simp only [Option.bind_eq_bind, Option.bind_some, Option.ite_none_left_eq_some] at h
    obtain ⟨hposition, h⟩ := h
    rw [List.forall_mem_cons] at hdims
    -- However the number of elements wraps, it is not zero.
    have hsize : product q.shape ≠ 0 := fun hnone => by rw [hnone, hzero] at hposition; omega
    have hpos : ∀ d ∈ q.shape, 0 < d := fun d hd =>
      (hdims.1 d hd).lt_of_ne fun hd' => hsize (product_eq_zero_iff.mpr (hd' ▸ hd))
    obtain ⟨p, hp, hbottom, hread⟩ := ih hdims.2 (inShape_unravel hpos position) h
    refine ⟨p, List.mem_cons_of_mem _ hp, hbottom ▸ ?_, hread⟩
    simp [bottom, List.getLast?_cons]

/-- Every offset that a stack of views reads lies below its size, where the offsets that the view next
to the buffer has in its ranges are exact. -/
theorem Layout.index_lt_realSize {reach : Nat} (hexact : Width.ExactTo (reach + 1))
    (hdims : ∀ p ∈ below, ∀ d ∈ p.shape, 0 ≤ d)
    (hmask : ∀ p ∈ top :: below, ∀ m, p.mask = some m → m.length = p.shape.length)
    (hreach : ∀ a, Affine.ofView? (⟨top.view, below.map Parts.view⟩ : Layout).bottom = some a →
      ∀ coords offset, a.index coords = some offset → |offset| ≤ reach)
    (hin : InShape top.shape coords)
    (hsize : (⟨top.view, below.map Parts.view⟩ : Layout).realSize? = some n)
    (hindex : (⟨top.view, below.map Parts.view⟩ : Layout).index coords = some i) : i < n := by
  obtain ⟨p, hp, hbottom, coords', hin', hindex'⟩ :=
    exists_index_bottom (hexact 0 (by omega) (by omega)).1 hdims hin hindex
  obtain ⟨strides, hview⟩ := p.exists_eq_create
  obtain ⟨a, contiguous, ha, hshape, hstrides, hinvalid, hranges⟩ :=
    View.exists_eq_toView p.shape strides p.offset p.mask hview
  replace hranges := hranges (hmask p hp)
  rw [← hshape] at hin' hstrides hinvalid hranges
  by_cases hempty : p.view.isInvalid = true
  · -- An invalid view has a dimension, and nothing is read in it.
    have hrank : a.shape ≠ [] := by
      intro hnil
      rw [hinvalid hempty, hnil] at hempty
      cases hempty
    have hnone := (View.isAffine_invalid fun d hd => (hin'.dims_pos d hd).le).index_eq_map hin'
    rw [← hinvalid hempty, hindex', Affine.index_invalid hrank] at hnone
    cases hnone
  · rw [ha, Affine.index_toView hranges contiguous hin'] at hindex'
    obtain ⟨q, hq, rfl⟩ := Option.map_eq_some_iff.mp hindex'
    rw [hbottom, ha, Affine.ofView?_toView] at hreach
    have hread : InRanges a.ranges coords' := by
      by_contra hnot
      rw [Affine.index_of_not_inRanges hnot] at hq
      cases hq
    have hlast := hreach a rfl _ _
      (Affine.index_of_inRanges (inRanges_lastCoords hread.nonempty a.strides))
    have hle := dot_le_lastCoords (hstrides.trans_eq hranges.symm) hread
    have hq' := hreach a rfl _ _ hq
    rw [Affine.index_of_inRanges hread] at hq
    rw [realSize?_of_bottom (hbottom.trans ha) (hbottom ▸ hempty) (hstrides.trans_eq hranges.symm)]
      at hsize
    obtain rfl := Option.some.inj hsize
    obtain rfl := Option.some.inj hq
    rw [abs_le] at hlast hq'
    rw [(hexact _ (by omega) (by omega)).1, (hexact _ (by omega) (by omega)).1]
    omega

end Reads

/-- A masked matrix read backwards, in 64-bit arithmetic. -/
theorem Layout.index_lt_realSize_backwards :
    @realSize? .word64 ⟨@Parts.view .word64 ⟨[6], some [-1], 5, none⟩,
        [@Parts.view .word64 ⟨[2, 3], none, 0, some [(0, 2), (1, 3)]⟩]⟩ = some 6 ∧
      @index .word64 ⟨@Parts.view .word64 ⟨[6], some [-1], 5, none⟩,
        [@Parts.view .word64 ⟨[2, 3], none, 0, some [(0, 2), (1, 3)]⟩]⟩ [0] = some 5 ∧
      (5 : Int) < 6 := by
  refine ⟨by decide, by decide, @index_lt_realSize [0] .word64 ⟨[6], some [-1], 5, none⟩
    [⟨[2, 3], none, 0, some [(0, 2), (1, 3)]⟩] 6 5 5 (Width.exactTo_word64 (by decide)) (by decide) ?_
    ?_ (by decide) (by decide) (by decide)⟩
  · simp
  · rintro a ha coords offset hoffset
    obtain rfl : (⟨[2, 3], [3, 1], 0, some [(0, 2), (1, 3)]⟩ : Affine) = a := Option.some.inj ha
    obtain ⟨hranges, hoffset⟩ := Option.ite_none_right_eq_some.mp hoffset
    match coords, hranges with
    | [row, column], ⟨⟨hrow, hrow'⟩, ⟨hcolumn, hcolumn'⟩, _⟩ =>
      obtain rfl := Option.some.inj hoffset
      rw [dot_cons_cons, dot_cons_cons, dot_nil_left, abs_le]
      dsimp only
      omega

/-- A view below with negative dimensions, a mask that has no range for the last dimension, and an
offset past the largest word. -/
theorem Layout.realSize_le_index :
    (@realSize? .word64 ⟨@Parts.view .word64 ⟨[6], none, 0, none⟩,
        [@Parts.view .word64 ⟨[-2, -3], none, 0, none⟩]⟩ = some (-3) ∧
      @index .word64 ⟨@Parts.view .word64 ⟨[6], none, 0, none⟩,
        [@Parts.view .word64 ⟨[-2, -3], none, 0, none⟩]⟩ [0] = some 0) ∧
    (@realSize? .word64 ⟨@Parts.view .word64 ⟨[2, 3], none, 0, some [(0, 1)]⟩, []⟩ = some 1 ∧
      @index .word64 ⟨@Parts.view .word64 ⟨[2, 3], none, 0, some [(0, 1)]⟩, []⟩ [0, 2] = some 2) ∧
    @realSize? .word64 ⟨@Parts.view .word64 ⟨[3], some [4611686018427387904], 0, none⟩, []⟩
        = some (-9223372036854775807) ∧
      @index .word64 ⟨@Parts.view .word64 ⟨[3], some [4611686018427387904], 0, none⟩, []⟩ [1]
        = some 4611686018427387904 := by
  decide

end LazyTensor

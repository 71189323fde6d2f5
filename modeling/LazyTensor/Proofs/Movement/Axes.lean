import LazyTensor.Proofs.Movement.Reference
import LazyTensor.Proofs.View.Affine

/-!
# Movements along the axes of a view

A movement along an axis carries its stride and its valid range over to the moved axis, so that the
moved axis reads at each coordinate what the axis read at the source of it.
-/

namespace LazyTensor

/-- One axis of a view: its size, its stride and the range of its valid indices. -/
structure AxisState where
  dim : Int
  stride : Int
  range : Int × Int
  dim_nonneg : 0 ≤ dim
  start_nonneg : 0 ≤ range.1
  start_le : range.1 ≤ dim
  stop_nonneg : 0 ≤ range.2
  stop_le : range.2 ≤ dim

theorem AxisState.range_mem (x : AxisState) :
    (0 ≤ x.range.1 ∧ x.range.1 ≤ x.dim) ∧ 0 ≤ x.range.2 ∧ x.range.2 ≤ x.dim :=
  ⟨⟨x.start_nonneg, x.start_le⟩, x.stop_nonneg, x.stop_le⟩

namespace AxisMove

/-- The least multiple of `n` that is not below `x`, divided by `n`. -/
def ceil (x n : Int) : Int := (x + n - 1) / n

variable {x n c : Int}

theorem ceil_le_iff (hn : 0 < n) : ceil x n ≤ c ↔ x ≤ n * c := by
  unfold ceil
  rw [← Int.lt_add_one_iff, Int.ediv_lt_iff_lt_mul hn, add_mul, one_mul, mul_comm c n]
  omega

theorem lt_ceil_iff (hn : 0 < n) : c < ceil x n ↔ n * c < x := by
  rw [← not_le, ceil_le_iff hn, not_le]

theorem ceil_nonneg (hn : 0 < n) (hx : 0 ≤ x) : 0 ≤ ceil x n :=
  Int.ediv_nonneg (by omega) hn.le

theorem ceil_mono {y : Int} (hn : 0 < n) (hxy : x ≤ y) : ceil x n ≤ ceil y n :=
  Int.ediv_le_ediv hn (by omega)

theorem ceil_zero (hn : 0 < n) : ceil 0 n = 0 :=
  Int.ediv_eq_zero_of_lt (by omega) (by omega)

def carryStride : AxisMove → (x : AxisState) → Int
  | .expand size, x => if x.dim = size then x.stride else 0
  | .pad _ _, x => x.stride
  | .shrink _ _, x => x.stride
  | .stride step, x => x.stride * step

def carryOffset : AxisMove → (x : AxisState) → Int
  | .expand _, _ => 0
  | .pad before _, x => x.stride * -before
  | .shrink start _, x => x.stride * start
  | .stride step, x => if step < 0 then (x.dim - 1) * x.stride else 0

def clamp (x top : Int) : Int := max (min x top) 0

def carryRange : AxisMove → (x : AxisState) → Int × Int
  | .expand size, x =>
    if x.dim = size then x.range else if x.range = (0, 1) then (0, size) else (0, 0)
  | .pad before _, x => (x.range.1 + before, x.range.2 + before)
  | .shrink start stop, x =>
    (clamp (x.range.1 - start) (stop - start), clamp (x.range.2 - start) (stop - start))
  | .stride step, x =>
    if 0 < step then (ceil x.range.1 step.natAbs, ceil x.range.2 step.natAbs)
    else (ceil (x.dim - x.range.2) step.natAbs, ceil (x.dim - x.range.1) step.natAbs)

section Carry

variable {move : AxisMove} {x : AxisState} (hlegal : move.Legal x.dim)

include hlegal

theorem size_nonneg : 0 ≤ move.size x.dim := by
  have hdim := x.dim_nonneg
  cases move with
  | expand size => exact hlegal.1
  | pad before after =>
    simp only [size]
    omega
  | shrink start stop =>
    have := hlegal.2.1
    simp only [size]
    omega
  | stride step => exact ceil_nonneg (by have : step ≠ 0 := hlegal; omega) hdim

theorem mem_carryRange_iff (hc : 0 ≤ c) (hcd : c < move.size x.dim) :
    (move.carryRange x).1 ≤ c ∧ c < (move.carryRange x).2 ↔
      ∃ y, move.source x.dim c = some y ∧ x.range.1 ≤ y ∧ y < x.range.2 := by
  obtain ⟨⟨hstart, -⟩, hstop', hstop⟩ := x.range_mem
  cases move with
  | expand size =>
    simp only [AxisMove.size] at hcd
    simp only [carryRange, source, Option.some.injEq, exists_eq_left']
    by_cases hsame : x.dim = size
    · rw [if_pos hsame]
      split
      · obtain rfl : c = 0 := by omega
        rfl
      · rfl
    · have hone : x.dim = 1 := hlegal.2.resolve_left hsame
      rw [if_neg hsame, if_pos hone]
      split
      · rename_i hfull
        simp only [hfull]
        omega
      · rename_i hempty
        have hempty : ¬ (x.range.1 = 0 ∧ x.range.2 = 1) := fun h => hempty (Prod.ext h.1 h.2)
        simp only
        omega
  | pad before after =>
    simp only [carryRange, source]
    constructor
    · rintro ⟨hlow, hhigh⟩
      exact ⟨c - before, if_pos ⟨by omega, by omega⟩, by omega, by omega⟩
    · rintro ⟨y, hy, hlow, hhigh⟩
      split at hy
      · obtain rfl : c - before = y := by simpa using hy
        omega
      · cases hy
  | shrink start stop =>
    simp only [AxisMove.size] at hcd
    simp only [carryRange, clamp, source, Option.some.injEq, exists_eq_left']
    omega
  | stride step =>
    have hstep : step ≠ 0 := hlegal
    have hpos : (0 : Int) < step.natAbs := by omega
    simp only [carryRange, source, Option.some.injEq, exists_eq_left']
    rcases lt_or_gt_of_ne hstep with hneg | hgt
    · have habs : (step.natAbs : Int) * c = -(step * c) := by
        rw [show (step.natAbs : Int) = -step by omega, neg_mul]
      simp only [not_lt.mpr hneg.le, if_false, hneg, if_true, ceil_le_iff hpos, lt_ceil_iff hpos,
        habs]
      omega
    · have habs : (step.natAbs : Int) * c = step * c := by
        rw [show (step.natAbs : Int) = step by omega]
      simp only [hgt, if_true, not_lt.mpr hgt.le, if_false, ceil_le_iff hpos, lt_ceil_iff hpos,
        habs]

theorem carryOffset_add {y : Int} (hc : 0 ≤ c) (hcd : c < move.size x.dim)
    (hy : move.source x.dim c = some y) :
    move.carryOffset x + move.carryStride x * c = x.stride * y := by
  cases move with
  | expand size =>
    simp only [AxisMove.size] at hcd
    obtain rfl : (if x.dim = 1 then 0 else c) = y := by simpa [source] using hy
    simp only [carryOffset, carryStride, zero_add]
    rcases hlegal.2 with hsame | hone
    · rw [if_pos hsame]
      split
      · obtain rfl : c = 0 := by omega
        rfl
      · rfl
    · rw [if_pos hone, mul_zero]
      split
      · obtain rfl : c = 0 := by omega
        rw [mul_zero]
      · rw [zero_mul]
  | pad before after =>
    simp only [source] at hy
    split at hy
    · obtain rfl : c - before = y := by simpa using hy
      simp only [carryOffset, carryStride]
      ring
    · cases hy
  | shrink start stop =>
    obtain rfl : c + start = y := by simpa [source] using hy
    simp only [carryOffset, carryStride]
    ring
  | stride step =>
    obtain rfl : (if step < 0 then x.dim - 1 + step * c else step * c) = y := by
      simpa [source] using hy
    simp only [carryOffset, carryStride]
    split <;> ring

theorem carryRange_inside :
    0 ≤ (move.carryRange x).1 ∧ (move.carryRange x).1 ≤ move.size x.dim ∧
      0 ≤ (move.carryRange x).2 ∧ (move.carryRange x).2 ≤ move.size x.dim := by
  obtain ⟨dim, stride, ⟨b, e⟩, hdim, hb, hb', he, he'⟩ := x
  simp only at hb hb' he he'
  cases move with
  | expand size =>
    obtain ⟨hsize, hcase⟩ := hlegal
    simp only [carryRange, AxisMove.size]
    split
    · subst_vars
      exact ⟨hb, hb', he, he'⟩
    · split <;> simp [hsize]
  | pad before after =>
    simp only [carryRange, AxisMove.size]
    omega
  | shrink start stop =>
    obtain ⟨hstart, hle, -⟩ := hlegal
    simp only [carryRange, clamp, AxisMove.size]
    omega
  | stride step =>
    have hpos : (0 : Int) < step.natAbs := by
      have : step ≠ 0 := hlegal
      omega
    have hinside : ∀ y, 0 ≤ y → y ≤ dim →
        0 ≤ ceil y step.natAbs ∧ ceil y step.natAbs ≤ ceil dim step.natAbs :=
      fun y hy hy' => ⟨ceil_nonneg hpos hy, ceil_mono hpos hy'⟩
    have hsize : AxisMove.size (.stride step) dim = ceil dim step.natAbs := rfl
    simp only [carryRange, hsize]
    split
    · exact ⟨(hinside b hb hb').1, (hinside b hb hb').2, (hinside e he he').1,
        (hinside e he he').2⟩
    · have hlow := hinside (dim - e) (by omega) (by omega)
      have hhigh := hinside (dim - b) (by omega) (by omega)
      exact ⟨hlow.1, hlow.2, hhigh.1, hhigh.2⟩

theorem carryRange_full (hpad : ∀ before after, move ≠ .pad before after)
    (hfull : x.range = (0, x.dim)) : move.carryRange x = (0, move.size x.dim) := by
  cases move with
  | expand size =>
    simp only [carryRange, AxisMove.size]
    split
    · rename_i hsame
      rw [hfull, hsame]
    · rename_i hsame
      rw [if_pos]
      rw [hfull, hlegal.2.resolve_left hsame]
  | pad before after => exact (hpad before after rfl).elim
  | shrink start stop =>
    obtain ⟨hstart, hle, hstop⟩ := hlegal
    simp only [carryRange, clamp, AxisMove.size, Prod.mk.injEq, hfull]
    omega
  | stride step =>
    have hpos : (0 : Int) < step.natAbs := by
      have : step ≠ 0 := hlegal
      omega
    simp only [carryRange, hfull, sub_self, sub_zero, ceil_zero hpos, ite_self]
    rfl

end Carry

end AxisMove

/-! ### All axes -/

open Merge

theorem rangesInside_map {α : Type} {as : List α} {r : α → Int × Int} {d : α → Int}
    (h : ∀ x ∈ as, 0 ≤ (r x).1 ∧ (r x).1 ≤ d x ∧ 0 ≤ (r x).2 ∧ (r x).2 ≤ d x) :
    RangesInside (as.map r) (as.map d) := by
  induction as with
  | nil => trivial
  | cons x as ih =>
    rw [List.forall_mem_cons] at h
    exact ⟨h.1, ih h.2⟩

section Along

variable {α : Type} {axes : List (AxisState × α)} {f : α → AxisMove}
  (hlegal : ∀ l ∈ axes, (f l.2).Legal l.1.dim)

include hlegal

theorem sourceAlong_spec {coords : List Int}
    (hin : InShape (axes.map fun l => (f l.2).size l.1.dim) coords) :
    (InRanges (axes.map fun l => (f l.2).carryRange l.1) coords ↔
      ∃ xs, Move.sourceAlong (axes.map fun l => f l.2) (axes.map (·.1.dim)) coords = some xs ∧
        InRanges (axes.map (·.1.range)) xs) ∧
      ∀ xs, Move.sourceAlong (axes.map fun l => f l.2) (axes.map (·.1.dim)) coords = some xs →
        (axes.map fun l => (f l.2).carryOffset l.1).sum
            + dot (axes.map fun l => (f l.2).carryStride l.1) coords
          = dot (axes.map (·.1.stride)) xs := by
  induction axes generalizing coords with
  | nil =>
    obtain rfl : coords = [] := by simpa using hin
    simp [InRanges, Move.sourceAlong]
  | cons l axes ih =>
    obtain ⟨c, coords, rfl, ⟨hc, hcd⟩, hin⟩ := inShape_cons.mp hin
    rw [List.forall_mem_cons] at hlegal
    obtain ⟨hranges, hdot⟩ := ih hlegal.2 hin
    have hrange := AxisMove.mem_carryRange_iff hlegal.1 hc hcd
    simp only [List.map_cons, InRanges, hrange, hranges, Move.sourceAlong,
      Option.bind_eq_bind, Option.bind_eq_some_iff, Option.pure_def, Option.some.injEq]
    constructor
    · constructor
      · rintro ⟨⟨y, hy, hyr⟩, xs, hxs, hxr⟩
        exact ⟨y :: xs, ⟨y, hy, xs, hxs, rfl⟩, hyr, hxr⟩
      · rintro ⟨-, ⟨y, hy, xs, hxs, rfl⟩, hyr, hxr⟩
        exact ⟨⟨y, hy, hyr⟩, xs, hxs, hxr⟩
    · rintro - ⟨y, hy, xs, hxs, rfl⟩
      have hhead := AxisMove.carryOffset_add hlegal.1 hc hcd hy
      have htail := hdot xs hxs
      simp only [List.sum_cons, dot_cons_cons]
      linarith

theorem carryRanges_inside :
    RangesInside (axes.map fun l => (f l.2).carryRange l.1)
      (axes.map fun l => (f l.2).size l.1.dim) :=
  rangesInside_map fun l hl => AxisMove.carryRange_inside (hlegal l hl)

theorem sizes_nonneg : ∀ d ∈ axes.map fun l => (f l.2).size l.1.dim, 0 ≤ d := by
  intro d hd
  obtain ⟨l, hl, rfl⟩ := List.mem_map.mp hd
  exact AxisMove.size_nonneg (hlegal l hl)

end Along

end LazyTensor

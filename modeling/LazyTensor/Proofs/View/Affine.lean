import LazyTensor.Proofs.View.RowMajor
import Mathlib.Algebra.Order.BigOperators.Group.List
import Mathlib.Algebra.Order.Ring.Abs
import Mathlib.Algebra.Order.Ring.Int

/-!
# Views without variables

A view all of whose parts are numbers is the image of an affine description. Putting such parts into
canonical form does not change which element a coordinate reads, and leaves no stride on an axis
with a single valid index.
-/

namespace LazyTensor

/-- Both ends of every range lie inside its dimension. -/
def RangesInside : List (Int × Int) → List Int → Prop
  | [], [] => True
  | r :: ranges, d :: shape =>
    (0 ≤ r.1 ∧ r.1 ≤ d ∧ 0 ≤ r.2 ∧ r.2 ≤ d) ∧ RangesInside ranges shape
  | _, _ => False

/-- The ends of every range, and the distance between them, are at most `bound` in magnitude. -/
def RangesFit (bound : Int) (ranges : List (Int × Int)) : Prop :=
  ∀ r ∈ ranges, |r.1| ≤ bound ∧ |r.2| ≤ bound ∧ |r.1 - r.2| ≤ bound

/-- An axis with one valid index has no stride. -/
def NoSingles : List (Int × Int) → List Int → Prop
  | r :: ranges, s :: strides => (r.2 - r.1 = 1 → s = 0) ∧ NoSingles ranges strides
  | _, _ => True

def constRanges (ranges : List (Int × Int)) : Mask := ranges.map fun r => (.const r.1, .const r.2)

variable {ranges : List (Int × Int)} {shape coords xs ys strides : List Int}

theorem RangesInside.length_eq (h : RangesInside ranges shape) : ranges.length = shape.length := by
  induction ranges generalizing shape with
  | nil => cases shape <;> simp_all [RangesInside]
  | cons r ranges ih =>
    cases shape with
    | nil => exact h.elim
    | cons d shape => simp [ih h.2]

theorem RangesInside.fit {bound : Int} (h : RangesInside ranges shape)
    (hshape : ∀ d ∈ shape, d ≤ bound) : RangesFit bound ranges := by
  induction ranges generalizing shape with
  | nil => simp [RangesFit]
  | cons r ranges ih =>
    cases shape with
    | nil => exact h.elim
    | cons d shape =>
      rw [List.forall_mem_cons] at hshape
      refine List.forall_mem_cons.mpr ⟨?_, ih h.2 hshape.2⟩
      simp only [abs_le]
      have := h.1
      omega

theorem rangesInside_fullRanges (h : ∀ d ∈ shape, 0 ≤ d) :
    RangesInside (fullRanges shape) shape := by
  induction shape with
  | nil => trivial
  | cons d shape ih =>
    have hd : 0 ≤ d := h d (by simp)
    exact ⟨⟨le_rfl, hd, hd, le_rfl⟩, ih fun e he => h e (by simp [he])⟩

theorem RangesInside.inShape (h : RangesInside ranges shape) (hin : InRanges ranges coords) :
    InShape shape coords := by
  induction ranges generalizing shape coords with
  | nil => cases shape <;> cases coords <;> simp_all [RangesInside, InRanges]
  | cons r ranges ih =>
    cases shape with
    | nil => exact h.elim
    | cons d shape =>
      obtain ⟨⟨hlow, -, -, hhigh⟩, hrest⟩ := h
      obtain ⟨c, coords, rfl, ⟨hc, hc'⟩, hcoords⟩ := inRanges_cons.mp hin
      exact ⟨⟨hlow.trans hc, hc'.trans_le hhigh⟩, ih hrest hcoords⟩

theorem not_inRanges_of_empty {r : Int × Int} (hr : r ∈ ranges) (hempty : r.2 ≤ r.1) :
    ¬ InRanges ranges coords := by
  induction ranges generalizing coords with
  | nil => simp at hr
  | cons s ranges ih =>
    cases coords with
    | nil => exact id
    | cons c coords =>
      rintro ⟨⟨hlow, hhigh⟩, hrest⟩
      rcases List.mem_cons.mp hr with rfl | hr
      · omega
      · exact ih hr hrest

theorem InRanges.nonempty (h : InRanges ranges coords) : ∀ r ∈ ranges, r.1 < r.2 := by
  intro r hr
  by_contra hle
  exact not_inRanges_of_empty hr (by omega) h

/-- A shape with as many dimensions as a list that is not empty has one to be empty along. -/
theorem mem_zeros (hlength : ranges.length = shape.length) {r : Int × Int} (hr : r ∈ ranges) :
    ((0, 0) : Int × Int) ∈ shape.map fun _ => ((0, 0) : Int × Int) := by
  cases shape with
  | nil => simp_all
  | cons d shape => simp

theorem inRanges_starts (h : ∀ r ∈ ranges, r.1 < r.2) : InRanges ranges (ranges.map (·.1)) := by
  induction ranges with
  | nil => trivial
  | cons r ranges ih =>
    exact ⟨⟨le_rfl, h r (by simp)⟩, ih fun s hs => h s (by simp [hs])⟩

namespace Merge.Affine

def toView (a : Affine) (contiguous : Bool) : View where
  shape := a.shape.map .const
  strides := a.strides.map .const
  offset := .const a.offset
  mask := a.mask.map constRanges
  contiguous := contiguous

def index (a : Affine) (coords : List Int) : Option Int :=
  if InRanges a.ranges coords then some (a.offset + dot a.strides coords) else none

variable {a : Affine}

theorem index_of_inRanges (h : InRanges a.ranges coords) :
    a.index coords = some (a.offset + dot a.strides coords) := if_pos h

theorem index_of_not_inRanges (h : ¬ InRanges a.ranges coords) :
    a.index coords = none := if_neg h

/-- Every dimension has a stride and, if there is a mask, a range inside it. -/
structure WellFormed (a : Affine) : Prop where
  dims_nonneg : ∀ d ∈ a.shape, 0 ≤ d
  length_strides : a.strides.length = a.shape.length
  inside : RangesInside a.ranges a.shape

theorem WellFormed.inShape (h : a.WellFormed) (hin : InRanges a.ranges coords) :
    InShape a.shape coords :=
  h.inside.inShape hin

end Merge.Affine

open Merge

/-! ### Indexing -/

section Index

variable [Width]

theorem View.dot?_const (strides coords : List Int) :
    View.dot? (strides.map .const) coords = some (dot strides coords) := by
  induction strides generalizing coords with
  | nil => simp [View.dot?]
  | cons s strides ih =>
    cases coords with
    | nil => simp [View.dot?]
    | cons c coords => simp [View.dot?, ih]

theorem View.all_inRange?_iff (hlength : coords.length = ranges.length) :
    (((constRanges ranges).zip coords).all fun (r, c) => View.inRange? r c) = true
      ↔ InRanges ranges coords := by
  induction ranges generalizing coords with
  | nil =>
    obtain rfl : coords = [] := by simpa using hlength
    simp [constRanges, InRanges]
  | cons r ranges ih =>
    cases coords with
    | nil => simp at hlength
    | cons c coords =>
      have hlength' : coords.length = ranges.length := by simpa using hlength
      have htail := ih hlength'
      simp only [constRanges, List.map_cons, List.zip_cons_cons, List.all_cons,
        Bool.and_eq_true] at htail ⊢
      rw [htail]
      simp [View.inRange?, InRanges]

theorem Merge.Affine.index_toView {a : Affine} (h : a.ranges.length = a.shape.length)
    (contiguous : Bool) (hin : InShape a.shape coords) :
    (a.toView contiguous).index coords = (a.index coords).map Width.wrap := by
  have hlength := hin.length_eq
  cases hmask : a.mask with
  | none =>
    have hranges : InRanges a.ranges coords := by
      rw [Affine.ranges, hmask]
      exact hin
    simp [View.index, Affine.toView, hmask, Affine.index, hranges, View.dot?_const]
  | some m =>
    have hm : a.ranges = m := by simp [Affine.ranges, hmask]
    have hranges : coords.length = m.length := by rw [hlength, ← h, hm]
    have hall := View.all_inRange?_iff hranges
    by_cases hr : InRanges m coords
    · simp [View.index, Affine.toView, hmask, Affine.index, hm, hr, hall.mpr hr, View.dot?_const]
    · have hfalse :
          (((constRanges m).zip coords).all fun (r, c) => View.inRange? r c) = false := by
        rw [Bool.eq_false_iff]
        exact fun htrue => hr (hall.mp htrue)
      simp [View.index, Affine.toView, hmask, Affine.index, hm, hr, hfalse]

end Index

theorem starts_nonneg (h : RangesInside ranges shape) : ∀ x ∈ ranges.map (·.1), 0 ≤ x := by
  induction ranges generalizing shape with
  | nil => simp
  | cons r ranges ih =>
    cases shape with
    | nil => exact h.elim
    | cons d shape => exact List.forall_mem_cons.mpr ⟨h.1.1, ih h.2⟩

theorem starts_le (h : RangesInside ranges shape) :
    List.Forall₂ (· ≤ ·) (ranges.map (·.1)) shape := by
  induction ranges generalizing shape with
  | nil => cases shape <;> simp_all [RangesInside]
  | cons r ranges ih =>
    cases shape with
    | nil => exact h.elim
    | cons d shape => exact .cons h.1.2.1 (ih h.2)

/-! ### Canonical form -/

/-- The sum of the magnitudes of the products of two lists. -/
def spread : List Int → List Int → Int
  | x :: xs, y :: ys => |x * y| + spread xs ys
  | _, _ => 0

theorem spread_nonneg (xs ys : List Int) : 0 ≤ spread xs ys := by
  induction xs generalizing ys with
  | nil => simp [spread]
  | cons x xs ih =>
    cases ys with
    | nil => simp [spread]
    | cons y ys => exact add_nonneg (abs_nonneg _) (ih ys)

theorem spread_comm (xs ys : List Int) : spread xs ys = spread ys xs := by
  induction xs generalizing ys with
  | nil => cases ys <;> rfl
  | cons x xs ih =>
    cases ys with
    | nil => rfl
    | cons y ys => simp only [spread, mul_comm x y, ih ys]

theorem spread_le {low : Int} (hlow : 0 ≤ low) (hxs : ∀ x ∈ xs, 0 ≤ x) (hys : ∀ y ∈ ys, |y| ≤ low) :
    spread xs ys ≤ low * xs.sum := by
  induction xs generalizing ys with
  | nil => simp [spread]
  | cons x xs ih =>
    have hx : 0 ≤ x := hxs x (by simp)
    have hsum : 0 ≤ xs.sum := List.sum_nonneg fun z hz => hxs z (by simp [hz])
    cases ys with
    | nil =>
      have : 0 ≤ low * (x :: xs).sum := mul_nonneg hlow (by simpa using add_nonneg hx hsum)
      simpa [spread] using this
    | cons y ys =>
      rw [List.forall_mem_cons] at hxs hys
      have htail := ih hxs.2 hys.2
      have hhead : |x * y| ≤ low * x := by
        rw [abs_mul, abs_of_nonneg hx, mul_comm]
        exact mul_le_mul_of_nonneg_right hys.1 hx
      simp only [spread, List.sum_cons, mul_add]
      linarith

theorem spread_starts_le {low : Int} (h : RangesInside ranges shape) (hlow : 0 ≤ low)
    (hys : ∀ y ∈ ys, |y| ≤ low) : spread (ranges.map (·.1)) ys ≤ low * shape.sum :=
  (spread_le hlow (starts_nonneg h) hys).trans
    (mul_le_mul_of_nonneg_left (List.Forall₂.sum_le_sum (starts_le h)) hlow)

theorem spread_mono {xs' : List Int} (hxs : ∀ x ∈ xs, 0 ≤ x) (h : List.Forall₂ (· ≤ ·) xs xs') :
    spread xs ys ≤ spread xs' ys := by
  induction h generalizing ys with
  | nil => rfl
  | cons hx _ ih =>
    rw [List.forall_mem_cons] at hxs
    cases ys with
    | nil => rfl
    | cons y ys =>
      simp only [spread, abs_mul]
      refine add_le_add (mul_le_mul_of_nonneg_right ?_ (abs_nonneg _)) (ih hxs.2)
      exact abs_le_abs_of_nonneg hxs.1 hx

/-- Strides without those of dimensions of size one. -/
def dropUnits (shape strides : List Int) : List Int :=
  strides.zipWith (fun s d => if d = 1 then 0 else s) shape

theorem dot_dropUnits (strides : List Int) (hin : InShape shape coords)
    (hlength : strides.length = shape.length) :
    dot (dropUnits shape strides) coords = dot strides coords := by
  induction shape generalizing strides coords with
  | nil =>
    obtain rfl : coords = [] := by simpa using hin
    simp
  | cons d shape ih =>
    cases strides with
    | nil => simp at hlength
    | cons s strides =>
    obtain ⟨c, coords, rfl, ⟨hc, hcd⟩, hrest⟩ := inShape_cons.mp hin
    have htail := ih strides hrest (by simpa using hlength)
    simp only [dropUnits, List.zipWith_cons_cons, dot_cons_cons] at htail ⊢
    rw [htail]
    split
    · obtain rfl : c = 0 := by omega
      simp
    · rfl

theorem noSingles_dropUnits (shape strides : List Int) :
    NoSingles (fullRanges shape) (dropUnits shape strides) := by
  induction shape generalizing strides with
  | nil => simp [dropUnits, fullRanges, NoSingles]
  | cons d shape ih =>
    cases strides with
    | nil => simp [dropUnits, fullRanges, NoSingles]
    | cons s strides =>
      refine ⟨?_, ih strides⟩
      intro hone
      have hd : d = 1 := by simpa using hone
      simp [hd]

theorem spread_dropUnits_le (xs shape strides : List Int) :
    spread xs (dropUnits shape strides) ≤ spread xs strides := by
  induction strides generalizing xs shape with
  | nil => simp [dropUnits]
  | cons s strides ih =>
    cases shape with
    | nil =>
      have hnil : spread xs (dropUnits [] (s :: strides)) = 0 := by cases xs <;> rfl
      rw [hnil]
      exact spread_nonneg _ _
    | cons d shape =>
      cases xs with
      | nil => simp [spread]
      | cons x xs =>
        simp only [dropUnits, List.zipWith_cons_cons, spread] at ih ⊢
        refine add_le_add ?_ (ih xs shape)
        split
        · simpa only [mul_zero, abs_zero] using abs_nonneg (x * s)
        · rfl

theorem spread_folded_le (h : RangesInside ranges shape) (strides : List Int) :
    spread (ranges.map (·.1)) (dropUnits shape strides) ≤ spread shape strides :=
  (spread_mono (starts_nonneg h) (starts_le h)).trans (spread_dropUnits_le _ shape strides)

theorem View.zipWith_dropUnits_const (shape strides : List Int) :
    (strides.map SymInt.const).zipWith (fun s d => if d = 1 then 0 else s) (shape.map SymInt.const)
      = (dropUnits shape strides).map .const := by
  induction strides generalizing shape with
  | nil => simp [dropUnits]
  | cons s strides ih =>
    cases shape with
    | nil => simp [dropUnits]
    | cons d shape =>
      have htail := ih shape
      simp only [dropUnits, List.map_cons, List.zipWith_cons_cons, SymInt.const_eq_one_iff]
        at htail ⊢
      rw [htail]
      congr 1
      split <;> rfl

theorem View.coversShape_iff (hlength : ranges.length = shape.length) :
    View.coversShape (constRanges ranges) (shape.map .const) = true
      ↔ ranges = fullRanges shape := by
  induction ranges generalizing shape with
  | nil =>
    obtain rfl : shape = [] := by simpa using hlength.symm
    simp [View.coversShape, constRanges, fullRanges]
  | cons r ranges ih =>
    cases shape with
    | nil => simp at hlength
    | cons d shape =>
      have hlength' : ranges.length = shape.length := by simpa using hlength
      have htail := ih hlength'
      simp only [View.coversShape, constRanges, fullRanges, List.map_cons, List.zip_cons_cons,
        List.all_cons, Bool.and_eq_true, beq_iff_eq, SymInt.const_eq_zero_iff,
        SymInt.const.injEq, List.cons.injEq] at htail ⊢
      rw [htail, Prod.ext_iff]

/-- A view in canonical form with the numbers of `a` as its parts. -/
structure View.IsAffine [Width] (v : View) (a : Affine) : Prop where
  eq_toView : v = a.toView v.contiguous
  wellFormed : a.WellFormed
  noSingles : NoSingles a.ranges a.strides
  rowMajor_of_contiguous : v.contiguous = true →
    a.mask = none ∧ a.offset = 0 ∧ a.strides.map .const = rowMajor (a.shape.map .const)

/-! ### Numbers up to wrapping -/

namespace Width

variable [Width] {x total bound : Int}

/-- The number is `total`, or what `total` wraps to. -/
def Stores (x total : Int) : Prop := x = total ∨ x = Width.wrap total

theorem wrap_add_wrap (x y : Int) : Width.wrap (x + Width.wrap y) = Width.wrap (x + y) := by
  rw [add_comm, wrap_wrap_add, add_comm]

theorem Stores.refl (x : Int) : Stores x x := .inl rfl

theorem Stores.wrap_add (h : Stores x total) (y : Int) :
    Width.wrap (x + y) = Width.wrap (total + y) := by
  rcases h with rfl | rfl
  · rfl
  · exact wrap_wrap_add total y

theorem ExactTo.wrap_eq (hexact : Width.ExactTo bound) (hx : |x| ≤ bound) : wrap x = x :=
  (hexact x (abs_le.mp hx).1 (abs_le.mp hx).2).1

theorem ExactTo.eq_of_stores (hexact : Width.ExactTo bound) (htotal : |total| ≤ bound)
    (h : Stores x total) : x = total :=
  h.elim id fun h => h.trans (hexact.wrap_eq htotal)

end Width

/-- Strides and an offset that read in the ranges what `strides` and `offset` read, without a stride
on an axis with one valid index. -/
structure Folds (ranges : List (Int × Int)) (strides : List Int) (offset : Int)
    (strides' : List Int) (offset' : Int) : Prop where
  length_eq : strides'.length = strides.length
  noSingles : NoSingles ranges strides'
  abs_le : ∀ base, InRanges ranges base → |offset'| ≤ |offset| + spread base strides
  reads_eq : ∀ coords, InRanges ranges coords →
    offset' + dot strides' coords = offset + dot strides coords

theorem Folds.refl (offset : Int) (h : NoSingles ranges strides) :
    Folds ranges strides offset strides offset :=
  ⟨rfl, h, fun base _ => le_add_of_nonneg_right (spread_nonneg base strides), fun _ _ => rfl⟩

section Create

variable [Width] {bound : Int} (hexact : Width.ExactTo bound)
include hexact

theorem Mask.isEmpty_constRanges (hfit : RangesFit bound ranges) :
    Mask.isEmpty (constRanges ranges) = ranges.any fun r => decide (r.2 ≤ r.1) := by
  rw [Bool.eq_iff_iff, Mask.isEmpty, constRanges, List.any_map, List.any_eq_true, List.any_eq_true]
  refine exists_congr fun r => and_congr_right fun hr => ?_
  obtain ⟨-, hstop, hdiff⟩ := hfit r hr
  rw [abs_le] at hstop hdiff
  simp [SymInt.lt?_const hexact hstop hdiff]

/-- Folding keeps what every coordinate in the ranges reads. -/
theorem View.foldSingles_const (hranges : RangesFit bound ranges)
    (hlength : strides.length = ranges.length) {offset stored : Int}
    (hstored : Width.Stores stored offset) :
    ∃ strides' offset' stored',
      View.foldSingles (constRanges ranges) (strides.map .const) (.const stored)
          = (strides'.map .const, .const stored') ∧
        Width.Stores stored' offset' ∧ Folds ranges strides offset strides' offset' := by
  induction ranges generalizing strides offset stored with
  | nil =>
    obtain rfl : strides = [] := by simpa using hlength
    exact ⟨[], offset, stored, rfl, hstored, rfl, trivial,
      fun base _ => le_add_of_nonneg_right (spread_nonneg base []), fun _ _ => rfl⟩
  | cons r ranges ih =>
    cases strides with
    | nil => simp at hlength
    | cons s strides =>
      rw [RangesFit, List.forall_mem_cons] at hranges
      obtain ⟨⟨hlow, -, hdiff⟩, hranges⟩ := hranges
      rw [abs_le] at hlow hdiff
      have hlength' : strides.length = ranges.length := by simpa using hlength
      have hcount : SymInt.const r.2 - SymInt.const r.1 = SymInt.const (r.2 - r.1) :=
        SymInt.sub_const hexact hlow (by omega)
      by_cases hsingle : r.2 - r.1 = 1 ∧ s ≠ 0
      · have hoffset : SymInt.const stored + SymInt.const r.1 * SymInt.const s
            = SymInt.const (Width.wrap (offset + r.1 * s)) := by
          rw [SymInt.const_mul_const, SymInt.const_add_const, hstored.wrap_add, Width.wrap_add_wrap]
        obtain ⟨strides', offset', stored', heq, hstored', hfolds⟩ :=
          ih hranges hlength' (.inr rfl : Width.Stores _ (offset + r.1 * s))
        refine ⟨0 :: strides', offset', stored', ?_, hstored', by simp [hfolds.length_eq],
          ⟨fun _ => rfl, hfolds.noSingles⟩, ?_, ?_⟩
        · simp only [constRanges, List.map_cons, View.foldSingles] at heq ⊢
          rw [hcount, if_pos (by simpa using hsingle), hoffset, heq]
          rfl
        · intro base hbase
          obtain ⟨b, base, rfl, ⟨hb, hb'⟩, hrest⟩ := inRanges_cons.mp hbase
          obtain rfl : b = r.1 := by omega
          have := hfolds.abs_le base hrest
          have := abs_add_le offset (r.1 * s)
          simp only [spread]
          linarith
        · intro coords hcoords
          obtain ⟨c, coords, rfl, ⟨hc, hc'⟩, htail⟩ := inRanges_cons.mp hcoords
          obtain rfl : c = r.1 := by omega
          have := hfolds.reads_eq coords htail
          simp only [dot_cons_cons]
          linarith [mul_comm s r.1]
      · obtain ⟨strides', offset', stored', heq, hstored', hfolds⟩ := ih hranges hlength' hstored
        refine ⟨s :: strides', offset', stored', ?_, hstored', by simp [hfolds.length_eq],
          ⟨?_, hfolds.noSingles⟩, ?_, ?_⟩
        · simp only [constRanges, List.map_cons, View.foldSingles] at heq ⊢
          rw [hcount, if_neg (by simpa using hsingle), heq]
        · intro hone
          by_contra hs
          exact hsingle ⟨hone, hs⟩
        · intro base hbase
          obtain ⟨b, base, rfl, -, hrest⟩ := inRanges_cons.mp hbase
          have := hfolds.abs_le base hrest
          have := abs_nonneg (b * s)
          simp only [spread]
          linarith
        · intro coords hcoords
          obtain ⟨c, coords, rfl, -, htail⟩ := inRanges_cons.mp hcoords
          have := hfolds.reads_eq coords htail
          simp only [dot_cons_cons]
          linarith

/-- A mask with an empty range leaves nothing valid, one that covers the shape is dropped, and
another one stays with its single indices folded. -/
theorem View.create_masked (hfit : RangesFit bound ranges) (hlength : ranges.length = shape.length)
    {offset : Int} {v : View} (hv : v = .create (shape.map .const) (some (strides.map .const))
      (.const offset) (some (constRanges ranges))) :
    (∃ r ∈ ranges, r.2 ≤ r.1) ∧ v = .invalid (shape.map .const) ∨
    (∀ r ∈ ranges, r.1 < r.2) ∧ (ranges = fullRanges shape ∧
        v = .create (shape.map .const) (some (strides.map .const)) (.const offset) none ∨
      ∃ folded, folded = View.foldSingles (constRanges ranges)
          ((dropUnits shape strides).map .const) (.const offset) ∧
        v = ⟨shape.map .const, folded.1, folded.2, some (constRanges ranges), false⟩) := by
  simp only [View.create, View.zipWith_dropUnits_const,
    Mask.isEmpty_constRanges hexact hfit] at hv ⊢
  by_cases hempty : (ranges.any fun r => decide (r.2 ≤ r.1)) = true
  · rw [if_pos hempty] at hv
    exact .inl ⟨by simpa using hempty, hv⟩
  · rw [if_neg hempty] at hv
    refine .inr ⟨by simpa using hempty, ?_⟩
    by_cases hcovers : View.coversShape (constRanges ranges) (shape.map .const) = true
    · rw [if_pos hcovers] at hv
      exact .inl ⟨(View.coversShape_iff hlength).mp hcovers, hv⟩
    · rw [if_neg hcovers] at hv
      exact .inr ⟨_, rfl, hv⟩

omit hexact in
theorem View.isAffine_invalid {shape : List Int} (hdims : ∀ d ∈ shape, 0 ≤ d) :
    (View.invalid (shape.map .const)).IsAffine
      ⟨shape, shape.map fun _ => 0, 0, some (shape.map fun _ => (0, 0))⟩ where
  eq_toView := by
    simp only [View.invalid, Affine.toView, Option.map_some, constRanges, List.map_map]
    rfl
  wellFormed := by
    refine ⟨hdims, by simp, ?_⟩
    simp only [Affine.ranges, Option.getD_some]
    induction shape with
    | nil => trivial
    | cons d shape ih =>
      have hd : 0 ≤ d := hdims d (by simp)
      exact ⟨⟨le_rfl, hd, le_rfl, hd⟩, ih fun e he => hdims e (by simp [he])⟩
  noSingles := by
    simp only [Affine.ranges, Option.getD_some]
    clear hdims
    induction shape with
    | nil => trivial
    | cons d shape ih => exact ⟨fun _ => rfl, ih⟩
  rowMajor_of_contiguous := by simp [View.invalid]

omit hexact in
theorem View.isAffine_unmasked (offset : Int) (hdims : ∀ d ∈ shape, 0 ≤ d)
    (hlength : strides.length = shape.length) :
    (View.create (shape.map .const) (some (strides.map .const)) (.const offset) none).IsAffine
      ⟨shape, dropUnits shape strides, offset, none⟩ where
  eq_toView := by
    simp only [View.create, View.zipWith_dropUnits_const, Affine.toView, Option.map_none]
  wellFormed := ⟨hdims, by simp [dropUnits, hlength], rangesInside_fullRanges hdims⟩
  noSingles := noSingles_dropUnits shape strides
  rowMajor_of_contiguous := by
    simp only [View.create, View.zipWith_dropUnits_const, Bool.and_eq_true, beq_iff_eq,
      SymInt.const_eq_zero_iff]
    exact fun h => ⟨trivial, h.1, h.2⟩

/-- Canonical form reads every coordinate of the shape as the parts say, if the offset that is left
when single indices are folded does not overflow. -/
theorem View.exists_isAffine_create {offset stored : Int} {mask : Option (List (Int × Int))}
    (hstored : Width.Stores stored offset) (hdims : ∀ d ∈ shape, 0 ≤ d)
    (hshape : ∀ d ∈ shape, d ≤ bound) (hlength : strides.length = shape.length)
    (hinside : ∀ m, mask = some m → RangesInside m shape)
    (hfit : (∀ r ∈ mask.getD (fullRanges shape), r.1 < r.2) → ∀ strides' offset',
      Folds (mask.getD (fullRanges shape)) (dropUnits shape strides) offset strides' offset' →
        |offset'| ≤ bound) :
    ∃ a, (View.create (shape.map .const) (some (strides.map .const)) (.const stored)
        (mask.map constRanges)).IsAffine a ∧ a.shape = shape ∧
      ∀ coords, InShape shape coords → a.index coords =
        if InRanges (mask.getD (fullRanges shape)) coords then some (offset + dot strides coords)
        else none := by
  have hunmasked : mask.getD (fullRanges shape) = fullRanges shape → ∀ coords, InShape shape coords →
      (⟨shape, dropUnits shape strides, stored, none⟩ : Affine).index coords
        = if InRanges (mask.getD (fullRanges shape)) coords then some (offset + dot strides coords)
          else none := by
    intro hfull coords hin
    rw [hfull] at hfit ⊢
    have hoffset := hfit (InRanges.nonempty hin) _ _ (.refl offset (noSingles_dropUnits shape strides))
    obtain rfl := hexact.eq_of_stores hoffset hstored
    rw [← dot_dropUnits strides hin hlength]
    rfl
  cases mask with
  | none => exact ⟨_, View.isAffine_unmasked stored hdims hlength, rfl, hunmasked rfl⟩
  | some m =>
    have hm := hinside m rfl
    have hranges := hm.fit hshape
    simp only [Option.map_some, Option.getD_some] at hfit hunmasked ⊢
    rcases View.create_masked hexact hranges hm.length_eq rfl with
      ⟨⟨r, hr, hle⟩, hview⟩ | ⟨hnonempty, ⟨hfull, hview⟩ | ⟨folded, hfolded, hview⟩⟩
    · rw [hview]
      refine ⟨_, View.isAffine_invalid hdims, rfl, fun coords _ => ?_⟩
      rw [if_neg (not_inRanges_of_empty hr hle)]
      exact Affine.index_of_not_inRanges
        (not_inRanges_of_empty (r := (0, 0)) (mem_zeros hm.length_eq hr) le_rfl)
    · rw [hview]
      exact ⟨_, View.isAffine_unmasked stored hdims hlength, rfl, hunmasked hfull⟩
    · have hunits : (dropUnits shape strides).length = m.length := by
        simp [dropUnits, hlength, hm.length_eq]
      obtain ⟨strides', offset', stored', heq, hstored', hfolds⟩ :=
        View.foldSingles_const hexact hranges hunits hstored
      obtain rfl := hexact.eq_of_stores (hfit hnonempty _ _ hfolds) hstored'
      rw [hview, hfolded, heq]
      refine ⟨⟨shape, strides', stored', some m⟩,
        ⟨rfl, ⟨hdims, ?_, hm⟩, hfolds.noSingles, by simp⟩, rfl, fun coords hcoords => ?_⟩
      · simp [hfolds.length_eq, dropUnits, hlength]
      · refine ite_congr rfl (fun hin => ?_) fun _ => rfl
        rw [← dot_dropUnits strides hcoords hlength, ← hfolds.reads_eq coords hin]

end Create

namespace View.IsAffine

variable [Width] {v : View} {a : Affine}

theorem shape_eq (h : v.IsAffine a) : v.shape = a.shape.map .const := by
  rw [h.eq_toView]
  rfl

theorem index_eq_map (h : v.IsAffine a) (hin : InShape a.shape coords) :
    v.index coords = (a.index coords).map Width.wrap := by
  rw [h.eq_toView]
  exact Affine.index_toView h.wellFormed.inside.length_eq _ hin

theorem index_eq {bound : Int} (hexact : Width.ExactTo bound) (h : v.IsAffine a)
    (hin : InShape a.shape coords) (hreads : ∀ p, a.index coords = some p → |p| ≤ bound) :
    v.index coords = a.index coords := by
  rw [h.index_eq_map hin]
  cases hread : a.index coords with
  | none => rfl
  | some p => rw [Option.map_some, hexact.wrap_eq (hreads p hread)]

end View.IsAffine

theorem Merge.concreteMask?_constRanges (ranges : List (Int × Int)) :
    concreteMask? (constRanges ranges) = some ranges := by
  induction ranges with
  | nil => rfl
  | cons r ranges ih =>
    simp only [concreteMask?, constRanges, List.map_cons, List.mapM_cons] at ih ⊢
    rw [ih]
    rfl

theorem concreteShape?_const (shape : List Int) :
    concreteShape? (shape.map .const) = some shape := by
  induction shape with
  | nil => rfl
  | cons d shape ih =>
    simp only [concreteShape?, List.map_cons, List.mapM_cons] at ih ⊢
    rw [ih]
    rfl

theorem Merge.Affine.ofView?_toView (a : Affine) (contiguous : Bool) :
    Affine.ofView? (a.toView contiguous) = some a := by
  obtain ⟨shape, strides, offset, mask⟩ := a
  cases mask with
  | none =>
    simp only [ofView?, toView, concreteShape?_const, Option.map_none]
    rfl
  | some m =>
    simp only [ofView?, toView, concreteShape?_const, Option.map_some,
      Merge.concreteMask?_constRanges]
    rfl

/-! ### Views that stay inside a size -/

namespace Merge.Affine

/-- Every valid element lies below `size`. -/
def Within (a : Affine) (size : Int) : Prop :=
  ∀ coords, InRanges a.ranges coords →
    0 ≤ a.offset + dot a.strides coords ∧ a.offset + dot a.strides coords < size

theorem within_iff {a : Affine} {size : Int} :
    a.Within size ↔ ∀ coords position, a.index coords = some position →
      0 ≤ position ∧ position < size := by
  constructor
  · intro h coords position hindex
    by_cases hin : InRanges a.ranges coords
    · rw [index_of_inRanges hin, Option.some.injEq] at hindex
      exact hindex ▸ h coords hin
    · rw [index_of_not_inRanges hin] at hindex
      cases hindex
  · intro h coords hin
    exact h coords _ (index_of_inRanges hin)

end Merge.Affine

theorem abs_dot_le_spread (xs ys : List Int) : |dot xs ys| ≤ spread xs ys := by
  induction xs generalizing ys with
  | nil => simp [spread]
  | cons x xs ih =>
    cases ys with
    | nil => simp [spread]
    | cons y ys =>
      rw [dot_cons_cons]
      exact (abs_add_le _ _).trans (by simpa [spread] using ih ys)

theorem abs_dot_le_of_inShape (hin : InShape shape coords) (strides : List Int) :
    |dot strides coords| ≤ spread shape strides := by
  induction shape generalizing coords strides with
  | nil =>
    obtain rfl : coords = [] := by simpa using hin
    simp [spread]
  | cons d shape ih =>
    obtain ⟨c, coords, rfl, ⟨hc, hcd⟩, hin⟩ := inShape_cons.mp hin
    cases strides with
    | nil => simp [spread]
    | cons s strides =>
      have hhead : |s * c| ≤ |d * s| := by
        rw [abs_mul, abs_mul, mul_comm, abs_of_nonneg hc, abs_of_nonneg (hc.trans hcd.le)]
        exact mul_le_mul_of_nonneg_right hcd.le (abs_nonneg _)
      rw [dot_cons_cons]
      exact (abs_add_le _ _).trans (add_le_add hhead (ih hin strides))

section Reads

variable {offset top : Int} (hlength : strides.length = ranges.length)
  (hnonempty : ∀ r ∈ ranges, r.1 < r.2) (hsingles : NoSingles ranges strides)
  (hreads : ∀ coords, InRanges ranges coords → |offset + dot strides coords| ≤ top)

include hlength hnonempty hsingles hreads

theorem abs_stride_le_of_reads : ∀ s ∈ strides, |s| ≤ 2 * top := by
  induction ranges generalizing strides offset with
  | nil =>
    obtain rfl : strides = [] := by simpa using hlength
    simp
  | cons r ranges ih =>
    cases strides with
    | nil => simp at hlength
    | cons s strides =>
      rw [List.forall_mem_cons] at hnonempty
      have hstarts := inRanges_starts hnonempty.2
      have hfirst := hreads (r.1 :: ranges.map (·.1)) ⟨⟨le_rfl, hnonempty.1⟩, hstarts⟩
      rw [dot_cons_cons, abs_le] at hfirst
      refine List.forall_mem_cons.mpr ⟨?_, ?_⟩
      · by_cases hsingle : r.2 - r.1 = 1
        · rw [hsingles.1 hsingle, abs_zero]
          omega
        · have hsecond := hreads ((r.1 + 1) :: ranges.map (·.1)) ⟨⟨by simp, by omega⟩, hstarts⟩
          rw [dot_cons_cons, mul_add, mul_one, abs_le] at hsecond
          rw [abs_le]
          omega
      · have hrest : ∀ coords, InRanges ranges coords →
            |offset + s * r.1 + dot strides coords| ≤ top := by
          intro coords hcoords
          have hcons := hreads (r.1 :: coords) ⟨⟨le_rfl, hnonempty.1⟩, hcoords⟩
          rwa [dot_cons_cons, ← add_assoc] at hcons
        exact ih (by simpa using hlength) hnonempty.2 hsingles.2 hrest

/-- The offset of a view with a valid element exceeds what the view reads at most by what the masked
part in front of that element takes up. -/
theorem abs_offset_le_of_reads (hinside : RangesInside ranges shape) :
    |offset| ≤ top * (1 + 2 * shape.sum) := by
  have hfirst := hreads _ (inRanges_starts hnonempty)
  have htop : 0 ≤ 2 * top := by linarith [abs_nonneg (offset + dot strides (ranges.map (·.1)))]
  have hspread := spread_starts_le hinside htop
    (abs_stride_le_of_reads hlength hnonempty hsingles hreads)
  have hdot := abs_dot_le_spread (ranges.map (·.1)) strides
  rw [dot_comm] at hdot
  have hsub := abs_sub (offset + dot strides (ranges.map (·.1))) (dot strides (ranges.map (·.1)))
  rw [add_sub_cancel_right] at hsub
  linarith

end Reads

theorem Folds.abs_offset_le {strides' : List Int} {offset offset' top : Int}
    (h : Folds ranges strides offset strides' offset') (hinside : RangesInside ranges shape)
    (hlength : strides.length = ranges.length) (hnonempty : ∀ r ∈ ranges, r.1 < r.2)
    (hreads : ∀ coords, InRanges ranges coords → |offset + dot strides coords| ≤ top) :
    |offset'| ≤ top * (1 + 2 * shape.sum) :=
  abs_offset_le_of_reads (h.length_eq.trans hlength) hnonempty h.noSingles
    (fun coords hin => h.reads_eq coords hin ▸ hreads coords hin) hinside

end LazyTensor

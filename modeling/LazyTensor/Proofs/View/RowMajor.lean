import LazyTensor.Proofs.View.Exact
import LazyTensor.View.Merge
import Mathlib.Tactic.Linarith
import Mathlib.Tactic.Ring

/-!
# Row-major positions

The position of coordinates inside a shape counts the elements before them in row-major order.
`unravel` undoes it, and the row-major strides of a shape compute it.
-/

namespace LazyTensor

/-- One coordinate in each range. -/
def InRanges : List (Int × Int) → List Int → Prop
  | [], [] => True
  | r :: ranges, c :: coords => (r.1 ≤ c ∧ c < r.2) ∧ InRanges ranges coords
  | _, _ => False

instance decidableInRanges : (ranges : List (Int × Int)) → (coords : List Int) →
    Decidable (InRanges ranges coords)
  | [], [] => .isTrue trivial
  | r :: ranges, c :: coords =>
    have := decidableInRanges ranges coords
    inferInstanceAs (Decidable ((r.1 ≤ c ∧ c < r.2) ∧ InRanges ranges coords))
  | [], _ :: _ => .isFalse id
  | _ :: _, [] => .isFalse id

/-- The range of the coordinates along each dimension. -/
def fullRanges (shape : List Int) : List (Int × Int) := shape.map fun d => (0, d)

/-- Coordinates of an element of a shape. -/
def InShape (shape coords : List Int) : Prop := InRanges (fullRanges shape) coords

instance (shape coords : List Int) : Decidable (InShape shape coords) :=
  decidableInRanges _ _

variable {coords shape : List Int} {d position : Int}

@[simp]
theorem inShape_nil_iff : InShape [] coords ↔ coords = [] := by
  cases coords <;> simp [InShape, fullRanges, InRanges]

@[simp]
theorem inShape_cons_cons {c : Int} :
    InShape (d :: shape) (c :: coords) ↔ (0 ≤ c ∧ c < d) ∧ InShape shape coords := Iff.rfl

theorem inRanges_cons {r : Int × Int} {ranges : List (Int × Int)} : InRanges (r :: ranges) coords ↔
    ∃ c rest, coords = c :: rest ∧ (r.1 ≤ c ∧ c < r.2) ∧ InRanges ranges rest := by
  cases coords <;> simp [InRanges]

theorem inShape_cons : InShape (d :: shape) coords ↔
    ∃ c rest, coords = c :: rest ∧ (0 ≤ c ∧ c < d) ∧ InShape shape rest := inRanges_cons

theorem InRanges.length_eq {ranges : List (Int × Int)} (h : InRanges ranges coords) :
    coords.length = ranges.length := by
  induction ranges generalizing coords with
  | nil => cases coords <;> simp_all [InRanges]
  | cons r ranges ih =>
    obtain ⟨c, coords, rfl, -, h⟩ := inRanges_cons.mp h
    simp [ih h]

theorem InShape.length_eq (h : InShape shape coords) : coords.length = shape.length := by
  simpa [fullRanges] using InRanges.length_eq h

theorem InShape.dims_pos (h : InShape shape coords) : ∀ d ∈ shape, 0 < d := by
  induction shape generalizing coords with
  | nil => simp
  | cons e shape ih =>
    obtain ⟨c, coords, rfl, hc, h⟩ := inShape_cons.mp h
    exact List.forall_mem_cons.mpr ⟨Int.lt_of_le_of_lt hc.1 hc.2, ih h⟩

/-! ### Products and weighted sums -/

@[simp]
theorem product_nil : product [] = 1 := rfl

@[simp]
theorem product_cons (d : Int) (shape : List Int) : product (d :: shape) = d * product shape := rfl

theorem product_append (xs ys : List Int) : product (xs ++ ys) = product xs * product ys := by
  induction xs with
  | nil => simp
  | cons x xs ih => simp [ih, mul_assoc]

theorem product_pos (h : ∀ d ∈ shape, 0 < d) : 0 < product shape := by
  induction shape with
  | nil => simp
  | cons d shape ih =>
    exact mul_pos (h d (by simp)) (ih fun e he => h e (by simp [he]))

theorem product_nonneg (h : ∀ d ∈ shape, 0 ≤ d) : 0 ≤ product shape := by
  induction shape with
  | nil => simp
  | cons d shape ih =>
    exact mul_nonneg (h d (by simp)) (ih fun e he => h e (by simp [he]))

theorem product_suffix_le {rest : List Int} (h : ∀ d ∈ shape, 0 < d) (hrest : rest <:+ shape) :
    product rest ≤ product shape := by
  obtain ⟨front, rfl⟩ := hrest
  have hfront : 0 < product front := product_pos fun d hd => h d (by simp [hd])
  have hback : 0 < product rest := product_pos fun d hd => h d (by simp [hd])
  rw [product_append]
  exact le_mul_of_one_le_left hback.le hfront

theorem product_eq_zero_iff : product shape = 0 ↔ 0 ∈ shape := by
  induction shape with
  | nil => simp
  | cons d shape ih => simp [ih, eq_comm]

namespace Merge

theorem foldl_add_eq (xs : List Int) (a : Int) : xs.foldl (· + ·) a = a + xs.foldl (· + ·) 0 := by
  induction xs generalizing a with
  | nil => simp
  | cons x xs ih =>
    simp only [List.foldl_cons]
    rw [ih (a + x), ih (0 + x)]
    ring

@[simp]
theorem dot_nil_left (ys : List Int) : dot [] ys = 0 := rfl

@[simp]
theorem dot_nil_right (xs : List Int) : dot xs [] = 0 := by cases xs <;> rfl

@[simp]
theorem dot_cons_cons (x y : Int) (xs ys : List Int) :
    dot (x :: xs) (y :: ys) = x * y + dot xs ys := by
  simp only [dot, List.zipWith_cons_cons, List.foldl_cons, zero_add]
  exact foldl_add_eq _ _

theorem dot_comm (xs ys : List Int) : dot xs ys = dot ys xs := by
  induction xs generalizing ys with
  | nil => simp
  | cons x xs ih =>
    cases ys with
    | nil => simp
    | cons y ys => rw [dot_cons_cons, dot_cons_cons, ih, mul_comm]

end Merge

/-! ### Positions -/

/-- The number of elements of a shape before the given coordinates. -/
def ravel : List Int → List Int → Int
  | _ :: shape, c :: coords => c * product shape + ravel shape coords
  | _, _ => 0

theorem ravel_nonneg_and_lt (h : InShape shape coords) :
    0 ≤ ravel shape coords ∧ ravel shape coords < product shape := by
  induction shape generalizing coords with
  | nil => simp [ravel]
  | cons d shape ih =>
    obtain ⟨c, coords, rfl, ⟨hc, hcd⟩, hin⟩ := inShape_cons.mp h
    obtain ⟨hlow, hhigh⟩ := ih hin
    have hsize : 0 < product shape := by omega
    have hstep : (c + 1) * product shape ≤ d * product shape :=
      mul_le_mul_of_nonneg_right hcd hsize.le
    have hbase : 0 ≤ c * product shape := mul_nonneg hc hsize.le
    simp only [ravel, product_cons]
    constructor
    · omega
    · rw [add_mul, one_mul] at hstep
      omega

theorem unravelRest_ravel (h : InShape shape coords) (above : Int) :
    unravelRest shape (above * product shape + ravel shape coords) = (coords, above) := by
  induction shape generalizing coords above with
  | nil =>
    obtain rfl : coords = [] := by simpa using h
    simp [unravelRest, ravel]
  | cons d shape ih =>
    obtain ⟨c, coords, rfl, ⟨hc, hcd⟩, hin⟩ := inShape_cons.mp h
    have hsplit : above * product (d :: shape) + ravel (d :: shape) (c :: coords)
        = (above * d + c) * product shape + ravel shape coords := by
      simp only [product_cons, ravel]
      ring
    have hpos : 0 < d := by omega
    have hmod : (above * d + c) % d = c := by
      rw [Int.add_comm, Int.add_mul_emod_self_right, Int.emod_eq_of_lt hc hcd]
    have hdiv : (above * d + c) / d = above := by
      rw [Int.add_comm, Int.add_mul_ediv_right _ _ (by omega), Int.ediv_eq_zero_of_lt hc hcd,
        zero_add]
    rw [hsplit, unravelRest, ih hin (above * d + c)]
    simp [hpos, hmod, hdiv]

theorem unravel_ravel (h : InShape shape coords) : unravel shape (ravel shape coords) = coords := by
  have hrest := unravelRest_ravel h 0
  rw [zero_mul, zero_add] at hrest
  rw [unravel, hrest]

theorem unravelRest_spec (hpos : ∀ d ∈ shape, 0 < d) (position : Int) :
    InShape shape (unravelRest shape position).1 ∧
      position = (unravelRest shape position).2 * product shape
        + ravel shape (unravelRest shape position).1 := by
  induction shape with
  | nil => simp [unravelRest, ravel]
  | cons d shape ih =>
    obtain ⟨hin, heq⟩ := ih fun e he => hpos e (by simp [he])
    have hd : 0 < d := hpos d (by simp)
    simp only [unravelRest, hd, if_true]
    set rest := unravelRest shape position with hrest
    refine ⟨⟨⟨Int.emod_nonneg _ (by omega), Int.emod_lt_of_pos _ hd⟩, hin⟩, ?_⟩
    simp only [product_cons, ravel]
    have hdivmod : rest.2 = d * (rest.2 / d) + rest.2 % d := (Int.mul_ediv_add_emod rest.2 d).symm
    calc position = rest.2 * product shape + ravel shape rest.1 := heq
      _ = (d * (rest.2 / d) + rest.2 % d) * product shape + ravel shape rest.1 := by
          rw [← hdivmod]
      _ = rest.2 / d * (d * product shape)
            + (rest.2 % d * product shape + ravel shape rest.1) := by ring

theorem inShape_unravel (hpos : ∀ d ∈ shape, 0 < d) (position : Int) :
    InShape shape (unravel shape position) := (unravelRest_spec hpos position).1

theorem dims_pos_of_lt_product (hdims : ∀ d ∈ shape, 0 ≤ d) (hlow : 0 ≤ position)
    (hhigh : position < product shape) : ∀ d ∈ shape, 0 < d := by
  intro d hd
  have hne : d ≠ 0 := by
    rintro rfl
    have hzero : product shape = 0 := product_eq_zero_iff.mpr hd
    omega
  have := hdims d hd
  omega

theorem ravel_unravel (hdims : ∀ d ∈ shape, 0 ≤ d) (hlow : 0 ≤ position)
    (hhigh : position < product shape) : ravel shape (unravel shape position) = position := by
  obtain ⟨hin, heq⟩ := unravelRest_spec (dims_pos_of_lt_product hdims hlow hhigh) position
  obtain ⟨hrlow, hrhigh⟩ := ravel_nonneg_and_lt hin
  have hquotient : (unravelRest shape position).2 = 0 := by
    have hsize : 0 < product shape := by omega
    by_contra hne
    rcases lt_or_gt_of_ne hne with hneg | hgt
    · have : (unravelRest shape position).2 * product shape ≤ -1 * product shape :=
        mul_le_mul_of_nonneg_right (by omega) hsize.le
      omega
    · have : 1 * product shape ≤ (unravelRest shape position).2 * product shape :=
        mul_le_mul_of_nonneg_right (by omega) hsize.le
      omega
  rw [hquotient, zero_mul, zero_add] at heq
  exact heq.symm

/-! ### Strides and sizes -/

/-- The row-major strides of a shape, zero along dimensions of size one. -/
def rowStrides : List Int → List Int
  | [] => []
  | d :: shape => (if d = 1 then 0 else product shape) :: rowStrides shape

@[simp]
theorem length_rowStrides (shape : List Int) : (rowStrides shape).length = shape.length := by
  induction shape with
  | nil => rfl
  | cons d shape ih => simp [rowStrides, ih]

theorem dot_rowStrides (h : InShape shape coords) :
    Merge.dot (rowStrides shape) coords = ravel shape coords := by
  induction shape generalizing coords with
  | nil => simp [rowStrides, ravel]
  | cons d shape ih =>
    obtain ⟨c, coords, rfl, ⟨hc, hcd⟩, hin⟩ := inShape_cons.mp h
    simp only [rowStrides, ravel, Merge.dot_cons_cons, ih hin]
    split
    · obtain rfl : c = 0 := by omega
      simp
    · ring

section Exact

variable [Width] {bound : Int} (hexact : Width.ExactTo bound) {xs : List Int}
include hexact

theorem rowMajorSize_const (hdims : ∀ d ∈ shape, 0 ≤ d)
    (hfit : ∀ rest, rest <:+ shape → product rest ≤ bound) :
    rowMajorSize (shape.map .const)
      = ((rowStrides shape).map .const, .const (product shape)) := by
  induction shape with
  | nil => rfl
  | cons d shape ih =>
    rw [List.forall_mem_cons] at hdims
    have hsize : 0 ≤ product shape := product_nonneg hdims.2
    have hall := hfit _ List.suffix_rfl
    have hnonneg : 0 ≤ d * product shape := mul_nonneg hdims.1 hsize
    have htail := ih hdims.2 fun rest hrest => hfit rest (hrest.trans (List.suffix_cons d shape))
    rw [product_cons] at hall
    have hmul : SymInt.const (product shape) * SymInt.const d
        = SymInt.const (d * product shape) := by
      rw [SymInt.mul_const hexact ⟨by linarith, by linarith⟩, mul_comm]
    simp only [List.map_cons, rowMajorSize, htail, rowStrides, product_cons, hmul,
      SymInt.const_eq_one_iff]
    congr 2
    split <;> rfl

theorem foldl_mul_const_zero (xs : List Int) (hbound : 0 ≤ bound) :
    (xs.map SymInt.const).foldl (· * ·) (SymInt.const 0) = .const 0 := by
  induction xs with
  | nil => rfl
  | cons x xs ih =>
    simp only [List.map_cons, List.foldl_cons]
    rwa [SymInt.mul_const hexact (by simpa using hbound), zero_mul]

theorem foldl_mul_const_of_zero_mem (hbound : 0 ≤ bound) (hzero : 0 ∈ xs) (a : Int) :
    (xs.map SymInt.const).foldl (· * ·) (SymInt.const a) = .const 0 := by
  induction xs generalizing a with
  | nil => simp at hzero
  | cons x xs ih =>
    simp only [List.map_cons, List.foldl_cons]
    by_cases hx : x = 0
    · subst hx
      rw [SymInt.mul_const hexact (by simpa using hbound), mul_zero]
      exact foldl_mul_const_zero hexact xs hbound
    · rw [SymInt.const_mul_const]
      exact ih ((List.mem_cons.mp hzero).resolve_left (Ne.symm hx)) _

theorem foldl_mul_const_of_pos (hpos : ∀ d ∈ xs, 0 < d) {a : Int} (ha : 0 < a)
    (hfit : a * product xs ≤ bound) :
    (xs.map SymInt.const).foldl (· * ·) (SymInt.const a) = .const (a * product xs) := by
  induction xs generalizing a with
  | nil => simp
  | cons x xs ih =>
    have hx : 0 < x := hpos x (by simp)
    have hrest : ∀ d ∈ xs, 0 < d := fun d hd => hpos d (by simp [hd])
    have hsize : 0 < product xs := product_pos hrest
    have hax : 0 < a * x := mul_pos ha hx
    rw [product_cons, ← mul_assoc] at hfit
    have hgrow : a * x ≤ a * x * product xs := le_mul_of_one_le_right hax.le hsize
    simp only [List.map_cons, List.foldl_cons]
    rw [SymInt.mul_const hexact ⟨by linarith, by linarith⟩, ih hrest hax hfit, product_cons,
      mul_assoc]

theorem prod_const (hdims : ∀ d ∈ shape, 0 ≤ d) (hfit : product shape ≤ bound) :
    SymInt.prod (shape.map .const) = .const (product shape) := by
  have hbound : 0 ≤ bound := (product_nonneg hdims).trans hfit
  show (shape.map SymInt.const).foldl (· * ·) (SymInt.const 1) = _
  by_cases hzero : 0 ∈ shape
  · rw [foldl_mul_const_of_zero_mem hexact hbound hzero, product_eq_zero_iff.mpr hzero]
  · have hpos : ∀ d ∈ shape, 0 < d := by
      intro d hd
      have hne : d ≠ 0 := fun heq => hzero (heq ▸ hd)
      have := hdims d hd
      omega
    rw [foldl_mul_const_of_pos hexact hpos Int.one_pos (by simpa using hfit), one_mul]

end Exact

end LazyTensor

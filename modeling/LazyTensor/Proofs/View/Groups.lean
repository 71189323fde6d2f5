import LazyTensor.Proofs.View.Affine

/-!
# Coalescing dimensions into groups

The groups of a view are the digits of a mixed radix numeral: a position in the shape has one digit
per group, the digits weighed by the groups' strides give the offset of the element, and the masks
of the groups decide whether it exists.
-/

namespace LazyTensor.Merge

/-- The digits of a position in groups that are listed from the last to the first. -/
def digits : List Group → Int → List Int
  | [], _ => []
  | g :: rest, position => position % g.size :: digits rest (position / g.size)

/-- The position that digits stand for. -/
def digitsValue : List Group → List Int → Int
  | g :: rest, x :: xs => x + g.size * digitsValue rest xs
  | _, _ => 0

def Group.Admits (g : Group) (x : Int) : Prop := ∀ r, g.mask = some r → r.1 ≤ x ∧ x < r.2

/-- Every digit lies in the mask of its group. -/
def Admitted (groups : List Group) (xs : List Int) : Prop :=
  ∀ p ∈ groups.zip xs, p.1.Admits p.2

@[simp]
theorem admitted_nil (xs : List Int) : Admitted [] xs := by simp [Admitted]

variable {g : Group} {x : Int} {groups : List Group} {xs : List Int}

@[simp]
theorem admitted_cons_cons :
    Admitted (g :: groups) (x :: xs) ↔ g.Admits x ∧ Admitted groups xs := by
  simp [Admitted]

@[simp]
theorem length_digits (groups : List Group) (position : Int) :
    (digits groups position).length = groups.length := by
  induction groups generalizing position with
  | nil => rfl
  | cons g groups ih => simp [digits, ih]

/-! ### One dimension -/

section Step

variable {size stride : Int} {range : Int × Int} {groups : List Group} {position c : Int}

theorem addDimension_cases (groups : List Group) (size stride : Int) (range : Int × Int) :
    (size = 1 ∧ addDimension groups (size, stride, range) = groups) ∨
      (range = (0, size) ∧ ∃ g rest, groups = g :: rest ∧ g.mask = none ∧
        g.stride = size * stride ∧ addDimension groups (size, stride, range)
          = { g with size := g.size * size, stride := stride } :: rest) ∨
      ∃ mask, (mask = none → range = (0, size)) ∧ (∀ r, mask = some r → r = range) ∧
        addDimension groups (size, stride, range) = ⟨size, stride, 0, mask⟩ :: groups := by
  unfold addDimension
  by_cases hone : size = 1
  · exact .inl ⟨hone, by simp [hone]⟩
  right
  simp only [hone, if_false]
  by_cases hfull : range = (0, size)
  · simp only [hfull, if_true, true_and]
    cases groups with
    | nil => exact .inr ⟨none, by simp, by simp, rfl⟩
    | cons g rest =>
      by_cases hmerge : g.mask.isNone ∧ g.stride = size * stride
      · exact .inl ⟨g, rest, rfl, by simpa using hmerge.1, hmerge.2, by simp [hmerge]⟩
      · exact .inr ⟨none, by simp, by simp, if_neg (by simpa using hmerge)⟩
  · simp only [hfull, if_false, false_and, false_or]
    exact ⟨some range, by simp, by simp, by cases groups <;> simp⟩

theorem emod_of_digit (hc : 0 ≤ c) (hcd : c < size) : (position * size + c) % size = c := by
  rw [Int.add_comm, Int.add_mul_emod_self_right, Int.emod_eq_of_lt hc hcd]

theorem ediv_of_digit (hc : 0 ≤ c) (hcd : c < size) : (position * size + c) / size = position := by
  rw [Int.add_comm, Int.add_mul_ediv_right _ _ (by omega), Int.ediv_eq_zero_of_lt hc hcd, zero_add]

theorem digit_of_merge {upper : Int} (position : Int) (hupper : 0 < upper) (hc : 0 ≤ c)
    (hcd : c < size) :
    (position * size + c) % (upper * size) = position % upper * size + c ∧
      (position * size + c) / (upper * size) = position / upper := by
  have hsize : 0 < size := by omega
  have hmod : 0 ≤ position % upper := Int.emod_nonneg _ (by omega)
  have hmod' : position % upper < upper := Int.emod_lt_of_pos _ hupper
  have hsplit : position * size + c
      = position / upper * (upper * size) + (position % upper * size + c) := by
    conv_lhs => rw [← Int.mul_ediv_add_emod position upper]
    ring
  have hlow : 0 ≤ position % upper * size + c := add_nonneg (mul_nonneg hmod hsize.le) hc
  have hhigh : position % upper * size + c < upper * size := by nlinarith
  rw [hsplit]
  exact ⟨emod_of_digit hlow hhigh, ediv_of_digit hlow hhigh⟩

theorem digits_addDimension (stride : Int) (hgroups : ∀ g ∈ groups, 0 < g.size) (hc : 0 ≤ c)
    (hcd : c < size) (hrange : size = 1 → range = (0, 1)) (position : Int) :
    dot ((addDimension groups (size, stride, range)).map (·.stride))
          (digits (addDimension groups (size, stride, range)) (position * size + c))
        = stride * c + dot (groups.map (·.stride)) (digits groups position) ∧
      (Admitted (addDimension groups (size, stride, range))
          (digits (addDimension groups (size, stride, range)) (position * size + c))
        ↔ (range.1 ≤ c ∧ c < range.2) ∧ Admitted groups (digits groups position)) := by
  rcases addDimension_cases groups size stride range with
    ⟨rfl, heq⟩ | ⟨rfl, g, rest, rfl, hmask, hstride, heq⟩ | ⟨mask, hnone, hsome, heq⟩
  · obtain rfl := hrange rfl
    obtain rfl : c = 0 := by omega
    simp [heq]
  · obtain ⟨hmod, hdiv⟩ := digit_of_merge position (hgroups g (by simp)) hc hcd
    simp only [heq, List.map_cons, digits, dot_cons_cons, admitted_cons_cons, hmod, hdiv, hstride]
    constructor
    · ring
    · simp [Group.Admits, hmask, hc, hcd]
  · simp only [heq, List.map_cons, digits, dot_cons_cons, admitted_cons_cons, emod_of_digit hc hcd,
      ediv_of_digit hc hcd, true_and]
    refine and_congr_left fun _ => ?_
    cases mask with
    | none => simp [Group.Admits, hnone rfl, hc, hcd]
    | some r => simp [Group.Admits, hsome r rfl]

theorem addDimension_size_pos (hgroups : ∀ g ∈ groups, 0 < g.size) (hsize : 0 < size) :
    ∀ g ∈ addDimension groups (size, stride, range), 0 < g.size := by
  rcases addDimension_cases groups size stride range with
    ⟨-, heq⟩ | ⟨-, g, rest, rfl, -, -, heq⟩ | ⟨mask, -, -, heq⟩
  · rwa [heq]
  · simp only [heq, List.forall_mem_cons] at hgroups ⊢
    exact ⟨mul_pos hgroups.1 hsize, hgroups.2⟩
  · simp only [heq, List.forall_mem_cons]
    exact ⟨hsize, hgroups⟩

theorem product_sizes_addDimension (groups : List Group) (size stride : Int) (range : Int × Int) :
    product ((addDimension groups (size, stride, range)).map (·.size))
      = product (groups.map (·.size)) * size := by
  rcases addDimension_cases groups size stride range with
    ⟨rfl, heq⟩ | ⟨-, g, rest, rfl, -, -, heq⟩ | ⟨mask, -, -, heq⟩
  · rw [heq, mul_one]
  · simp only [heq, List.map_cons, product_cons]
    ring
  · simp only [heq, List.map_cons, product_cons]
    ring

end Step

/-! ### All dimensions -/

/-- The groups of dimensions that follow those in `groups`. -/
def addDimensions (groups : List Group) (shape strides : List Int) (ranges : List (Int × Int)) :
    List Group :=
  (shape.zip (strides.zip ranges)).foldl addDimension groups

theorem addDimensions_cons (groups : List Group) (d s : Int) (r : Int × Int)
    (shape strides : List Int) (ranges : List (Int × Int)) :
    addDimensions groups (d :: shape) (s :: strides) (r :: ranges)
      = addDimensions (addDimension groups (d, s, r)) shape strides ranges := rfl

/-- A range that is not empty is all of a dimension of size one. -/
def UnitRanges : List Int → List (Int × Int) → Prop
  | d :: shape, r :: ranges => (d = 1 → r = (0, 1)) ∧ UnitRanges shape ranges
  | _, _ => True

theorem unitRanges_of_nonempty {shape : List Int} {ranges : List (Int × Int)}
    (hinside : RangesInside ranges shape) (hnonempty : ∀ r ∈ ranges, r.1 < r.2) :
    UnitRanges shape ranges := by
  induction ranges generalizing shape with
  | nil => cases shape <;> trivial
  | cons r ranges ih =>
    cases shape with
    | nil => trivial
    | cons d shape =>
      obtain ⟨⟨hstart, -, -, hstop⟩, hrest⟩ := hinside
      simp only [List.forall_mem_cons] at hnonempty
      refine ⟨fun hd => Prod.ext ?_ ?_, ih hrest hnonempty.2⟩ <;> simp only <;> omega

section Fold

variable {shape strides : List Int} {ranges : List (Int × Int)} {groups : List Group}

theorem addDimensions_size_pos (hgroups : ∀ g ∈ groups, 0 < g.size) (hshape : ∀ d ∈ shape, 0 < d) :
    ∀ g ∈ addDimensions groups shape strides ranges, 0 < g.size := by
  induction shape generalizing strides ranges groups with
  | nil => exact hgroups
  | cons d shape ih =>
    cases strides with
    | nil => exact hgroups
    | cons s strides =>
    cases ranges with
    | nil => exact hgroups
    | cons r ranges =>
      rw [List.forall_mem_cons] at hshape
      exact ih (addDimension_size_pos hgroups hshape.1) hshape.2

theorem product_sizes_addDimensions (groups : List Group) (hstrides : strides.length = shape.length)
    (hranges : ranges.length = shape.length) :
    product ((addDimensions groups shape strides ranges).map (·.size))
      = product (groups.map (·.size)) * product shape := by
  induction shape generalizing strides ranges groups with
  | nil => simp [addDimensions]
  | cons d shape ih =>
    cases strides with
    | nil => simp at hstrides
    | cons s strides =>
    cases ranges with
    | nil => simp at hranges
    | cons r ranges =>
      rw [addDimensions_cons, ih _ (by simpa using hstrides) (by simpa using hranges),
        product_sizes_addDimension, product_cons, mul_assoc]

theorem digits_addDimensions {coords : List Int} (hgroups : ∀ g ∈ groups, 0 < g.size)
    (hin : InShape shape coords) (hstrides : strides.length = shape.length)
    (hranges : ranges.length = shape.length) (hunits : UnitRanges shape ranges) (position : Int) :
    dot ((addDimensions groups shape strides ranges).map (·.stride))
          (digits (addDimensions groups shape strides ranges)
            (position * product shape + ravel shape coords))
        = dot strides coords + dot (groups.map (·.stride)) (digits groups position) ∧
      (Admitted (addDimensions groups shape strides ranges)
          (digits (addDimensions groups shape strides ranges)
            (position * product shape + ravel shape coords))
        ↔ InRanges ranges coords ∧ Admitted groups (digits groups position)) := by
  induction shape generalizing strides ranges groups coords position with
  | nil =>
    obtain rfl : coords = [] := by simpa using hin
    obtain rfl : ranges = [] := by simpa using hranges
    simp [addDimensions, ravel, InRanges]
  | cons d shape ih =>
    cases strides with
    | nil => simp at hstrides
    | cons s strides =>
    cases ranges with
    | nil => simp at hranges
    | cons r ranges =>
    obtain ⟨c, coords, rfl, ⟨hc, hcd⟩, hin⟩ := inShape_cons.mp hin
    obtain ⟨hunit, hunits⟩ := hunits
    have hposition : position * product (d :: shape) + ravel (d :: shape) (c :: coords)
        = (position * d + c) * product shape + ravel shape coords := by
      simp only [product_cons, ravel]
      ring
    obtain ⟨hdot, hadmitted⟩ := digits_addDimension s hgroups hc hcd hunit position
    obtain ⟨hdots, hall⟩ := ih (addDimension_size_pos hgroups (hc.trans_lt hcd)) hin
      (by simpa using hstrides) (by simpa using hranges) hunits (position * d + c)
    rw [addDimensions_cons, hposition, hdots, hall, hdot, hadmitted, dot_cons_cons]
    constructor
    · ring
    · rw [← and_assoc, and_comm (a := InRanges ranges coords)]
      rfl

end Fold

/-! ### Digits and logical strides -/

/-- Digits that each lie below the size of their group. -/
def InGroups (groups : List Group) (xs : List Int) : Prop :=
  xs.length = groups.length ∧ ∀ p ∈ groups.zip xs, 0 ≤ p.2 ∧ p.2 < p.1.size

theorem inGroups_cons_cons :
    InGroups (g :: groups) (x :: xs) ↔ (0 ≤ x ∧ x < g.size) ∧ InGroups groups xs := by
  simp only [InGroups, List.length_cons, Nat.add_right_cancel_iff, List.zip_cons_cons,
    List.forall_mem_cons]
  tauto

theorem inGroups_digits (hgroups : ∀ g ∈ groups, 0 < g.size) (position : Int) :
    InGroups groups (digits groups position) := by
  induction groups generalizing position with
  | nil => simp [InGroups, digits]
  | cons g groups ih =>
    rw [List.forall_mem_cons] at hgroups
    rw [digits, inGroups_cons_cons]
    exact ⟨⟨Int.emod_nonneg _ hgroups.1.ne', Int.emod_lt_of_pos _ hgroups.1⟩, ih hgroups.2 _⟩

theorem digits_digitsValue (h : InGroups groups xs) :
    digits groups (digitsValue groups xs) = xs := by
  induction groups generalizing xs with
  | nil => exact (List.eq_nil_of_length_eq_zero h.1).symm
  | cons g groups ih =>
    cases xs with
    | nil => simp [InGroups] at h
    | cons x xs =>
      obtain ⟨⟨hx, hx'⟩, hxs⟩ := inGroups_cons_cons.mp h
      have hvalue : digitsValue (g :: groups) (x :: xs)
          = digitsValue groups xs * g.size + x := by
        simp only [digitsValue]
        ring
      rw [hvalue, digits, emod_of_digit hx hx', ediv_of_digit hx hx', ih hxs]

theorem digitsValue_digits (hgroups : ∀ g ∈ groups, 0 < g.size) {position : Int}
    (hlow : 0 ≤ position) (hhigh : position < product (groups.map (·.size))) :
    digitsValue groups (digits groups position) = position := by
  induction groups generalizing position with
  | nil =>
    simp only [List.map_nil, product_nil] at hhigh
    simp only [digitsValue]
    omega
  | cons g groups ih =>
    rw [List.forall_mem_cons] at hgroups
    rw [List.map_cons, product_cons] at hhigh
    have hquotient : position / g.size < product (groups.map (·.size)) :=
      Int.ediv_lt_of_lt_mul hgroups.1 (by linarith)
    rw [digits, digitsValue, ih hgroups.2 (Int.ediv_nonneg hlow hgroups.1.le) hquotient]
    exact Int.emod_add_mul_ediv position g.size

theorem dot_logical (groups : List Group) (hlength : xs.length = groups.length) (inside : Int) :
    dot ((withLogical inside groups).map (·.logical)) xs = inside * digitsValue groups xs := by
  induction groups generalizing xs inside with
  | nil =>
    obtain rfl : xs = [] := by simpa using hlength
    simp [withLogical, digitsValue]
  | cons g groups ih =>
    cases xs with
    | nil => simp at hlength
    | cons x xs =>
      have htail := ih (by simpa using hlength) (inside * g.size)
      simp only [withLogical, List.map_cons, dot_cons_cons, digitsValue, htail]
      ring

theorem coords_withLogical (hgroups : ∀ g ∈ groups, 0 < g.size) {base : Int} (hbase : 0 ≤ base)
    {inside : Int} (hinside : 0 < inside) :
    (withLogical inside groups).map (fun g => (base.tdiv g.logical).tmod g.size)
      = digits groups (base / inside) := by
  induction groups generalizing inside with
  | nil => rfl
  | cons g groups ih =>
    rw [List.forall_mem_cons] at hgroups
    rw [withLogical, List.map_cons, digits, ih hgroups.2 (mul_pos hinside hgroups.1),
      ← Int.ediv_ediv_of_nonneg hinside.le, Int.tdiv_eq_ediv_of_nonneg hbase,
      Int.tmod_eq_emod_of_nonneg (Int.ediv_nonneg hbase hinside.le)]

/-! Filling in logical strides changes nothing else about the groups. -/

section WithLogical

variable (inside : Int) (groups : List Group)

theorem map_withLogical {α : Type} (f : Group → α) (hf : ∀ g logical, f { g with logical } = f g) :
    (withLogical inside groups).map f = groups.map f := by
  induction groups generalizing inside with
  | nil => rfl
  | cons g groups ih => rw [withLogical, List.map_cons, List.map_cons, ih, hf]

@[simp]
theorem length_withLogical : (withLogical inside groups).length = groups.length := by
  simpa using congrArg List.length (map_withLogical inside groups (·.size) fun _ _ => rfl)

theorem admitted_withLogical : Admitted (withLogical inside groups) xs ↔ Admitted groups xs := by
  induction groups generalizing inside xs with
  | nil => rfl
  | cons g groups ih =>
    cases xs with
    | nil => simp [Admitted]
    | cons x xs =>
      rw [withLogical, admitted_cons_cons, admitted_cons_cons, ih]
      rfl

theorem inGroups_withLogical : InGroups (withLogical inside groups) xs ↔ InGroups groups xs := by
  induction groups generalizing inside xs with
  | nil => rfl
  | cons g groups ih =>
    cases xs with
    | nil => simp [InGroups]
    | cons x xs => rw [withLogical, inGroups_cons_cons, inGroups_cons_cons, ih]

end WithLogical

/-! ### The groups of a view -/

section Reverse

variable {groups : List Group} {xs : List Int}

theorem dot_eq_sum (xs ys : List Int) : dot xs ys = (xs.zipWith (· * ·) ys).sum := by
  rw [dot, List.sum_eq_foldl]

theorem dot_reverse {ys : List Int} (hlength : xs.length = ys.length) :
    dot xs.reverse ys.reverse = dot xs ys := by
  rw [dot_eq_sum, dot_eq_sum, ← List.reverse_zipWith hlength, List.sum_reverse]

theorem admitted_reverse (hlength : xs.length = groups.length) :
    Admitted groups.reverse xs.reverse ↔ Admitted groups xs := by
  simp only [Admitted, List.zip, ← List.reverse_zipWith hlength.symm, List.mem_reverse]

theorem inGroups_reverse : InGroups groups.reverse xs.reverse ↔ InGroups groups xs := by
  simp only [InGroups, List.length_reverse]
  refine and_congr_right fun hlength => ?_
  simp only [List.zip, ← List.reverse_zipWith hlength.symm, List.mem_reverse]

end Reverse

namespace Affine

variable {a : Affine} (hwell : a.WellFormed) (hdims : ∀ d ∈ a.shape, 0 < d)
  (hnonempty : ∀ r ∈ a.ranges, r.1 < r.2)

theorem coalesce_eq (a : Affine) :
    coalesce a = (withLogical 1 (addDimensions [] a.shape a.strides a.ranges)).reverse := rfl

include hwell hdims in
theorem coalesce_coords {base : Int} (hlow : 0 ≤ base) (hhigh : base < product a.shape) :
    InGroups (coalesce a) ((coalesce a).map fun g => (base.tdiv g.logical).tmod g.size) ∧
      dot ((coalesce a).map (·.logical))
        ((coalesce a).map fun g => (base.tdiv g.logical).tmod g.size) = base := by
  have hpos : ∀ g ∈ addDimensions [] a.shape a.strides a.ranges, 0 < g.size :=
    addDimensions_size_pos (by simp) hdims
  have hsize := product_sizes_addDimensions [] hwell.length_strides hwell.inside.length_eq
  rw [List.map_nil, product_nil, one_mul] at hsize
  have hcoords := coords_withLogical hpos hlow Int.one_pos
  rw [Int.ediv_one] at hcoords
  rw [coalesce_eq, List.map_reverse, List.map_reverse, hcoords, inGroups_reverse,
    inGroups_withLogical, dot_reverse (by simp), dot_logical _ (by simp), one_mul]
  exact ⟨inGroups_digits hpos base, digitsValue_digits hpos hlow (hsize ▸ hhigh)⟩

include hwell hdims hnonempty in
theorem index_unravel_dot (hin : InGroups (coalesce a) xs)
    (hlow : 0 ≤ dot ((coalesce a).map (·.logical)) xs)
    (hhigh : dot ((coalesce a).map (·.logical)) xs < product a.shape) :
    (Admitted (coalesce a) xs →
      a.index (unravel a.shape (dot ((coalesce a).map (·.logical)) xs))
        = some (a.offset + dot ((coalesce a).map (·.stride)) xs)) ∧
      (¬ Admitted (coalesce a) xs →
        a.index (unravel a.shape (dot ((coalesce a).map (·.logical)) xs)) = none) := by
  set position := dot ((coalesce a).map (·.logical)) xs with hposition
  set groups := addDimensions [] a.shape a.strides a.ranges with hgroups
  obtain ⟨ys, rfl⟩ : ∃ ys, xs = ys.reverse := ⟨xs.reverse, by simp⟩
  rw [coalesce_eq, inGroups_reverse, inGroups_withLogical] at hin
  rw [coalesce_eq, List.map_reverse, dot_reverse (by simp [hin.1]), dot_logical _ hin.1,
    one_mul] at hposition
  rw [coalesce_eq, admitted_reverse (by simp [hin.1]), admitted_withLogical, List.map_reverse,
    dot_reverse (by simp [hin.1]), map_withLogical 1 _ (·.stride) fun _ _ => rfl]
  have hdigits : digits groups position = ys := by rw [hposition, digits_digitsValue hin]
  have hnil : ∀ g ∈ ([] : List Group), 0 < g.size := by simp
  obtain ⟨hdot, hadmitted⟩ := digits_addDimensions hnil
    (inShape_unravel hdims position) hwell.length_strides hwell.inside.length_eq
    (unitRanges_of_nonempty hwell.inside hnonempty) 0
  rw [zero_mul, zero_add, ravel_unravel hwell.dims_nonneg hlow hhigh, ← hgroups, hdigits]
    at hdot hadmitted
  simp only [List.map_nil, dot_nil_left, add_zero, admitted_nil, and_true] at hdot hadmitted
  rw [hdot, hadmitted]
  exact ⟨index_of_inRanges, index_of_not_inRanges⟩

end Affine

end LazyTensor.Merge

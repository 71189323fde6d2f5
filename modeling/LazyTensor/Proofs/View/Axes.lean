import LazyTensor.Proofs.View.Groups

/-!
# Moving along the axes of an outer view

An axis that is assigned to a group changes only the digit of that group, by its step. Where no
digit leaves its group, the digits of a position are those of the first valid position moved by the
axes.
-/

namespace LazyTensor.Merge

def Axis.range (a : Axis) : Int × Int := (a.start, a.stop)

def Axis.pull (a : Axis) (g : Nat) : Int :=
  match a.target with
  | some (g', m) => if g' = g then m else 0
  | none => 0

/-- What one step along the axis is worth when the groups from `g` on have the given weights. -/
def Axis.weight (a : Axis) : (g : Nat) → List Int → Int
  | _, [] => 0
  | g, w :: ws => a.pull g * w + a.weight (g + 1) ws

/-- How far the coordinates are from the first valid ones. -/
def steps (axes : List Axis) (coords : List Int) : List Int :=
  axes.zipWith (fun a c => c - a.start) coords

/-- What an axis adds to the digit of its group. -/
def travel (coords : List Int) (mover : Nat × Axis × Int) : Int :=
  mover.2.2 * (coords.getD mover.1 0 - mover.2.1.start)

/-- What the axes add to the digit of group `g`. -/
def shift (axes : List Axis) (coords : List Int) (g : Nat) : Int :=
  ((movers axes g).map (travel coords)).sum

/-- The digits of the groups from `g` on after the axes have moved them. -/
def moved (axes : List Axis) (coords : List Int) : (g : Nat) → List Int → List Int
  | _, [] => []
  | g, x :: xs => (x + shift axes coords g) :: moved axes coords (g + 1) xs

/-! ### Weights -/

variable {α : Type} {a : Axis} {m stride x : Int} {axes : List Axis} {g : Nat}
  {mover : Nat × Axis × Int} {coords xs : List Int} {groups : List Group}
  {ranges : List (Int × Int)} {group : Group} {ms : List (Nat × Axis × Int)}

theorem Axis.weight_of_none (h : a.target = none) (g : Nat) (ws : List Int) :
    a.weight g ws = 0 := by
  induction ws generalizing g with
  | nil => rfl
  | cons w ws ih => simp [Axis.weight, Axis.pull, h, ih]

theorem Axis.weight_of_some {g' : Nat} (h : a.target = some (g', m)) (g : Nat) (ws : List Int) :
    a.weight g ws = if g ≤ g' then m * ws.getD (g' - g) 0 else 0 := by
  induction ws generalizing g with
  | nil => simp [Axis.weight]
  | cons w ws ih =>
    rw [Axis.weight, ih]
    rcases Nat.lt_trichotomy g g' with hlt | rfl | hgt
    · have hsub : g' - g = (g' - (g + 1)) + 1 := by omega
      rw [Axis.pull, h, if_pos hlt.le, hsub, List.getD_cons_succ]
      simp [hlt.ne', Nat.succ_le_of_lt hlt]
    · simp [Axis.pull, h]
    · have hne : ¬ g + 1 ≤ g' := by omega
      simp [Axis.pull, h, hne, hgt.ne, Nat.not_le.mpr hgt]

theorem newStride_eq_weight (groups : List Group) (a : Axis) :
    newStride groups a = a.weight 0 (groups.map (·.stride)) := by
  unfold newStride
  cases htarget : a.target with
  | none => simp [Axis.weight_of_none htarget]
  | some t =>
    rw [Axis.weight_of_some htarget]
    cases hgroup : groups[t.1]? with
    | none | some group => simp [hgroup]

theorem dot_map_add_mul (f h : α → Int) (w : Int) (as : List α) (ts : List Int) :
    dot (as.map fun a => f a * w + h a) ts = w * dot (as.map f) ts + dot (as.map h) ts := by
  induction as generalizing ts with
  | nil => simp
  | cons a as ih =>
    cases ts with
    | nil => simp
    | cons t ts =>
      simp only [List.map_cons, dot_cons_cons, ih]
      ring

/-- The axis at position `i` as a mover of group `g`, if it is one. -/
def Axis.moverAt? (a : Axis) (g i : Nat) : Option (Nat × Axis × Int) :=
  match a.target with
  | some (g', m) => if g' = g then some (i, a, m) else none
  | none => none

theorem movers_eq_filterMap (axes : List Axis) (g : Nat) :
    movers axes g = axes.zipIdx.filterMap fun p => p.1.moverAt? g p.2 := rfl

theorem Axis.moverAt?_succ (a : Axis) (g i : Nat) :
    a.moverAt? g (i + 1) = (a.moverAt? g i).map fun mover => (mover.1 + 1, mover.2) := by
  unfold Axis.moverAt?
  split
  · split <;> rfl
  · rfl

theorem movers_cons (a : Axis) (axes : List Axis) (g : Nat) :
    movers (a :: axes) g
      = (a.moverAt? g 0).toList ++ (movers axes g).map fun mover => (mover.1 + 1, mover.2) := by
  rw [movers_eq_filterMap, movers_eq_filterMap, List.zipIdx_cons', List.filterMap_cons,
    List.filterMap_map, List.map_filterMap]
  simp only [Function.comp_def, Prod.map, id, Axis.moverAt?_succ]
  cases a.moverAt? g 0 <;> rfl

theorem mem_movers :
    mover ∈ movers axes g ↔
      axes[mover.1]? = some mover.2.1 ∧ mover.2.1.target = some (g, mover.2.2) := by
  obtain ⟨i, a, m⟩ := mover
  rw [movers_eq_filterMap, List.mem_filterMap]
  constructor
  · rintro ⟨⟨b, j⟩, hmem, hmover⟩
    simp only [Axis.moverAt?] at hmover
    split at hmover
    · rename_i g' m' htarget
      split at hmover
      · subst_vars
        obtain ⟨rfl, rfl, rfl⟩ : j = i ∧ b = a ∧ m' = m := by simpa using hmover
        exact ⟨List.mem_zipIdx_iff_getElem?.mp hmem, htarget⟩
      · cases hmover
    · cases hmover
  · rintro ⟨haxis, htarget⟩
    exact ⟨(a, i), List.mem_zipIdx_iff_getElem?.mpr haxis, by simp_all [Axis.moverAt?]⟩

theorem shift_eq_dot (hlength : coords.length = axes.length) (g : Nat) :
    shift axes coords g = dot (axes.map (·.pull g)) (steps axes coords) := by
  induction axes generalizing coords with
  | nil => rfl
  | cons a axes ih =>
    cases coords with
    | nil => simp at hlength
    | cons c coords =>
      have htail := ih (by simpa using hlength : coords.length = axes.length)
      have hmoved : ((movers axes g).map fun mover => (mover.1 + 1, mover.2)).map
          (travel (c :: coords)) = (movers axes g).map (travel coords) := by
        rw [List.map_map]
        rfl
      rw [shift, movers_cons, List.map_append, List.sum_append, hmoved, ← shift, htail]
      simp only [List.map_cons, steps, List.zipWith_cons_cons, dot_cons_cons]
      congr 1
      unfold Axis.pull Axis.moverAt?
      split
      · split <;> simp [travel]
      · simp

theorem dot_moved {ws : List Int} (hlength : coords.length = axes.length)
    (hws : ws.length = xs.length) (g : Nat) :
    dot ws (moved axes coords g xs)
      = dot ws xs + dot (axes.map (·.weight g ws)) (steps axes coords) := by
  induction ws generalizing g xs with
  | nil =>
    have hzero : dot (axes.map fun _ => 0) (steps axes coords) = 0 := by
      simpa using dot_map_add_mul (fun _ => 0) (fun _ => 0) 1 axes (steps axes coords)
    simpa [Axis.weight] using hzero.symm
  | cons w ws ih =>
    cases xs with
    | nil => simp at hws
    | cons x xs =>
      simp only [moved, dot_cons_cons, ih (by simpa using hws), Axis.weight,
        dot_map_add_mul, shift_eq_dot hlength]
      ring

/-! ### Assigning axes to groups -/

theorem groupOf?_spec (h : groupOf? groups stride = some (g, m)) :
    m * (groups.map (·.logical)).getD g 0 = stride := by
  unfold groupOf? at h
  cases hfind : groups.findIdx? (fun g => stride.tmod g.logical == 0) with
  | none => simp [hfind] at h
  | some i =>
    obtain ⟨hi, hdivides, -⟩ := List.findIdx?_eq_some_iff_getElem.mp hfind
    simp only [hfind, List.getElem?_eq_getElem hi, Option.bind_eq_bind, Option.bind_some,
      Option.pure_def, Option.some.injEq, Prod.mk.injEq] at h
    obtain ⟨rfl, rfl⟩ := h
    rw [List.getD_eq_getElem?_getD, List.getElem?_map, List.getElem?_eq_getElem hi]
    exact Int.tdiv_mul_cancel (Int.dvd_of_tmod_eq_zero (by simpa using hdivides))

theorem assign?_spec {range : Int × Int} (h : assign? groups range stride = some a) :
    a.range = range ∧ (∀ g m, a.target = some (g, m) → m ≠ 0 ∧ 1 < a.count) ∧
      ∀ c, range.1 ≤ c → c < range.2 →
        stride * c = stride * range.1 + a.weight 0 (groups.map (·.logical)) * (c - a.start) := by
  unfold assign? at h
  split at h
  · rename_i hstill
    obtain rfl : (⟨range.1, range.2, stride, none⟩ : Axis) = a := by simpa using h
    refine ⟨rfl, by simp, fun c hlow hhigh => ?_⟩
    rw [Axis.weight_of_none rfl]
    rcases hstill with hsingle | rfl
    · obtain rfl : c = range.1 := by omega
      simp
    · simp
  · rename_i hmoves
    obtain ⟨⟨g, m⟩, hgroup, rfl⟩ := Option.map_eq_some_iff.mp h
    have hweight := groupOf?_spec hgroup
    refine ⟨rfl, ?_, fun c _ _ => ?_⟩
    · intro g' m' htarget
      obtain ⟨rfl, rfl⟩ : g = g' ∧ m = m' := by simpa using htarget
      push Not at hmoves
      refine ⟨?_, hmoves.1⟩
      rintro rfl
      exact hmoves.2 (by simpa using hweight.symm)
    · rw [Axis.weight_of_some rfl]
      simp only [Nat.zero_le, if_true, Nat.sub_zero, hweight]
      ring

theorem assign_axes {strides : List Int} (hlength : strides.length = ranges.length)
    (h : (ranges.zip strides).mapM (fun (r, s) => assign? groups r s) = some axes) :
    axes.map (·.range) = ranges ∧
      (∀ a ∈ axes, ∀ g m, a.target = some (g, m) → m ≠ 0 ∧ 1 < a.count) ∧
      ∀ coords, InRanges ranges coords →
        dot strides coords = dot strides (ranges.map (·.1))
          + dot (axes.map (·.weight 0 (groups.map (·.logical)))) (steps axes coords) := by
  induction ranges generalizing strides axes with
  | nil =>
    obtain rfl : strides = [] := by simpa using hlength
    obtain rfl : axes = [] := by simpa using h.symm
    simp
  | cons r ranges ih =>
    cases strides with
    | nil => simp at hlength
    | cons s strides =>
      rw [List.zip_cons_cons, List.mapM_cons] at h
      obtain ⟨a, ha, h⟩ := Option.bind_eq_some_iff.mp h
      obtain ⟨rest, hrest, h⟩ := Option.bind_eq_some_iff.mp h
      obtain rfl : a :: rest = axes := by simpa using h
      obtain ⟨hrange, hnonzero, hposition⟩ := assign?_spec ha
      obtain ⟨hranges, hnonzeros, hpositions⟩ := ih (by simpa using hlength) hrest
      refine ⟨by simp [hrange, hranges], by simpa using ⟨hnonzero, hnonzeros⟩, ?_⟩
      intro coords hin
      obtain ⟨c, coords, rfl, ⟨hlow, hhigh⟩, hin⟩ := inRanges_cons.mp hin
      simp only [List.map_cons, dot_cons_cons, steps, List.zipWith_cons_cons,
        hposition c hlow hhigh, hpositions coords hin]
      ring

/-! ### Staying inside the groups -/

theorem inRanges_iff :
    InRanges ranges coords ↔ coords.length = ranges.length ∧
      ∀ i r, ranges[i]? = some r → r.1 ≤ coords.getD i 0 ∧ coords.getD i 0 < r.2 := by
  induction ranges generalizing coords with
  | nil => cases coords <;> simp [InRanges]
  | cons r ranges ih =>
    cases coords with
    | nil => simp [InRanges]
    | cons c coords =>
      simp only [InRanges, ih, List.length_cons, Nat.add_right_cancel_iff]
      constructor
      · rintro ⟨hhead, hlength, htail⟩
        refine ⟨hlength, fun i q hq => ?_⟩
        cases i with
        | zero =>
          obtain rfl : r = q := by simpa using hq
          simpa using hhead
        | succ i => simpa using htail i q (by simpa using hq)
      · rintro ⟨hlength, hall⟩
        refine ⟨by simpa using hall 0 r (by simp), hlength, fun i q hq => ?_⟩
        simpa using hall (i + 1) q (by simpa using hq)

theorem travel_bounds (hin : InRanges (axes.map (·.range)) coords)
    (hmover : mover ∈ movers axes g) :
    min (reach mover) 0 ≤ travel coords mover ∧ travel coords mover ≤ max (reach mover) 0 := by
  obtain ⟨haxis, -⟩ := mem_movers.mp hmover
  obtain ⟨hlow, hhigh⟩ := (inRanges_iff.mp hin).2 mover.1 mover.2.1.range (by simp [haxis])
  simp only [Axis.range] at hlow hhigh
  have hfrom : 0 ≤ coords.getD mover.1 0 - mover.2.1.start := by omega
  have hto : coords.getD mover.1 0 - mover.2.1.start ≤ mover.2.1.count - 1 := by
    unfold Axis.count
    omega
  unfold reach travel
  rcases le_total 0 mover.2.2 with hstep | hstep
  · refine ⟨min_le_right _ _ |>.trans (mul_nonneg hstep hfrom), le_max_of_le_left ?_⟩
    rw [mul_comm]
    exact mul_le_mul_of_nonneg_right hto hstep
  · refine ⟨min_le_of_left_le ?_, (mul_nonpos_of_nonpos_of_nonneg hstep hfrom).trans
      (le_max_right _ _)⟩
    rw [mul_comm]
    exact mul_le_mul_of_nonpos_left hto hstep

theorem foldl_add_sum (f : α → Int) (as : List α) (x : Int) :
    as.foldl (fun acc a => acc + f a) x = x + (as.map f).sum := by
  induction as generalizing x with
  | nil => simp
  | cons a as ih => simp [ih, add_assoc]

theorem staysInside_spec (hin : InRanges (axes.map (·.range)) coords)
    (h : staysInside group x (movers axes g) = true) :
    0 ≤ x + shift axes coords g ∧ x + shift axes coords g < group.size := by
  simp only [staysInside, foldl_add_sum, Bool.and_eq_true, decide_eq_true_eq] at h
  have hlow : ((movers axes g).map fun m => min (reach m) 0).sum ≤ shift axes coords g :=
    List.sum_le_sum fun mover hmover => (travel_bounds hin hmover).1
  have hhigh : shift axes coords g ≤ ((movers axes g).map fun m => max (reach m) 0).sum :=
    List.sum_le_sum fun mover hmover => (travel_bounds hin hmover).2
  omega

theorem inGroups_moved (hlength : xs.length = groups.length)
    (hin : InRanges (axes.map (·.range)) coords)
    (h : ∀ p ∈ (groups.zip xs).zipIdx g, staysInside p.1.1 p.1.2 (movers axes p.2) = true) :
    InGroups groups (moved axes coords g xs) := by
  induction groups generalizing g xs with
  | nil =>
    obtain rfl : xs = [] := by simpa using hlength
    simp [InGroups, moved]
  | cons group groups ih =>
    cases xs with
    | nil => simp at hlength
    | cons x xs =>
      rw [List.zip_cons_cons, List.zipIdx_cons, List.forall_mem_cons] at h
      rw [moved, inGroups_cons_cons]
      exact ⟨staysInside_spec hin h.1, ih (by simpa using hlength) h.2⟩

end LazyTensor.Merge

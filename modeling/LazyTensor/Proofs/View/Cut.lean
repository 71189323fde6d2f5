import LazyTensor.Proofs.Order
import LazyTensor.Proofs.View.Axes

/-!
# Carrying an inner mask over to the outer axes

A mask of a group restricts the digits of the group, and so the coordinates of the axes that move
it. Cutting either restricts the outer mask to exactly the coordinates the group admits, or finds
that there are none, or gives up.
-/

namespace LazyTensor

variable {ranges : List (Int × Int)} {i : Nat} {r q : Int × Int}

theorem inRanges_set_iff {coords : List Int} (hi : ranges[i]? = some r) (hlow : r.1 ≤ q.1)
    (hhigh : q.2 ≤ r.2) :
    InRanges (ranges.set i q) coords ↔
      InRanges ranges coords ∧ q.1 ≤ coords.getD i 0 ∧ coords.getD i 0 < q.2 := by
  induction ranges generalizing coords i with
  | nil => simp at hi
  | cons s ranges ih =>
    cases coords with
    | nil => cases i <;> simp [InRanges]
    | cons c coords =>
      cases i with
      | zero =>
        obtain rfl : s = r := by simpa using hi
        simp only [List.set_cons_zero, InRanges, List.getD_cons_zero]
        constructor
        · rintro ⟨⟨hc, hc'⟩, hrest⟩
          exact ⟨⟨⟨hlow.trans hc, hc'.trans_le hhigh⟩, hrest⟩, hc, hc'⟩
        · rintro ⟨⟨-, hrest⟩, hc⟩
          exact ⟨hc, hrest⟩
      | succ i =>
        simp only [List.set_cons_succ, InRanges, List.getD_cons_succ,
          ih (by simpa using hi), and_assoc]

theorem RangesInside.set {shape : List Int} (h : RangesInside ranges shape)
    (hi : ranges[i]? = some r) (hlow : r.1 ≤ q.1) (hq : q.1 ≤ q.2) (hhigh : q.2 ≤ r.2) :
    RangesInside (ranges.set i q) shape := by
  induction ranges generalizing shape i with
  | nil => simp at hi
  | cons s ranges ih =>
    cases shape with
    | nil => exact h.elim
    | cons d shape =>
      cases i with
      | zero =>
        obtain rfl : s = r := by simpa using hi
        obtain ⟨⟨hstart, -, -, hstop⟩, hrest⟩ := h
        exact ⟨⟨by omega, by omega, by omega, by omega⟩, hrest⟩
      | succ i => exact ⟨h.1, ih h.2 (by simpa using hi)⟩

namespace Merge

/-! ### Windows -/

variable {a b t c lo hi : Int} {mask mask' : List (Int × Int)} {P Q : List Int → Prop} {cut : Cut}
  {mover : Nat × Axis × Int} {axes : List Axis} {g : Nat} {shape : List Int}

theorem ceilDiv_le_iff (hb : 0 < b) : ceilDiv a b ≤ t ↔ a ≤ t * b := by
  unfold ceilDiv
  rw [neg_le, Int.le_ediv_iff_mul_le hb, neg_mul, neg_le_neg_iff]

theorem lt_ceilDiv_iff (hb : 0 < b) : t < ceilDiv a b ↔ t * b < a := by
  rw [← not_le, ceilDiv_le_iff hb, not_le]

theorem solveWindow_iff {m : Int} (hm : m ≠ 0) :
    (solveWindow c m lo hi).1 ≤ t ∧ t < (solveWindow c m lo hi).2
      ↔ lo ≤ c + m * t ∧ c + m * t < hi := by
  unfold solveWindow
  split
  · rename_i hpos
    simp only [ceilDiv_le_iff hpos, lt_ceilDiv_iff hpos, mul_comm m t]
    omega
  · have hneg : 0 < -m := by omega
    have hlow : (c - hi) / -m + 1 ≤ t ↔ c - hi < t * -m := by
      rw [Int.add_one_le_iff, Int.ediv_lt_iff_lt_mul hneg]
    have hhigh : t < (c - lo) / -m + 1 ↔ t * -m ≤ c - lo := by
      rw [Int.lt_add_one_iff, Int.le_ediv_iff_mul_le hneg]
    simp only [hlow, hhigh, mul_neg, mul_comm m t]
    omega

/-! ### One group -/

/-- The outcome of cutting leaves of `mask` exactly the coordinates where `P` holds. -/
def Cut.Leaves (mask : List (Int × Int)) (P : List Int → Prop) : Cut → Prop
  | .stuck => True
  | .empty => ∀ coords, InRanges mask coords → ¬ P coords
  | .keep mask' => ∀ coords, InRanges mask' coords ↔ InRanges mask coords ∧ P coords

theorem Cut.Leaves.after (h : cut.Leaves mask' Q) (hkept : (Cut.keep mask').Leaves mask P) :
    cut.Leaves mask fun coords => P coords ∧ Q coords := by
  cases cut with
  | stuck => trivial
  | empty => exact fun coords hin hall => h coords ((hkept coords).mpr ⟨hin, hall.1⟩) hall.2
  | keep mask'' =>
    intro coords
    rw [h coords, hkept coords, and_assoc]

/-- Only the range of an axis that moves group `g` changes, to a part of it that is not empty. -/
def CutsAlong (axes : List Axis) (g : Nat) (mask mask' : List (Int × Int)) : Prop :=
  mask' = mask ∨ ∃ mover ∈ movers axes g, ∃ q, mask' = mask.set mover.1 q ∧
    mover.2.1.start ≤ q.1 ∧ q.1 < q.2 ∧ q.2 ≤ mover.2.1.stop

theorem Cut.Leaves.congr (h : cut.Leaves mask P)
    (hiff : ∀ coords, InRanges mask coords → (P coords ↔ Q coords)) : cut.Leaves mask Q := by
  cases cut with
  | stuck => trivial
  | empty => exact fun coords hin hq => h coords hin ((hiff coords hin).mpr hq)
  | keep mask' => exact fun coords => (h coords).trans (and_congr_right (hiff coords))

theorem cutAxis_eq (c lo hi : Int) (i : Nat) (axis : Axis) (m : Int) (mask : List (Int × Int)) :
    cutAxis c lo hi (i, axis, m) mask
      = if min (solveWindow c m lo hi).2 axis.count ≤ max (solveWindow c m lo hi).1 0 then .empty
        else .keep (mask.set i (axis.start + max (solveWindow c m lo hi).1 0,
          axis.start + min (solveWindow c m lo hi).2 axis.count)) := rfl

theorem cutAxis_leaves (hmask : mask[mover.1]? = some mover.2.1.range) (hm : mover.2.2 ≠ 0) :
    (cutAxis c lo hi mover mask).Leaves mask
      fun coords => lo ≤ c + travel coords mover ∧ c + travel coords mover < hi := by
  obtain ⟨i, axis, m⟩ := mover
  simp only at hmask hm
  have hsteps : ∀ coords, InRanges mask coords →
      axis.start ≤ coords.getD i 0 ∧ coords.getD i 0 < axis.stop :=
    fun coords hin => (inRanges_iff.mp hin).2 i _ hmask
  have hwindow : ∀ coords,
      (lo ≤ c + travel coords (i, axis, m) ∧ c + travel coords (i, axis, m) < hi)
      ↔ (solveWindow c m lo hi).1 ≤ coords.getD i 0 - axis.start ∧
        coords.getD i 0 - axis.start < (solveWindow c m lo hi).2 :=
    fun coords => (solveWindow_iff hm).symm
  have hcount : axis.count = axis.stop - axis.start := rfl
  rw [cutAxis_eq]
  split
  · intro coords hin hholds
    have := hsteps coords hin
    have := (hwindow coords).mp hholds
    omega
  · intro coords
    rw [inRanges_set_iff hmask (by simp only [Axis.range]; omega)
      (by simp only [Axis.range]; omega)]
    refine and_congr_right fun hin => (Iff.trans ?_ (hwindow coords).symm)
    have := hsteps coords hin
    omega

theorem cutAxis_along (hmover : mover ∈ movers axes g)
    (h : cutAxis c lo hi mover mask = .keep mask') : CutsAlong axes g mask mask' := by
  obtain ⟨i, axis, m⟩ := mover
  have hcount : axis.count = axis.stop - axis.start := rfl
  rw [cutAxis_eq] at h
  split at h
  · cases h
  · obtain rfl := Cut.keep.inj h
    refine .inr ⟨_, hmover, _, rfl, ?_⟩
    simp only
    omega

theorem cutCoarsest_along (h : cutCoarsest c lo hi (movers axes g) mask = .keep mask') :
    CutsAlong axes g mask mask' := by
  unfold cutCoarsest at h
  split at h
  · cases h
  · split at h
    · exact .inl (Cut.keep.inj h).symm
    · rename_i coarse finer hsorted
      simp only at h
      have hcoarse : coarse ∈ movers axes g :=
        (sortBy_perm _ _).mem_iff.mp (hsorted ▸ List.mem_cons_self)
      split at h
      · exact .inl (Cut.keep.inj h).symm
      · split at h
        · cases h
        · split at h
          · cases h
          · exact cutAxis_along hcoarse h

theorem sum_travel_bounds {coords : List Int} (hin : InRanges (axes.map (·.range)) coords)
    {ms : List (Nat × Axis × Int)} (hms : ∀ m ∈ ms, m ∈ movers axes g) (hup : ∀ m ∈ ms, 0 < m.2.2) :
    0 ≤ (ms.map (travel coords)).sum ∧ (ms.map (travel coords)).sum ≤ (ms.map reach).sum := by
  have hbounds : ∀ m ∈ ms, 0 ≤ travel coords m ∧ travel coords m ≤ reach m := by
    intro m hm
    obtain ⟨haxis, -⟩ := mem_movers.mp (hms m hm)
    obtain ⟨hlow, hhigh⟩ := (inRanges_iff.mp hin).2 m.1 m.2.1.range (by simp [haxis])
    simp only [Axis.range] at hlow hhigh
    unfold travel reach Axis.count
    rw [mul_comm m.2.2]
    exact ⟨mul_nonneg (by omega) (hup m hm).le,
      mul_le_mul_of_nonneg_right (by omega) (hup m hm).le⟩
  constructor
  · refine List.sum_nonneg fun t ht => ?_
    obtain ⟨m, hm, rfl⟩ := List.mem_map.mp ht
    exact (hbounds m hm).1
  · exact List.sum_le_sum fun m hm => (hbounds m hm).2

/-- A finer part that stays below a whole step does not decide whether a range made of whole steps
holds. -/
theorem window_of_coarse {step fine : Int} (hstep : 0 < step) (hfine : 0 ≤ fine)
    (hfine' : fine < step) (hlo : (lo - c) % step = 0) (hhi : (hi - c) % step = 0) :
    (lo ≤ c + step * t ∧ c + step * t < hi) ↔
      (lo ≤ c + (step * t + fine) ∧ c + (step * t + fine) < hi) := by
  obtain ⟨p, hp⟩ := Int.dvd_of_emod_eq_zero hlo
  obtain ⟨q, hq⟩ := Int.dvd_of_emod_eq_zero hhi
  obtain rfl : lo = c + step * p := by omega
  obtain rfl : hi = c + step * q := by omega
  have hlower : p ≤ t ↔ step * p ≤ step * t + fine := by
    constructor
    · intro h
      have := mul_le_mul_of_nonneg_left h hstep.le
      omega
    · intro h
      by_contra hlt
      have : step * (t + 1) ≤ step * p := mul_le_mul_of_nonneg_left (by omega) hstep.le
      rw [mul_add, mul_one] at this
      omega
  have hupper : t < q ↔ step * t + fine < step * q := by
    constructor
    · intro h
      have : step * (t + 1) ≤ step * q := mul_le_mul_of_nonneg_left (by omega) hstep.le
      rw [mul_add, mul_one] at this
      omega
    · intro h
      by_contra hle
      have : step * q ≤ step * t := mul_le_mul_of_nonneg_left (by omega) hstep.le
      omega
  rw [add_le_add_iff_left, add_lt_add_iff_left, add_le_add_iff_left, add_lt_add_iff_left,
    mul_le_mul_iff_right₀ hstep, mul_lt_mul_iff_right₀ hstep, hlower, hupper]

section Group

variable {axes : List Axis} {g : Nat} {mask : List (Int × Int)}
  (hbelow : ∀ coords, InRanges mask coords → InRanges (axes.map (·.range)) coords)
  (hfresh : ∀ mover ∈ movers axes g, mask[mover.1]? = some mover.2.1.range)

include hbelow hfresh

theorem cutCoarsest_leaves (hmovers : movers axes g ≠ []) (c lo hi : Int) :
    (cutCoarsest c lo hi (movers axes g) mask).Leaves mask
      fun coords => lo ≤ c + shift axes coords g ∧ c + shift axes coords g < hi := by
  unfold cutCoarsest
  split
  · trivial
  rename_i hup
  have hup : ∀ mover ∈ movers axes g, 0 < mover.2.2 := by simpa using hup
  have hperm := sortBy_perm (fun a b : Nat × Axis × Int => decide (b.2.2 ≤ a.2.2)) (movers axes g)
  split
  · rename_i hsorted
    rw [hsorted] at hperm
    exact (hmovers hperm.symm.eq_nil).elim
  · rename_i coarse finer hsorted
    rw [hsorted] at hperm
    have hcoarse : coarse ∈ movers axes g := hperm.mem_iff.mp List.mem_cons_self
    have hfiner : ∀ m ∈ finer, m ∈ movers axes g := fun m hm =>
      hperm.mem_iff.mp (List.mem_cons_of_mem _ hm)
    have hshift : ∀ coords, shift axes coords g
        = travel coords coarse + (finer.map (travel coords)).sum := by
      intro coords
      rw [shift, ← (hperm.map _).sum_eq, List.map_cons, List.sum_cons]
    have hspan : ∀ coords, InRanges mask coords → 0 ≤ shift axes coords g ∧
        shift axes coords g ≤ reach coarse + (finer.map reach).sum := by
      intro coords hin
      have hbounds := sum_travel_bounds (hbelow coords hin)
        (List.forall_mem_cons.mpr ⟨hcoarse, hfiner⟩)
        (fun m hm => hup m (hperm.mem_iff.mp hm))
      simpa [hshift] using hbounds
    simp only [foldl_add_sum, zero_add]
    split
    · rename_i hall
      intro coords
      refine (and_iff_left_of_imp fun hin => ?_).symm
      have := hspan coords hin
      omega
    · split
      · intro coords hin hholds
        have := hspan coords hin
        omega
      · split
        · trivial
        · rename_i hcut
          push Not at hcut
          obtain ⟨hrest, hlo, hhi⟩ := hcut
          refine (cutAxis_leaves (hfresh coarse hcoarse) (hup coarse hcoarse).ne').congr ?_
          intro coords hin
          obtain ⟨hfine, hfine'⟩ := sum_travel_bounds (hbelow coords hin) hfiner
            fun m hm => hup m (hfiner m hm)
          rw [hshift]
          exact window_of_coarse (hup coarse hcoarse) hfine (by omega) hlo hhi

theorem cutGroup_leaves (hnonzero : ∀ mover ∈ movers axes g, mover.2.2 ≠ 0) (group : Group)
    (c : Int) :
    (cutGroup group c (movers axes g) mask).Leaves mask
      fun coords => group.Admits (c + shift axes coords g) := by
  unfold cutGroup Group.Admits
  split
  · rename_i hmask
    simp [Cut.Leaves, hmask]
  · rename_i lo hi hmask
    simp only [hmask, Option.some.injEq, forall_eq']
    split
    · rename_i hmovers
      simp only [shift, hmovers, List.map_nil, List.sum_nil, add_zero]
      split
      · intro coords _ hholds
        omega
      · intro coords
        refine (and_iff_left_of_imp fun _ => ?_).symm
        omega
    · rename_i mover hmovers
      have hmover : mover ∈ movers axes g := by simp [hmovers]
      simp only [shift, hmovers, List.map_cons, List.map_nil, List.sum_cons, List.sum_nil,
        add_zero]
      exact cutAxis_leaves (hfresh mover hmover) (hnonzero mover hmover)
    · rename_i hnil _
      exact cutCoarsest_leaves hbelow hfresh hnil c lo hi

omit hbelow hfresh in
theorem cutGroup_along {group : Group} (h : cutGroup group c (movers axes g) mask = .keep mask') :
    CutsAlong axes g mask mask' := by
  unfold cutGroup at h
  split at h
  · exact .inl (Cut.keep.inj h).symm
  · split at h
    · split at h
      · cases h
      · exact .inl (Cut.keep.inj h).symm
    · rename_i mover hmovers
      exact cutAxis_along (by simp [hmovers]) h
    · exact cutCoarsest_along h

end Group

/-! ### All groups -/

theorem CutsAlong.rangesInside (h : CutsAlong axes g mask mask')
    (hinside : RangesInside mask shape)
    (hfresh : ∀ mover ∈ movers axes g, mask[mover.1]? = some mover.2.1.range) :
    RangesInside mask' shape := by
  rcases h with rfl | ⟨mover, hmover, q, rfl, hlow, hq, hhigh⟩
  · exact hinside
  · exact hinside.set (hfresh mover hmover) hlow hq.le hhigh

theorem CutsAlong.fresh {g' : Nat} (h : CutsAlong axes g mask mask') (hne : g' ≠ g)
    (hfresh : ∀ mover ∈ movers axes g', mask[mover.1]? = some mover.2.1.range) :
    ∀ mover ∈ movers axes g', mask'[mover.1]? = some mover.2.1.range := by
  rcases h with rfl | ⟨cut, hcut, q, rfl, -⟩
  · exact hfresh
  · intro mover hmover
    obtain ⟨haxis, htarget⟩ := mem_movers.mp hmover
    obtain ⟨haxis', htarget'⟩ := mem_movers.mp hcut
    rw [List.getElem?_set_ne ?_]
    · exact hfresh mover hmover
    · intro heq
      rw [heq, haxis, Option.some.injEq] at haxis'
      rw [haxis', htarget', Option.some.injEq, Prod.mk.injEq] at htarget
      exact hne htarget.1.symm

theorem cutGroups_spec (hnonzero : ∀ g, ∀ mover ∈ movers axes g, mover.2.2 ≠ 0)
    {groups : List Group} {xs : List Int} (hlength : xs.length = groups.length) (g : Nat)
    (hbelow : ∀ coords, InRanges mask coords → InRanges (axes.map (·.range)) coords)
    (hfresh : ∀ g' ≥ g, ∀ mover ∈ movers axes g', mask[mover.1]? = some mover.2.1.range)
    (hinside : RangesInside mask shape) :
    (cutGroups axes g (groups.zip xs) mask).Leaves mask
        (fun coords => Admitted groups (moved axes coords g xs)) ∧
      ∀ mask', cutGroups axes g (groups.zip xs) mask = .keep mask' → RangesInside mask' shape := by
  induction groups generalizing g xs mask with
  | nil => simp [cutGroups, Cut.Leaves, hinside]
  | cons group groups ih =>
    cases xs with
    | nil => simp at hlength
    | cons x xs =>
      have hhead := cutGroup_leaves hbelow (hfresh g le_rfl) (hnonzero g) group x
      simp only [List.zip_cons_cons, cutGroups, moved, admitted_cons_cons]
      cases hcut : cutGroup group x (movers axes g) mask with
      | stuck => simp [Cut.Leaves]
      | empty =>
        rw [hcut] at hhead
        exact ⟨fun coords hin hall => hhead coords hin hall.1, by simp⟩
      | keep mask' =>
        rw [hcut] at hhead
        have halong := cutGroup_along hcut
        obtain ⟨hleaves, hinside'⟩ := ih (by simpa using hlength) (g + 1)
          (fun coords hin => hbelow coords ((hhead coords).mp hin).1)
          (fun g' hg' => halong.fresh (by omega) (hfresh g' (by omega)))
          (halong.rangesInside hinside (hfresh g le_rfl))
        exact ⟨hleaves.after hhead, hinside'⟩

end Merge

end LazyTensor

import LazyTensor.Proofs.SymInt.Canonical
import LazyTensor.Proofs.Simplify.Range

/-!
# Bounds and comparisons of symbolic integers

In exact arithmetic the value of a symbolic integer lies between its bounds for all values of the
variables in their ranges, and a comparison that is decided by the bounds of the difference holds for
all of them. In words this is so as long as the difference does not overflow and the bounds are not
clamped.
-/

namespace LazyTensor.SymInt

section Exact

attribute [local instance] Width.unbounded

variable {ρ : SymVar → Int} {r : Int × Int} {x : Int} {v : SymVar}

theorem mulRange_inRange (hx : InRange r x) (hv : InRange (v.min, v.max) (ρ v)) :
    InRange (mulRange r v) (x * ρ v) := by
  have hbetween := mul_between_corners hx hv
  dsimp only at hbetween
  exact hbetween

theorem monomialRange_inRange {m : Monomial} (hm : ∀ v ∈ m, InRange (v.min, v.max) (ρ v)) :
    InRange (monomialRange m) (m.map ρ).prod := by
  have hfold : ∀ (m : Monomial) (r : Int × Int) (x : Int), (∀ v ∈ m, InRange (v.min, v.max) (ρ v)) →
      InRange r x → InRange (m.foldl mulRange r) (x * (m.map ρ).prod) := by
    intro m
    induction m with
    | nil => exact fun r x _ hx => (mul_one x).symm ▸ hx
    | cons v m ih =>
      intro r x hm hx
      rw [List.forall_mem_cons] at hm
      rw [List.foldl_cons, List.map_cons, List.prod_cons, ← mul_assoc]
      exact ih _ _ hm.2 (mulRange_inRange hx hm.1)
  rw [← one_mul (m.map ρ).prod]
  exact hfold m (1, 1) 1 hm ⟨le_rfl, le_rfl⟩

theorem addRange_inRange (hx : InRange r x) {t : Term}
    (ht : ∀ v ∈ t.1, InRange (v.min, v.max) (ρ v)) :
    InRange (addRange r t) (x + t.2 * (t.1.map ρ).prod) := by
  obtain ⟨hlo, hhi⟩ := mul_between (monomialRange_inRange ht) t.2
  rw [mul_comm t.2]
  exact ⟨add_le_add hx.1 (min_le_iff.mpr hlo), add_le_add hx.2 (le_max_iff.mpr hhi)⟩

theorem bounds_inRange {x : SymInt} (hx : ∀ v ∈ x.vars, InRange (v.min, v.max) (ρ v)) :
    InRange x.bounds (x.value ρ) := by
  have hfold : ∀ (ts : List Term) (r : Int × Int) (y : Int),
      (∀ t ∈ ts, ∀ v ∈ t.1, InRange (v.min, v.max) (ρ v)) → InRange r y →
      InRange (ts.foldl addRange r) (y + termsValue ρ ts) := by
    intro ts
    induction ts with
    | nil => exact fun r y _ hy => (add_zero y).symm ▸ hy
    | cons t ts ih =>
      intro r y hts hy
      rw [List.forall_mem_cons] at hts
      rw [List.foldl_cons, termsValue_cons, ← add_assoc]
      exact ih _ _ hts.2 (addRange_inRange hy hts.1)
  rw [← zero_add (x.value ρ)]
  exact hfold x.terms (0, 0) 0 (fun t ht v hv => hx v (mem_vars.mpr ⟨t, ht, hv⟩)) ⟨le_rfl, le_rfl⟩

/-- The difference in exact arithmetic. -/
def exactSub (a b : SymInt) : SymInt := a - b

theorem value_exactSub (a b : SymInt) : (exactSub a b).value ρ = a.value ρ - b.value ρ :=
  value_sub a b

theorem mem_vars_exactSub {a b : SymInt} (h : v ∈ (exactSub a b).vars) :
    v ∈ a.vars ∨ v ∈ b.vars := by
  rcases mem_vars_add h with ha | hneg
  · exact .inl ha
  · exact .inr ((mem_vars_mul hneg).resolve_right List.not_mem_nil)

end Exact

section Words

variable [Width] {a b : SymInt} {ρ : SymVar → Int}

/-- The bounds come out as in exact arithmetic, as they do where none of them is clamped. -/
def Unsaturated (x : SymInt) : Prop := x.bounds = @bounds .unbounded x

/-- Neither a coefficient of the difference overflows nor are its bounds clamped. -/
def Comparable (a b : SymInt) : Prop := a - b = exactSub a b ∧ (a - b).Unsaturated

theorem Comparable.bounds_sub (h : Comparable a b)
    (hρ : ∀ v ∈ a.vars ++ b.vars, InRange (v.min, v.max) (ρ v)) :
    InRange (a - b).bounds (a.value ρ - b.value ρ) := by
  obtain ⟨hsub, hbounds⟩ := h
  rw [hbounds, hsub, ← value_exactSub]
  exact bounds_inRange fun v hv => hρ v (List.mem_append.mpr (mem_vars_exactSub hv))

/-- Bounds hold, comparisons that are decided hold, and a maximum or a minimum that is found is one,
for all values of the variables in their ranges. -/
theorem bounds_and_comparisons_hold (ha : a.Unsaturated) (hab : Comparable a b) {ρ : SymVar → Int}
    (hρ : ∀ v ∈ a.vars ++ b.vars, v.min ≤ ρ v ∧ ρ v ≤ v.max) :
    (a.lower ≤ a.value ρ ∧ a.value ρ ≤ a.upper) ∧
      (lt? a b = some true → a.value ρ < b.value ρ) ∧
      (lt? a b = some false → b.value ρ ≤ a.value ρ) ∧
      (∀ r, max? a b = some r → r.value ρ = max (a.value ρ) (b.value ρ)) ∧
      ∀ r, min? a b = some r → r.value ρ = min (a.value ρ) (b.value ρ) := by
  have hbounds : InRange a.bounds (a.value ρ) := by
    rw [ha]
    exact bounds_inRange fun v hv => hρ v (List.mem_append_left _ hv)
  obtain ⟨hlower, hupper⟩ := hab.bounds_sub hρ
  have hless : ∀ less, lt? a b = some less → (less = true ↔ a.value ρ < b.value ρ) := by
    intro less h
    rw [lt?] at h
    split at h
    next hneg =>
      obtain rfl := Option.some.inj h
      simp only [upper] at hneg
      exact ⟨fun _ => by omega, fun _ => rfl⟩
    next =>
      split at h
      next hnonneg =>
        obtain rfl := Option.some.inj h
        simp only [lower] at hnonneg
        exact ⟨by simp, fun hlt => by omega⟩
      next => cases h
  refine ⟨hbounds, fun h => (hless true h).mp rfl, fun h => ?_, fun r hr => ?_, fun r hr => ?_⟩
  · exact not_lt.mp fun hlt => Bool.false_ne_true ((hless false h).mpr hlt)
  · obtain ⟨less, h, rfl⟩ := Option.map_eq_some_iff.mp hr
    split
    next hl => exact (max_eq_right ((hless less h).mp hl).le).symm
    next hl => exact (max_eq_left (not_lt.mp fun hlt => hl ((hless less h).mpr hlt))).symm
  · obtain ⟨less, h, rfl⟩ := Option.map_eq_some_iff.mp hr
    split
    next hl => exact (min_eq_left ((hless less h).mp hl).le).symm
    next hl => exact (min_eq_right (not_lt.mp fun hlt => hl ((hless less h).mpr hlt))).symm

end Words

section Witness

attribute [local instance] Width.word64

/-- The squares cancel, so that the bounds decide between expressions with overlapping ranges. -/
theorem bounds_and_comparisons_hold_squares :
    ∃ n a b, n = var ⟨"n", -2, 3, none⟩ ∧ a = n * n ∧ b = n * n + n + 3 ∧ a.bounds = (-6, 9) ∧
      b.bounds = (-5, 15) ∧ lt? a b = some true ∧
      (∀ v ∈ a.vars ++ b.vars, v.min ≤ 2 ∧ 2 ≤ v.max) ∧
      a.value (fun _ => 2) < b.value fun _ => 2 := by
  have hbounds : (var ⟨"n", -2, 3, none⟩ * var ⟨"n", -2, 3, none⟩).Unsaturated := by
    unfold Unsaturated
    decide +kernel
  have hcomparable : Comparable (var ⟨"n", -2, 3, none⟩ * var ⟨"n", -2, 3, none⟩)
      (var ⟨"n", -2, 3, none⟩ * var ⟨"n", -2, 3, none⟩ + var ⟨"n", -2, 3, none⟩ + 3) := by
    unfold Comparable Unsaturated
    decide +kernel
  refine ⟨_, _, _, rfl, rfl, rfl, by decide +kernel, by decide +kernel, by decide +kernel,
    by decide +kernel, (bounds_and_comparisons_hold hbounds hcomparable ?_).2.1 ?_⟩ <;>
    decide +kernel

end Witness

end LazyTensor.SymInt

import LazyTensor.Order
import Mathlib.Data.List.Basic

/-!
# Sorted lists, finite maps and least elements
-/

namespace LazyTensor

theorem mem_of_lookup {α β : Type} [BEq α] [LawfulBEq α] {l : List (α × β)} {a : α} {b : β}
    (h : l.lookup a = some b) : (a, b) ∈ l := by
  obtain ⟨l₁, l₂, rfl, -⟩ := List.lookup_eq_some_iff.mp h
  exact List.mem_append_right l₁ List.mem_cons_self

section MemElems

variable {α : Type} {cmp : α → α → Ordering} [Std.LawfulEqCmp cmp] {x a : α} {old : List α}

theorem mem_insertElem {l : List α} : x ∈ insertElem cmp a l ↔ x = a ∨ x ∈ l := by
  induction l with
  | nil => rw [insertElem, List.mem_singleton, or_iff_left List.not_mem_nil]
  | cons b rest ih =>
    rw [insertElem]
    cases hcompare : cmp a b with
    | lt => rw [List.mem_cons]
    | eq =>
      obtain rfl := Std.LawfulEqCmp.compare_eq_iff_eq.mp hcompare
      rw [List.mem_cons, ← or_assoc, or_self]
    | gt => rw [List.mem_cons, ih, List.mem_cons, or_left_comm]

theorem mem_insertElems {new : List α} : x ∈ insertElems cmp new old ↔ x ∈ new ∨ x ∈ old := by
  induction new generalizing old with
  | nil => rw [insertElems, List.foldl_nil, or_iff_right List.not_mem_nil]
  | cons a rest ih =>
    rw [insertElems, List.foldl_cons]
    refine ih.trans ?_
    rw [mem_insertElem, List.mem_cons, or_left_comm, or_assoc]

theorem mem_foldl_insertElems {β : Type} {f : β → List α} {l : List β} :
    x ∈ l.foldl (fun acc b => insertElems cmp (f b) acc) old ↔ (∃ b ∈ l, x ∈ f b) ∨ x ∈ old := by
  induction l generalizing old with
  | nil => simp
  | cons b l ih =>
    rw [List.foldl_cons, ih, mem_insertElems]
    simp only [List.mem_cons, exists_eq_or_imp]
    rw [or_left_comm, or_assoc]

end MemElems

/-! ### Maps -/

section Lookup

variable {κ β : Type} [BEq κ] [LawfulBEq κ] [Ord κ] [Std.LawfulEqOrd κ]

theorem lookup_insertKey (k x : κ) (b : β) (l : List (κ × β)) :
    (insertKey compare k b l).lookup x = ((k, b) :: l).lookup x := by
  induction l with
  | nil => rfl
  | cons y rest ih =>
    obtain ⟨k', b'⟩ := y
    rw [insertKey]
    cases hcompare : compare k k' with
    | lt => rfl
    | eq =>
      obtain rfl := Std.LawfulEqCmp.compare_eq_iff_eq.mp hcompare
      simp only [List.lookup_cons]
      cases x == k <;> rfl
    | gt =>
      simp only [List.lookup_cons, ih]
      by_cases hx : x = k
      · have hne : x ≠ k' := fun h => by
          rw [← hx, h, Std.ReflOrd.compare_self] at hcompare
          cases hcompare
        rw [beq_false_of_ne hne]
      · rw [beq_false_of_ne hx]

end Lookup

section MemInsert

variable {κ β : Type} {cmp : κ → κ → Ordering} {entry : κ × β}

theorem mem_of_mem_insertKey {k : κ} {b : β} {l : List (κ × β)} (h : entry ∈ insertKey cmp k b l) :
    entry = (k, b) ∨ entry ∈ l := by
  induction l with
  | nil => exact .inl (List.mem_singleton.mp h)
  | cons x rest ih =>
    rw [insertKey] at h
    split at h
    · exact List.mem_cons.mp h
    · exact (List.mem_cons.mp h).imp_right (List.mem_cons_of_mem _)
    · rcases List.mem_cons.mp h with rfl | h
      · exact .inr List.mem_cons_self
      · exact (ih h).imp_right (List.mem_cons_of_mem _)

theorem mem_of_mem_insertKeys {new old : List (κ × β)} (h : entry ∈ insertKeys cmp new old) :
    entry ∈ new ∨ entry ∈ old := by
  induction new generalizing old with
  | nil => exact .inr h
  | cons x new ih =>
    rcases ih h with hnew | hold
    · exact .inl (List.mem_cons_of_mem _ hnew)
    · rcases mem_of_mem_insertKey hold with rfl | hold
      · exact .inl List.mem_cons_self
      · exact .inr hold

theorem mem_of_mem_foldl_insertKeys {α : Type} {f : α → List (κ × β)} {l : List α}
    (h : entry ∈ l.foldl (fun acc a => insertKeys cmp (f a) acc) []) : ∃ a ∈ l, entry ∈ f a := by
  refine List.foldlRecOn (motive := fun acc => entry ∈ acc → ∃ a ∈ l, entry ∈ f a) l _ ?_ ?_ h
  · exact nofun
  · intro acc hacc a ha h
    exact (mem_of_mem_insertKeys h).elim (fun h => ⟨a, ha, h⟩) hacc

end MemInsert

section OneValue

variable {κ β : Type} {cmp : κ → κ → Ordering} [Std.LawfulEqCmp cmp] {P : κ × β → Prop}
  {entry : κ × β} (hP : ∀ k x y, P (k, x) → P (k, y) → x = y) {old : List (κ × β)}

include hP

theorem mem_insertKey {k : κ} {b : β} {l : List (κ × β)} (hk : P (k, b)) (hl : ∀ e ∈ l, P e) :
    entry ∈ insertKey cmp k b l ↔ entry = (k, b) ∨ entry ∈ l := by
  refine ⟨mem_of_mem_insertKey, fun h => ?_⟩
  induction l with
  | nil => exact List.mem_singleton.mpr (h.resolve_right List.not_mem_nil)
  | cons e rest ih =>
    rw [List.forall_mem_cons] at hl
    rw [insertKey]
    cases hcompare : cmp k e.1 with
    | lt => exact List.mem_cons.mpr h
    | eq =>
      obtain rfl := Std.LawfulEqCmp.compare_eq_iff_eq.mp hcompare
      have he : e = (e.1, b) := Prod.ext rfl (hP e.1 e.2 b hl.1 hk)
      rw [← he, List.mem_cons] at h ⊢
      exact h.elim .inl id
    | gt =>
      rw [List.mem_cons, or_left_comm] at h
      exact List.mem_cons.mpr (h.imp_right (ih hl.2))

theorem mem_insertKeys {new : List (κ × β)} (hnew : ∀ e ∈ new, P e) (hold : ∀ e ∈ old, P e) :
    entry ∈ insertKeys cmp new old ↔ entry ∈ new ∨ entry ∈ old := by
  induction new generalizing old with
  | nil => exact (or_iff_right List.not_mem_nil).symm
  | cons e new ih =>
    rw [List.forall_mem_cons] at hnew
    have hadded : ∀ e' ∈ insertKey cmp e.1 e.2 old, P e' := by
      intro e' he'
      rcases mem_of_mem_insertKey he' with rfl | he'
      · exact hnew.1
      · exact hold e' he'
    refine (ih hnew.2 hadded).trans ?_
    rw [mem_insertKey hP hnew.1 hold, List.mem_cons, or_left_comm, or_assoc]

theorem mem_foldl_insertKeys {α : Type} {f : α → List (κ × β)} {l : List α}
    (hf : ∀ a ∈ l, ∀ e ∈ f a, P e) (hold : ∀ e ∈ old, P e) :
    entry ∈ l.foldl (fun acc a => insertKeys cmp (f a) acc) old ↔
      (∃ a ∈ l, entry ∈ f a) ∨ entry ∈ old := by
  induction l generalizing old with
  | nil => simp
  | cons a l ih =>
    rw [List.forall_mem_cons] at hf
    have hadded : ∀ e ∈ insertKeys cmp (f a) old, P e := by
      intro e he
      exact (mem_of_mem_insertKeys he).elim (hf.1 e) (hold e)
    rw [List.foldl_cons, ih hf.2 hadded, mem_insertKeys hP hf.1 hold]
    simp only [List.mem_cons, exists_eq_or_imp]
    rw [or_left_comm, or_assoc]

end OneValue

/-! ### Sorting -/

section Sorting

variable {α : Type} (le : α → α → Bool)

theorem insertSorted_perm (a : α) (l : List α) : (insertSorted le a l).Perm (a :: l) := by
  induction l with
  | nil => exact .refl _
  | cons b rest ih =>
    rw [insertSorted]
    split
    · exact .refl _
    · exact (ih.cons b).trans (.swap a b rest)

theorem sortBy_perm (l : List α) : (sortBy le l).Perm l := by
  induction l with
  | nil => exact .refl _
  | cons a rest ih => exact (insertSorted_perm le a _).trans (ih.cons a)

variable {le} {R : α → α → Prop} (hle : ∀ a b, le a b = true → R a b)
  (hgt : ∀ a b, le a b = false → R b a) (htrans : ∀ a b c, R a b → R b c → R a c)

include hle hgt htrans

theorem insertSorted_pairwise (a : α) {l : List α} (hl : l.Pairwise R) :
    (insertSorted le a l).Pairwise R := by
  induction l with
  | nil => exact List.pairwise_singleton _ _
  | cons b rest ih =>
    obtain ⟨hb, hrest⟩ := List.pairwise_cons.mp hl
    rw [insertSorted]
    split
    case isTrue h =>
      refine List.pairwise_cons.mpr ⟨fun c hc => ?_, hl⟩
      rcases List.mem_cons.mp hc with rfl | hc
      · exact hle _ _ h
      · exact htrans _ _ _ (hle _ _ h) (hb c hc)
    case isFalse h =>
      refine List.pairwise_cons.mpr ⟨fun c hc => ?_, ih hrest⟩
      rcases List.mem_cons.mp ((insertSorted_perm le a rest).mem_iff.mp hc) with rfl | hc
      · exact hgt _ _ (by simpa using h)
      · exact hb c hc

theorem sortBy_pairwise (l : List α) : (sortBy le l).Pairwise R := by
  induction l with
  | nil => exact List.Pairwise.nil
  | cons a rest ih => exact insertSorted_pairwise hle hgt htrans a ih

end Sorting

/-! ### Least elements -/

variable {α : Type} {key : α → Nat} {l : List α} {a : α}

theorem firstMin?_spec (h : firstMin? key l = some a) : a ∈ l ∧ ∀ b ∈ l, key a ≤ key b := by
  have hfold : ∀ (rest : List α) (b m : α),
      rest.foldl (fun best c => if key c < key best then c else best) b = m →
        m ∈ b :: rest ∧ ∀ c ∈ b :: rest, key m ≤ key c := by
    intro rest
    induction rest with
    | nil => simp
    | cons d rest ih =>
      intro b m hm
      rw [List.foldl_cons] at hm
      rw [List.forall_mem_cons, List.forall_mem_cons]
      split at hm
      all_goals
        obtain ⟨hmem, hle⟩ := ih _ _ hm
        rw [List.forall_mem_cons] at hle
        exact ⟨by grind, by omega, by omega, hle.2⟩
  cases l with
  | nil => cases h
  | cons b rest => exact hfold rest b a (Option.some.inj h)

theorem firstMin?_map {β : Type} (key : β → Nat) (f : α → β) (l : List α) :
    firstMin? key (l.map f) = (firstMin? (fun a => key (f a)) l).map f := by
  have hfold : ∀ (rest : List α) (b : α),
      (rest.map f).foldl (fun best c => if key c < key best then c else best) (f b) =
        f (rest.foldl (fun best c => if key (f c) < key (f best) then c else best) b) := by
    intro rest
    induction rest with
    | nil => exact fun b => rfl
    | cons c rest ih =>
      intro b
      rw [List.map_cons, List.foldl_cons, List.foldl_cons, ← ih, apply_ite f]
  cases l with
  | nil => rfl
  | cons b rest => exact congrArg some (hfold rest b)

end LazyTensor

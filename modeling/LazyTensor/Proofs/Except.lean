import Mathlib.Data.List.Forall2

/-!
# Computations that may fail

How a computation in parts succeeds or fails, by its parts.
-/

namespace LazyTensor

variable {ε α β : Type} {x : Except ε α} {f : α → Except ε β} {b : β} {e : ε} {l : List α}
  {bs : List β}

theorem bind_eq_ok (h : x >>= f = .ok b) : ∃ a, x = .ok a ∧ f a = .ok b := by
  cases x with
  | error e => cases h
  | ok a => exact ⟨a, rfl, h⟩

theorem map_eq_ok {g : α → β} (h : x.map g = .ok b) : ∃ a, x = .ok a ∧ g a = b := by
  cases x with
  | error e => cases h
  | ok a => exact ⟨a, rfl, Except.ok.inj h⟩

theorem exists_of_toOption_map {σ : Type} {run : Except ε α × σ} {g : α → β}
    (h : run.1.toOption.map g = some b) : ∃ a s, run = (.ok a, s) ∧ g a = b := by
  obtain ⟨_ | a, s⟩ := run
  · cases h
  · exact ⟨a, s, rfl, Option.some.inj h⟩

theorem run_eq_ok_of_bind {σ : Type} {act : ExceptT ε (StateM σ) α}
    {f : α → ExceptT ε (StateM σ) β} {s s' : σ} (h : (act >>= f).run.run s = (.ok b, s')) :
    ∃ a s₁, act.run.run s = (.ok a, s₁) ∧ (f a).run.run s₁ = (.ok b, s') := by
  rw [ExceptT.run_bind, StateT.run_bind] at h
  generalize act.run.run s = result at h ⊢
  obtain ⟨_ | a, s₁⟩ := result
  · cases h
  · exact ⟨a, s₁, rfl, h⟩

theorem error_of_bind (h : (x >>= f) = .error e) : x = .error e ∨ ∃ a, f a = .error e := by
  cases x with
  | error e' =>
    cases h
    exact .inl rfl
  | ok a => exact .inr ⟨a, h⟩

theorem exists_of_mapM_error (h : l.mapM f = .error e) : ∃ a ∈ l, f a = .error e := by
  induction l with
  | nil => cases h
  | cons a l ih =>
    rw [List.mapM_cons] at h
    rcases error_of_bind h with ha | ⟨b, h⟩
    · exact ⟨a, List.mem_cons_self, ha⟩
    · rcases error_of_bind h with hl | ⟨bs, h⟩
      · obtain ⟨a', ha', he⟩ := ih hl
        exact ⟨a', List.mem_cons_of_mem a ha', he⟩
      · cases h

theorem forall₂_of_mapM_ok {R : α → β → Prop} (hR : ∀ a ∈ l, ∀ b, f a = .ok b → R a b)
    (h : l.mapM f = .ok bs) : List.Forall₂ R l bs := by
  induction l generalizing bs with
  | nil =>
    cases h
    exact .nil
  | cons a l ih =>
    rw [List.forall_mem_cons] at hR
    rw [List.mapM_cons] at h
    obtain ⟨b, hb, h⟩ := bind_eq_ok h
    obtain ⟨bs', hbs, h⟩ := bind_eq_ok h
    cases h
    exact .cons (hR.1 b hb) (ih hR.2 hbs)

theorem exists_of_mapM_ok (h : l.mapM f = .ok bs) :
    (∀ a ∈ l, ∃ b ∈ bs, f a = .ok b) ∧ ∀ b ∈ bs, ∃ a ∈ l, f a = .ok b := by
  have hall := forall₂_of_mapM_ok (fun _ _ _ hb => hb) h
  clear h
  induction hall with
  | nil => exact ⟨nofun, nofun⟩
  | @cons a b l bs hab _ ih =>
    constructor
    · intro c hc
      rcases List.mem_cons.mp hc with rfl | hc
      · exact ⟨b, List.mem_cons_self, hab⟩
      · obtain ⟨d, hd, hcd⟩ := ih.1 c hc
        exact ⟨d, List.mem_cons_of_mem b hd, hcd⟩
    · intro d hd
      rcases List.mem_cons.mp hd with rfl | hd
      · exact ⟨a, List.mem_cons_self, hab⟩
      · obtain ⟨c, hc, hcd⟩ := ih.2 d hd
        exact ⟨c, List.mem_cons_of_mem a hc, hcd⟩

end LazyTensor

import LazyTensor.Proofs.Graph.Sound
import LazyTensor.Simplify.Range

/-!
# Corresponding nodes

A correspondence relates nodes of two graphs that do the same on corresponding sources. Whatever is
computed from the structure of a node alone is the same for a corresponding one, and work that only
looks at structure leads from corresponding nodes to corresponding nodes.
-/

namespace LazyTensor

section Lists

variable {α β : Type} {R : α → β → Prop} {xs : List α} {ys : List β}

theorem forall_left {P : α → Prop} (h : List.Forall₂ R xs ys) (hP : ∀ a b, R a b → P a) :
    ∀ a ∈ xs, P a :=
  ((List.forall₂_and_left xs ys).mp (h.imp fun a b hab => ⟨hP a b hab, hab⟩)).1

theorem forall_right {P : β → Prop} (h : List.Forall₂ R xs ys) (hP : ∀ a b, R a b → P b) :
    ∀ b ∈ ys, P b :=
  forall_left (List.Forall₂.flip h) fun b a hab => hP a b hab

end Lists

structure Correspondence where
  /-- The pairs of graphs whose nodes are compared. -/
  Over : Graph → Graph → Prop
  Rel : Graph → Graph → Ref → Ref → Prop
  /-- The nodes that stores may write to. -/
  Writable : Graph → Ref → Prop
  sound : ∀ {g h}, Over g h → g.Sound ∧ h.Sound
  lt_size : ∀ {g h a b}, Over g h → Rel g h a b → a < g.size ∧ b < h.size
  resolve : ∀ {g h a b}, Over g h → Rel g h a b → Rel g h (g.resolve a) (h.resolve b)
  eq_iff : ∀ {g h a b a' b'}, Over g h → Rel g h a b → Rel g h a' b' → (a = a' ↔ b = b')
  dtype : ∀ {g h a b}, Over g h → Rel g h a b → g.dtype a = h.dtype b
  op : ∀ {g h a b}, Over g h → Rel g h a b → Op.Matches (Rel g h) (g.op a) (h.op b)
  grows : ∀ {g h g' h' a b}, Over g h → g.Grows g' → h.Grows h' → Over g' h' → Rel g h a b →
    Rel g' h' a b
  writable : ∀ {g h a b c}, Over g h → Rel g h a b → (g.op a).target? = some c → Writable g c
  writable_grows : ∀ {g h g' c}, Over g h → g.Grows g' → Writable g c → Writable g' c
  insert : ∀ {g h o p t}, Over g h → Op.Matches (Rel g h) o p →
    (∀ c, o.target? = some c → Writable g c) →
    Over (g.insert ⟨o, t⟩).2 (h.insert ⟨p, t⟩).2 ∧
      Rel (g.insert ⟨o, t⟩).2 (h.insert ⟨p, t⟩).2 (g.insert ⟨o, t⟩).1 (h.insert ⟨p, t⟩).1

namespace Correspondence

variable {C : Correspondence} {g h g' h' g'' h'' : Graph} {a b a' b' : Ref}

/-! ### What corresponding nodes share -/

section Shared

variable (C) (hC : C.Over g h) {xs ys : List Ref}

include hC

variable (hab : C.Rel g h a b)

include hab

theorem const? : g.const? a = h.const? b := by
  have hop := C.op hC hab
  simp only [Graph.op] at hop
  simp only [Graph.const?, Instr.const?]
  generalize (g.get a).op = o, (h.get b).op = p at hop
  cases hop <;> rfl

theorem kind : (g.op a).kind = (h.op b).kind := (C.op hC hab).kind

theorem sources : List.Forall₂ (C.Rel g h) (g.sources a) (h.sources b) := by
  rw [Graph.sources, Graph.sources, List.forall₂_map_left_iff, List.forall₂_map_right_iff]
  exact (C.op hC hab).sources.imp fun _ _ => C.resolve hC

omit hab in
theorem shape : Walk.Shape g.sources h.sources (Finset.range g.size) (Finset.range h.size)
    (C.Rel g h) where
  reads := C.sources hC
  eq_iff := C.eq_iff hC
  mem hab := ⟨Finset.mem_range.mpr (C.lt_size hC hab).1, Finset.mem_range.mpr (C.lt_size hC hab).2⟩

theorem order : List.Forall₂ (C.Rel g h) (g.order a) (h.order b) :=
  (C.shape hC).postorder (Finset.card_range _).le (Finset.card_range _).le (C.resolve hC hab)

section

variable (hxy : List.Forall₂ (C.Rel g h) xs ys)

include hxy

theorem mem_iff : a ∈ xs ↔ b ∈ ys :=
  (C.shape hC).mem_iff hab hxy

theorem contains : xs.contains a = ys.contains b := by
  rw [Bool.eq_iff_iff, List.contains_iff_mem, List.contains_iff_mem]
  exact C.mem_iff hC hab hxy

omit hab in
theorem list_eq_iff {xs' ys' : List Ref} (hxy' : List.Forall₂ (C.Rel g h) xs' ys') :
    xs = xs' ↔ ys = ys' := by
  induction hxy generalizing xs' ys' with
  | nil => cases hxy' <;> simp
  | cons hab _ ih =>
    cases hxy' with
    | nil => simp
    | cons hab' hxy' => rw [List.cons.injEq, List.cons.injEq, C.eq_iff hC hab hab', ih hxy']

omit hC hab in
theorem any_eq {p q : Ref → Bool} (hpq : ∀ a b, C.Rel g h a b → p a = q b) :
    xs.any p = ys.any q := by
  induction hxy with
  | nil => rfl
  | cons hab _ ih => rw [List.any_cons, List.any_cons, hpq _ _ hab, ih]

end

theorem dependsOn (hab' : C.Rel g h a' b') : g.dependsOn a a' = h.dependsOn b b' :=
  C.contains hC (C.resolve hC hab') (C.order hC hab)

theorem rangeAt (depth : Nat) : g.rangeAt depth a = h.rangeAt depth b := by
  induction depth generalizing a b with
  | zero => rfl
  | succ depth ih =>
    have hop := C.op hC hab
    rw [Graph.rangeAt, Graph.rangeAt, C.dtype hC hab]
    generalize g.op a = o, h.op b = p at hop
    cases hop with
    | loop axis hs he => simp only [ih hs, ih he]
    | special axis hs => simp only [ih hs]
    | binary op ha hb => simp only [ih ha, ih hb, C.eq_iff hC ha hb]
    | _ => rfl

theorem range : g.range a = h.range b := C.rangeAt hC hab maxRangeDepth

theorem addendsAt {depth depth' : Nat} (hdepth : g.Below depth a) (hdepth' : h.Below depth' b) :
    List.Forall₂ (C.Rel g h) (g.addendsAt depth a) (h.addendsAt depth' b) := by
  induction hdepth generalizing b depth' with
  | @node depth a hsources ih =>
    obtain ⟨hsources'⟩ := hdepth'
    have hop := C.op hC hab
    rw [Graph.addendsAt, Graph.addendsAt]
    generalize g.op a = o, h.op b = p at hop hsources hsources' ih
    cases hop with
    | binary op ha hb =>
      have hleft := ih _ (by simp [Op.sources]) ha (hsources' _ (by simp [Op.sources]))
      have hright := ih _ (by simp [Op.sources]) hb (hsources' _ (by simp [Op.sources]))
      cases op with
      | add => exact List.rel_append hleft hright
      | _ => exact .cons hab .nil
    | _ => exact .cons hab .nil

theorem addends : List.Forall₂ (C.Rel g h) (g.addends a) (h.addends b) :=
  C.addendsAt hC hab ((C.sound hC).1.below_size (C.lt_size hC hab).1)
    ((C.sound hC).2.below_size (C.lt_size hC hab).2)

end Shared

/-- Both graphs have grown, and their nodes are still compared. -/
structure Leads (C : Correspondence) (g h g' h' : Graph) : Prop where
  left : g.Grows g'
  right : h.Grows h'
  after : C.Over g' h'

theorem Leads.refl (hC : C.Over g h) : C.Leads g h g h :=
  ⟨.refl (C.sound hC).1.wellFormed, .refl (C.sound hC).2.wellFormed, hC⟩

theorem Leads.trans (hl : C.Leads g h g' h') (hl' : C.Leads g' h' g'' h'') :
    C.Leads g h g'' h'' :=
  ⟨hl.left.trans hl'.left, hl.right.trans hl'.right, hl'.after⟩

theorem Leads.rel (hl : C.Leads g h g' h') (hC : C.Over g h) (hab : C.Rel g h a b) :
    C.Rel g' h' a b :=
  C.grows hC hl.left hl.right hl.after hab

theorem Leads.rels (hl : C.Leads g h g' h') (hC : C.Over g h) {xs ys : List Ref}
    (hxy : List.Forall₂ (C.Rel g h) xs ys) : List.Forall₂ (C.Rel g' h') xs ys :=
  hxy.imp fun _ _ => hl.rel hC

theorem leads_insert {o p : Op} {t : DType} (hC : C.Over g h)
    (hop : Op.Matches (C.Rel g h) o p) (hw : ∀ c, o.target? = some c → C.Writable g c) :
    C.Leads g h (g.insert ⟨o, t⟩).2 (h.insert ⟨p, t⟩).2 :=
  ⟨(Graph.insert_spec (C.sound hC).1.wellFormed _).1,
    (Graph.insert_spec (C.sound hC).2.wellFormed _).1, (C.insert hC hop hw).1⟩

end Correspondence

/-! ### Work on corresponding nodes -/

section Agree

variable {α β γ δ : Type} {C : Correspondence} {g h : Graph}

def Correspondence.Related (C : Correspondence) (a b : Ref) (g h : Graph) : Prop := C.Rel g h a b

namespace Attempt

variable {x : Attempt α} {y : Attempt β} {f : α → Attempt γ} {k : β → Attempt δ}
  {post : α → β → Graph → Graph → Prop} {post' : γ → δ → Graph → Graph → Prop} {c : Prop}
  {P : α → Graph → Prop} {o : Option α}

/-- Two attempts come to results as described or both to nothing, and only add nodes. -/
def Agree (C : Correspondence) (x : Attempt α) (y : Attempt β) (g h : Graph)
    (post : α → β → Graph → Graph → Prop) : Prop :=
  C.Leads g h (x.run.run g).2 (y.run.run h).2 ∧
    Option.Rel (fun a b => post a b (x.run.run g).2 (y.run.run h).2) (x.run.run g).1 (y.run.run h).1

theorem Agree.bind (hxy : Agree C x y g h post)
    (hfk : ∀ a b g' h', C.Leads g h g' h' → post a b g' h' → Agree C (f a) (k b) g' h' post') :
    Agree C (x >>= f) (y >>= k) g h post' := by
  obtain ⟨hleads, hrel⟩ := hxy
  rw [Agree, run_bind, run_bind]
  generalize (x.run.run g).1 = o, (y.run.run h).1 = p at hrel
  cases hrel with
  | none => exact ⟨hleads, .none⟩
  | some hab =>
    obtain ⟨hleads', hrel'⟩ := hfk _ _ _ _ hleads hab
    exact ⟨hleads.trans hleads', hrel'⟩

theorem Agree.and_left (hxy : Agree C x y g h post) (hx : Ensures x g P) :
    Agree C x y g h fun a b g' h' => post a b g' h' ∧ P a g' := by
  obtain ⟨hleads, hrel⟩ := hxy
  have hP := hx.2
  refine ⟨hleads, ?_⟩
  generalize (x.run.run g).1 = o, (y.run.run h).1 = p at hrel hP
  cases hrel with
  | none => exact .none
  | some hab => exact .some ⟨hab, hP _ rfl⟩

theorem Agree.mono (hxy : Agree C x y g h post) {P : α → β → Graph → Graph → Prop}
    (himp : ∀ a b g' h', C.Leads g h g' h' → post a b g' h' → P a b g' h') : Agree C x y g h P := by
  obtain ⟨hleads, hrel⟩ := hxy
  refine ⟨hleads, ?_⟩
  generalize (x.run.run g).1 = o, (y.run.run h).1 = p at hrel
  cases hrel with
  | none => exact .none
  | some hab => exact .some (himp _ _ _ _ hleads hab)

theorem Agree.ensures (hxy : Agree C x y g h fun a b g' h' => post a b g' h' ∧ P a g') :
    Ensures x g P := by
  obtain ⟨hleads, hrel⟩ := hxy
  refine ⟨hleads.left, ?_⟩
  generalize (x.run.run g).1 = o, (y.run.run h).1 = p at hrel
  cases hrel with
  | none => nofun
  | some hab => rintro _ ⟨⟩; exact hab.2

theorem agree_failure (hC : C.Over g h) :
    Agree C (failure : Attempt α) (failure : Attempt β) g h post :=
  ⟨.refl hC, .none⟩

theorem agree_pure {a : α} {b : β} (hC : C.Over g h) (hab : post a b g h) :
    Agree C (pure a) (pure b) g h post :=
  ⟨.refl hC, .some hab⟩

theorem agree_get {f : Graph → Attempt γ} {k : Graph → Attempt δ}
    (hfk : Agree C (f g) (k h) g h post') :
    Agree C (do f (← get)) (do k (← get)) g h post' := hfk

theorem agree_ofOption {k : α → Attempt δ} (hC : C.Over g h)
    (hfk : ∀ a, o = some a → Agree C (f a) (k a) g h post') :
    Agree C (ofOption o >>= f) (ofOption o >>= k) g h post' := by
  cases o with
  | none => exact agree_failure hC
  | some a => exact hfk a rfl

theorem agree_option {P : α → β → Prop} {p : Option β} (hC : C.Over g h) (hop : Option.Rel P o p) :
    Agree C (ofOption o) (ofOption p) g h fun a b g' h' => (g' = g ∧ h' = h) ∧ P a b ∧ o = some a :=
  ⟨.refl hC, by cases hop with
    | none => exact .none
    | some hab => exact .some ⟨⟨rfl, rfl⟩, hab, rfl⟩⟩

theorem agree_check [Decidable c] {f : PUnit → Attempt γ} {k : PUnit → Attempt δ}
    (hC : C.Over g h) (hfk : ¬c → Agree C (f ⟨⟩) (k ⟨⟩) g h post') :
    Agree C (if c then failure >>= f else f ⟨⟩) (if c then failure >>= k else k ⟨⟩) g h post' := by
  by_cases hc : c
  · rw [if_pos hc, if_pos hc]
    exact agree_failure hC
  · rw [if_neg hc, if_neg hc]
    exact hfk hc

theorem agree_ite [Decidable c] {x x' : Attempt γ} {y y' : Attempt δ}
    (h₁ : c → Agree C x y g h post') (h₂ : ¬c → Agree C x' y' g h post') :
    Agree C (if c then x else x') (if c then y else y') g h post' := by
  by_cases hc : c
  · rw [if_pos hc, if_pos hc]
    exact h₁ hc
  · rw [if_neg hc, if_neg hc]
    exact h₂ hc

theorem agree_foldlM {σ τ : Type} {step : σ → α → Attempt σ} {step' : τ → β → Attempt τ}
    {P : α → β → Graph → Graph → Prop} {I : List α → σ → τ → Graph → Graph → Prop} {xs : List α}
    {ys : List β} {s : σ} {t : τ}
    (hP : ∀ a b g₁ h₁ g₂ h₂, C.Over g₁ h₁ → C.Leads g₁ h₁ g₂ h₂ → P a b g₁ h₁ → P a b g₂ h₂)
    (hstep : ∀ done a b s t g h, C.Over g h → P a b g h → I done s t g h →
      Agree C (step s a) (step' t b) g h (I (done ++ [a])))
    (hC : C.Over g h) (hxy : List.Forall₂ (fun a b => P a b g h) xs ys) (done : List α)
    (hI : I done s t g h) : Agree C (xs.foldlM step s) (ys.foldlM step' t) g h (I (done ++ xs)) := by
  induction xs generalizing ys s t g h done with
  | nil =>
    cases hxy
    rw [List.append_nil]
    exact agree_pure hC hI
  | cons a xs ih =>
    obtain _ | ⟨hab, hxy⟩ := hxy
    rw [List.foldlM_cons, List.foldlM_cons, List.append_cons]
    refine (hstep _ _ _ _ _ _ _ hC hab hI).bind fun s' t' g' h' hl hI' => ?_
    exact ih hl.after (hxy.imp fun a b => hP a b _ _ _ _ hC hl) _ hI'

theorem agree_insert {o p : Op} {t : DType} (hC : C.Over g h)
    (hop : Op.Matches (C.Rel g h) o p) (hw : ∀ c, o.target? = some c → C.Writable g c) :
    Agree C (Build.insert o t : Attempt Ref) (Build.insert p t : Attempt Ref) g h C.Related :=
  ⟨C.leads_insert hC hop hw, .some (C.insert hC hop hw).2⟩

theorem agree_const (hC : C.Over g h) (v : Value) (t : DType) :
    Agree C (Build.const v t : Attempt Ref) (Build.const v t : Attempt Ref) g h C.Related :=
  agree_insert hC (.const _) nofun

end Attempt

namespace Build

variable {x : Build α} {y : Build β} {f : α → Build γ} {k : β → Build δ}
  {post : α → β → Graph → Graph → Prop} {post' : γ → δ → Graph → Graph → Prop} {e e' : BuildError}

theorem run_toAttempt (x : Build α) (g : Graph) :
    x.toAttempt.run.run g = ((x.run.run g).1.toOption, (x.run.run g).2) := by
  change (ofResult (x.run.run g).1).run.run (x.run.run g).2 = _
  cases (x.run.run g).1 <;> rfl

/-- Two pieces of work agree if they do once reasons for failure are forgotten. -/
def Agree (C : Correspondence) (x : Build α) (y : Build β) (g h : Graph)
    (post : α → β → Graph → Graph → Prop) : Prop :=
  Attempt.Agree C x.toAttempt y.toAttempt g h post

theorem Agree.bind (hxy : Agree C x y g h post)
    (hfk : ∀ a b g' h', C.Leads g h g' h' → post a b g' h' → Agree C (f a) (k b) g' h' post') :
    Agree C (x >>= f) (y >>= k) g h post' := by
  have hbind : ∀ {α β : Type} (x : Build α) (f : α → Build β) (g : Graph),
      (x >>= f).toAttempt.run.run g = (x.toAttempt >>= fun a => (f a).toAttempt).run.run g := by
    intro α β x f g
    rw [run_toAttempt, run_bind, Attempt.run_bind, run_toAttempt]
    cases hx : (x.run.run g).1 with
    | error e => rfl
    | ok a => exact (run_toAttempt _ _).symm
  have hagree := Attempt.Agree.bind hxy hfk
  rwa [Agree, Attempt.Agree, hbind, hbind]

theorem agree_throw (hC : C.Over g h) : Agree C (throw e : Build α) (throw e' : Build β) g h post :=
  ⟨.refl hC, .none⟩

theorem agree_pure {a : α} {b : β} (hC : C.Over g h) (hab : post a b g h) :
    Agree C (pure a : Build α) (pure b : Build β) g h post :=
  ⟨.refl hC, .some hab⟩

theorem agree_dtypeOf {a b : Ref} (hC : C.Over g h) (hab : C.Rel g h a b) :
    Agree C (dtypeOf a) (dtypeOf b) g h fun t u g' h' =>
      (g' = g ∧ h' = h) ∧ t = g.dtype a ∧ u = t :=
  ⟨.refl hC, .some ⟨⟨rfl, rfl⟩, rfl, (C.dtype hC hab).symm⟩⟩

theorem agree_check {c : Prop} {_ : Decidable c} {f : PUnit → Build γ} {k : PUnit → Build δ}
    (hC : C.Over g h) (hfk : c → Agree C (f ⟨⟩) (k ⟨⟩) g h post') :
    Agree C (if c then f ⟨⟩ else throw e >>= f) (if c then k ⟨⟩ else throw e' >>= k) g h post' := by
  by_cases hc : c
  · rw [if_pos hc, if_pos hc]
    exact hfk hc
  · rw [if_neg hc, if_neg hc]
    exact ⟨.refl hC, .none⟩

theorem agree_insert {o p : Op} {t : DType} (hC : C.Over g h)
    (hop : Op.Matches (C.Rel g h) o p) (hw : ∀ c, o.target? = some c → C.Writable g c) :
    Agree C (insert o t : Build Ref) (insert p t : Build Ref) g h C.Related :=
  ⟨C.leads_insert hC hop hw, .some (C.insert hC hop hw).2⟩

end Build

end Agree

end LazyTensor

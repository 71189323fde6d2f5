import LazyTensor.Graph.Op
import Mathlib.Data.List.Forall2
import Mathlib.Tactic.Cases

/-!
# Operations and their sources

Two operations match if they differ in their sources only, and those are related one by one.
-/

namespace LazyTensor

namespace Op

variable {R R' : Ref → Ref → Prop} {f f' : Ref → Ref} {o p q : Op}

theorem mapSources_id (op : Op) : op.mapSources id = op := by
  cases op <;> simp [mapSources]

theorem mapSources_mapSources (f f' : Ref → Ref) (op : Op) :
    (op.mapSources f).mapSources f' = op.mapSources (f' ∘ f) := by
  cases op <;> simp [mapSources, Function.comp_def]

@[simp] theorem sources_mapSources (f : Ref → Ref) (op : Op) :
    (op.mapSources f).sources = op.sources.map f := by
  cases op with
  | load buffer index gate | store buffer index value gate => cases gate <;> rfl
  | _ => simp [mapSources, sources]

@[simp] theorem kind_mapSources (f : Ref → Ref) (op : Op) : (op.mapSources f).kind = op.kind := by
  cases op <;> rfl

theorem mapSources_congr (h : ∀ s ∈ o.sources, f s = f' s) : o.mapSources f = o.mapSources f' := by
  cases o with
  | load buffer index gate | store buffer index value gate =>
    cases gate <;> simp_all [mapSources, sources]
  | _ => simp_all [mapSources, sources]

theorem mapSources_eq_self (h : ∀ s ∈ o.sources, f s = s) : o.mapSources f = o := by
  have hid : o.mapSources f = o.mapSources id := mapSources_congr h
  rw [hid, mapSources_id]

def target? : Op → Option Ref
  | store buffer _ _ _ => some buffer
  | _ => none

theorem target?_mapSources (f : Ref → Ref) (op : Op) :
    (op.mapSources f).target? = op.target?.map f := by
  cases op <;> rfl

theorem mem_sources_of_target? {r : Ref} (h : o.target? = some r) : r ∈ o.sources := by
  cases o with
  | store buffer index value gate =>
    cases h
    cases gate <;> exact List.mem_cons_self
  | _ => cases h

/-- Two operations that do the same on related sources. -/
inductive Matches (R : Ref → Ref → Prop) : Op → Op → Prop
  | const (v : Value) : Matches R (const v) (const v)
  | noop : Matches R noop noop
  | defineGlobal (slot : Nat) : Matches R (defineGlobal slot) (defineGlobal slot)
  | defineLocal (name : String) (size : Nat) :
    Matches R (defineLocal name size) (defineLocal name size)
  | defineVar (v : SymVar) : Matches R (defineVar v) (defineVar v)
  | sink {rs rs' : List Ref} (h : List.Forall₂ R rs rs') : Matches R (sink rs) (sink rs')
  | barrier {rs rs' : List Ref} (h : List.Forall₂ R rs rs') : Matches R (barrier rs) (barrier rs')
  | special (axis : Nat) {size size' : Ref} (h : R size size') :
    Matches R (special axis size) (special axis size')
  | phi {acc acc' value value' : Ref} {ls ls' : List Ref} (hacc : R acc acc')
    (hvalue : R value value') (hloops : List.Forall₂ R ls ls') :
    Matches R (phi acc value ls) (phi acc' value' ls')
  | defineAcc (slot : Nat) (init : Value) {ls ls' : List Ref} (h : List.Forall₂ R ls ls') :
    Matches R (defineAcc slot init ls) (defineAcc slot init ls')
  | load {b b' i i' : Ref} (hb : R b b') (hi : R i i') :
    Matches R (load b i none) (load b' i' none)
  | gatedLoad {b b' i i' v v' a a' : Ref} (hb : R b b') (hi : R i i') (hv : R v v') (ha : R a a') :
    Matches R (load b i (some (v, a))) (load b' i' (some (v', a')))
  | store {b b' i i' x x' : Ref} (hb : R b b') (hi : R i i') (hx : R x x') :
    Matches R (store b i x none) (store b' i' x' none)
  | gatedStore {b b' i i' x x' v v' : Ref} (hb : R b b') (hi : R i i') (hx : R x x') (hv : R v v') :
    Matches R (store b i x (some v)) (store b' i' x' (some v'))
  | cast {a a' : Ref} (h : R a a') : Matches R (cast a) (cast a')
  | unary (op : UnaryOp) {a a' : Ref} (h : R a a') : Matches R (unary op a) (unary op a')
  | binary (op : BinaryOp) {a a' b b' : Ref} (ha : R a a') (hb : R b b') :
    Matches R (binary op a b) (binary op a' b')
  | ternary (op : TernaryOp) {a a' b b' c c' : Ref} (ha : R a a') (hb : R b b') (hc : R c c') :
    Matches R (ternary op a b c) (ternary op a' b' c')
  | loop {s s' e e' : Ref} (axis : LoopAxis) (hs : R s s') (he : R e e') :
    Matches R (loop s e axis) (loop s' e' axis)
  | endLoop {r r' : Ref} (h : R r r') : Matches R (endLoop r) (endLoop r')
  | branch {r r' : Ref} (h : R r r') : Matches R (branch r) (branch r')
  | endBranch {r r' : Ref} (h : R r r') : Matches R (endBranch r) (endBranch r')

theorem Matches.kind (h : Matches R o p) : o.kind = p.kind := by
  cases h <;> rfl

theorem Matches.sources (h : Matches R o p) : List.Forall₂ R o.sources p.sources := by
  cases h <;> simp_all [Op.sources]

theorem matches_mapSources (h : ∀ s ∈ o.sources, R s (f s)) : Matches R o (o.mapSources f) := by
  have hlist : ∀ {rs : List Ref}, (∀ s ∈ rs, R s (f s)) → List.Forall₂ R rs (rs.map f) :=
    fun hrs => List.forall₂_map_right_iff.mpr (List.forall₂_same.mpr hrs)
  cases o with
  | load buffer index gate | store buffer index value gate =>
    cases gate <;> simp only [Op.sources, List.forall_mem_cons] at h <;> constructor <;> simp [h]
  | phi acc value loops =>
    simp only [Op.sources, List.forall_mem_cons] at h
    exact .phi h.1 h.2.1 (hlist h.2.2)
  | sink rs => exact .sink (hlist h)
  | barrier rs => exact .barrier (hlist h)
  | defineAcc slot init loops => exact .defineAcc slot init (hlist h)
  | _ => simp only [Op.sources, List.forall_mem_cons] at h; constructor <;> simp [h]

theorem Matches.eq_mapSources (h : Matches R o p) (hR : ∀ a b, a ∈ o.sources → R a b → b = f a) :
    p = o.mapSources f := by
  have hlist : ∀ {rs rs' : List Ref}, (∀ a b, a ∈ rs → R a b → b = f a) → List.Forall₂ R rs rs' →
      rs' = rs.map f := by
    intro rs rs' hrs h
    induction h with
    | nil => rfl
    | cons hab _ ih =>
      rw [List.map_cons, ← hrs _ _ List.mem_cons_self hab,
        ← ih fun a b ha => hrs a b (List.mem_cons_of_mem _ ha)]
  cases h with
  | sink h => exact congrArg Op.sink (hlist hR h)
  | barrier h => exact congrArg Op.barrier (hlist hR h)
  | defineAcc slot init h => exact congrArg (Op.defineAcc slot init) (hlist hR h)
  | phi hacc hvalue hloops =>
    simp only [Op.sources, List.mem_cons] at hR
    rw [Op.mapSources, ← hlist (fun a b ha => hR a b (.inr (.inr ha))) hloops,
      hR _ _ (.inl rfl) hacc, hR _ _ (.inr (.inl rfl)) hvalue]
  | _ =>
    simp only [Op.mapSources, Option.map_some, Option.map_none]
    try congr 1
    all_goals grind [Op.sources]

theorem Matches.exists_map (h : Matches R o p) (hR : ∀ a b b', R a b → R a b' → b = b') :
    ∃ f, p = o.mapSources f ∧ ∀ s ∈ o.sources, R s (f s) := by
  classical
  let f := fun a => if hex : ∃ b, R a b then hex.choose else a
  have hf : ∀ a b, R a b → b = f a := by
    intro a b hab
    have hex : ∃ b, R a b := ⟨b, hab⟩
    simp only [f, dif_pos hex]
    exact hR a b _ hab hex.choose_spec
  have hp := h.eq_mapSources fun a b _ => hf a b
  refine ⟨f, hp, fun s hs => ?_⟩
  have hsources := h.sources
  rw [hp, sources_mapSources, List.forall₂_map_right_iff, List.forall₂_same] at hsources
  exact hsources s hs

end Op

end LazyTensor

import LazyTensor.Simplify.Rule
import Mathlib.Logic.Basic

/-!
# Growth of graphs

Adding nodes keeps the nodes that are there. Work on a graph that only adds nodes is described by
what it ensures of its result and of the graph it leaves.
-/

namespace LazyTensor

namespace Graph

variable {g g' g'' : Graph} {n : Instr} {r i : Ref}

/-- Every slot has a home, and homes are their own homes. -/
structure WellFormed (g : Graph) : Prop where
  size_home : g.home.size = g.nodes.size
  home_home : ∀ {i h : Ref}, g.home[i]? = some h → g.home[h]? = some h

/-- The second graph has the slots of the first, unchanged, and maybe more. -/
structure Grows (g g' : Graph) : Prop where
  wellFormed : g'.WellFormed
  nodes : ∀ {i : Ref} {n : Instr}, g.nodes[i]? = some n → g'.nodes[i]? = some n
  home : ∀ {i h : Ref}, g.home[i]? = some h → g'.home[i]? = some h

theorem Grows.refl (hg : g.WellFormed) : g.Grows g := ⟨hg, id, id⟩

theorem Grows.trans (h : g.Grows g') (h' : g'.Grows g'') : g.Grows g'' :=
  ⟨h'.wellFormed, fun hi => h'.nodes (h.nodes hi), fun hi => h'.home (h.home hi)⟩

theorem WellFormed.home_of_lt (hg : g.WellFormed) (hr : r < g.size) :
    g.home[r]? = some (g.resolve r) := by
  have hr' : r < g.home.size := hg.size_home ▸ hr
  rw [resolve, Array.getD_eq_getD_getElem?, Array.getElem?_eq_getElem hr', Option.getD_some]

theorem WellFormed.resolve_lt (hg : g.WellFormed) (hr : r < g.size) : g.resolve r < g.size := by
  have h := hg.home_home (hg.home_of_lt hr)
  obtain ⟨hlt, -⟩ := Array.getElem?_eq_some_iff.mp h
  exact Nat.lt_of_lt_of_eq hlt hg.size_home

theorem resolve_of_home {h : Ref} (hh : g.home[r]? = some h) : g.resolve r = h := by
  rw [resolve, Array.getD_eq_getD_getElem?, hh, Option.getD_some]

section

variable (hg : g.WellFormed)

include hg

theorem resolve_of_ge (hr : g.size ≤ r) : g.resolve r = r := by
  have hr' : g.home.size ≤ r := hg.size_home ▸ hr
  rw [resolve, Array.getD_eq_getD_getElem?, Array.getElem?_eq_none hr', Option.getD_none]

theorem WellFormed.resolve_resolve (r : Ref) : g.resolve (g.resolve r) = g.resolve r := by
  by_cases hr : r < g.size
  · exact resolve_of_home (hg.home_home (hg.home_of_lt hr))
  · rw [resolve_of_ge hg (Nat.le_of_not_lt hr), resolve_of_ge hg (Nat.le_of_not_lt hr)]

theorem get_of_ge (hr : g.size ≤ r) : g.get r = ⟨.noop, .void⟩ := by
  rw [get, resolve_of_ge hg hr, Array.getD_eq_getD_getElem?, Array.getElem?_eq_none hr]
  rfl

theorem op_of_ge (hr : g.size ≤ r) : g.op r = .noop := by
  rw [op, get_of_ge hg hr]

theorem lt_size_of_op (h : g.op r ≠ .noop) : r < g.size :=
  Nat.lt_of_not_le fun hge => h (op_of_ge hg hge)

theorem lt_size_of_dtype (h : g.dtype r ≠ .void) : r < g.size :=
  Nat.lt_of_not_le fun hge => h (by rw [dtype, get_of_ge hg hge])

theorem get_resolve (r : Ref) : g.get (g.resolve r) = g.get r := by
  rw [get, get, hg.resolve_resolve]

end

theorem get_of_nodes (hn : g.nodes[g.resolve r]? = some n) : g.get r = n := by
  rw [get, Array.getD_eq_getD_getElem?, hn, Option.getD_some]

theorem WellFormed.nodes_of_lt (hg : g.WellFormed) (hr : r < g.size) :
    g.nodes[g.resolve r]? = some (g.get r) := by
  have h := hg.resolve_lt hr
  rw [get, Array.getD_eq_getD_getElem?, Array.getElem?_eq_getElem h, Option.getD_some]

theorem Grows.size_le (h : g.Grows g') : g.size ≤ g'.size := by
  refine Nat.le_of_not_lt fun hlt => ?_
  have hlast := h.nodes (Array.getElem?_eq_getElem hlt)
  rw [Array.getElem?_eq_none (show g'.nodes.size ≤ g'.size from Nat.le_refl _)] at hlast
  cases hlast

section Grows

variable (h : g.Grows g') (hg : g.WellFormed) (hr : r < g.size)

include h hg hr

theorem Grows.resolve_eq : g'.resolve r = g.resolve r :=
  resolve_of_home (h.home (hg.home_of_lt hr))

theorem Grows.get_eq : g'.get r = g.get r := by
  refine get_of_nodes ?_
  rw [h.resolve_eq hg hr]
  exact h.nodes (hg.nodes_of_lt hr)

theorem Grows.op_eq : g'.op r = g.op r := by
  rw [op, h.get_eq hg hr, op]

theorem Grows.dtype_eq : g'.dtype r = g.dtype r := by
  rw [dtype, h.get_eq hg hr, dtype]

end Grows

/-! ### Adding a node -/

theorem findBelow_eq_some {skip : Option Ref} {bound : Nat}
    (h : g.findBelow n skip bound = some i) :
    some i ≠ skip ∧ g.Holds i n := by
  induction bound with
  | zero => cases h
  | succ k ih =>
    rw [findBelow] at h
    by_cases hk : some k ≠ skip ∧ g.Holds k n
    · rw [if_pos hk, Option.some.injEq] at h
      exact h ▸ hk
    · rw [if_neg hk] at h
      exact ih h

theorem Holds.get_eq (h : g.Holds i n) : g.get i = n :=
  get_of_nodes ((resolve_of_home h.1).symm ▸ h.2)

theorem Holds.lt_size (h : g.Holds i n) : i < g.size := (Array.getElem?_eq_some_iff.mp h.2).1

/-- Adding a node gives a slot in use that holds it, and keeps the others. -/
theorem insert_spec (hg : g.WellFormed) (n : Instr) :
    g.Grows (g.insert n).2 ∧ (g.insert n).2.Holds (g.insert n).1 (g.resolved n) := by
  rw [insert]
  cases hfind : g.find? (g.resolved n) with
  | some i => exact ⟨.refl hg, (findBelow_eq_some hfind).2⟩
  | none =>
    have hsize : g.home.size = g.size := hg.size_home
    refine ⟨⟨⟨?_, ?_⟩, ?_, ?_⟩, ?_, ?_⟩
    · simp [hsize, size]
    · intro i h hi
      simp only [Array.getElem?_push, hsize] at hi ⊢
      split at hi
      · obtain rfl := Option.some.inj hi
        simp
      · have hh := hg.home_home hi
        rwa [if_neg (fun heq => ?_)]
        obtain ⟨hlt, -⟩ := Array.getElem?_eq_some_iff.mp hh
        omega
    · intro i n hi
      obtain ⟨hlt, -⟩ := Array.getElem?_eq_some_iff.mp hi
      simpa [Array.getElem?_push, Nat.ne_of_lt hlt] using hi
    · intro i h hi
      obtain ⟨hlt, -⟩ := Array.getElem?_eq_some_iff.mp hi
      simpa [Array.getElem?_push, Nat.ne_of_lt hlt] using hi
    · rw [Array.getElem?_push, if_pos hsize.symm]
    · exact Array.getElem?_push_size

end Graph

/-! ### Work that only adds nodes -/

namespace GraphM

variable {α β : Type}

theorem run_bind (x : GraphM α) (f : α → GraphM β) (g : Graph) :
    (x >>= f).run g = (f (x.run g).1).run (x.run g).2 := rfl

theorem run_get_bind (k : Graph → GraphM α) (g : Graph) :
    (MonadState.get >>= k).run g = (k g).run g := rfl

end GraphM

namespace Build

variable {α β : Type} {g : Graph} {x : Build α} {f : α → Build β} {post : α → Graph → Prop}
  {post' : β → Graph → Prop} {a : α}

/-- Work on `g` only adds nodes, and its result, if it does not fail, is as described. -/
def Ensures (x : Build α) (g : Graph) (post : α → Graph → Prop) : Prop :=
  g.Grows (x.run.run g).2 ∧ ∀ a, (x.run.run g).1 = .ok a → post a (x.run.run g).2

theorem Ensures.mono (h : x.Ensures g post) {post' : α → Graph → Prop}
    (himp : ∀ a g', g.Grows g' → post a g' → post' a g') : x.Ensures g post' :=
  ⟨h.1, fun a ha => himp a _ h.1 (h.2 a ha)⟩

theorem run_bind (x : Build α) (f : α → Build β) (g : Graph) :
    (x >>= f).run.run g = match (x.run.run g).1 with
      | .ok a => (f a).run.run (x.run.run g).2
      | .error e => (.error e, (x.run.run g).2) := by
  rw [ExceptT.run_bind, StateT.run_bind]
  simp only [bind, Id]
  cases (x.run.run g).1 <;> rfl

theorem run_get_bind (k : Graph → Build α) (g : Graph) :
    (MonadState.get >>= k).run.run g = (k g).run.run g := rfl

theorem run_lift_bind (x : GraphM α) (f : α → Build β) (g : Graph) :
    (liftM x >>= f).run.run g = (f (x.run g).1).run.run (x.run g).2 := rfl

theorem run_eq_ok {g' : Graph} (ha : (x.run.run g).1.toOption = some a)
    (hg : (x.run.run g).2 = g') : x.run.run g = (.ok a, g') := by
  generalize x.run.run g = run at *
  obtain ⟨_ | b, h⟩ := run
  · cases ha
  · obtain rfl := Option.some.inj ha
    rw [← hg]

theorem Ensures.bind (hx : x.Ensures g post)
    (hf : ∀ a g', g.Grows g' → post a g' → (f a).Ensures g' post') :
    (x >>= f).Ensures g post' := by
  rw [Ensures, run_bind]
  cases hrun : (x.run.run g).1 with
  | error e => exact ⟨hx.1, nofun⟩
  | ok a =>
    have h := hf a _ hx.1 (hx.2 a hrun)
    exact ⟨hx.1.trans h.1, h.2⟩

variable (hg : g.WellFormed)

include hg

theorem ensures_pure (h : post a g) : (pure a : Build α).Ensures g post :=
  ⟨.refl hg, fun b hb => by cases hb; exact h⟩

omit hg in
theorem ensures_lift {m : GraphM α} (hgrows : g.Grows (m.run g).2)
    (h : post (m.run g).1 (m.run g).2) : Ensures (m : Build α) g post :=
  ⟨hgrows, fun a ha => by cases ha; exact h⟩

theorem ensures_check {c : Prop} {_ : Decidable c} {e : BuildError} {next : PUnit → Build β}
    (h : c → (next ⟨⟩).Ensures g post') :
    (if c then next ⟨⟩ else throw e >>= next).Ensures g post' := by
  by_cases hc : c
  · rw [if_pos hc]
    exact h hc
  · rw [if_neg hc]
    exact ⟨.refl hg, nofun⟩

theorem ensures_dtypeOf (r : Ref) : (dtypeOf r).Ensures g fun t g' => g' = g ∧ t = g.dtype r :=
  ⟨.refl hg, fun t ht => by cases ht; exact ⟨rfl, rfl⟩⟩

theorem ensures_insert (op : Op) (t : DType) :
    Ensures (insert op t : Build Ref) g fun r g' => g'.Holds r (g.resolved ⟨op, t⟩) :=
  ensures_lift (g.insert_spec hg ⟨op, t⟩).1 (g.insert_spec hg ⟨op, t⟩).2

theorem ensures_binary (op : BinaryOp) (a b : Ref) :
    (binary op a b).Ensures g fun r g' =>
      g.dtype a = g.dtype b ∧ op.accepts (g.dtype a) ∧
        g'.Holds r (g.resolved ⟨.binary op a b, op.resultType (g.dtype a)⟩) := by
  refine (ensures_dtypeOf hg a).bind ?_
  rintro _ _ - ⟨rfl, rfl⟩
  refine (ensures_dtypeOf hg b).bind ?_
  rintro _ _ - ⟨rfl, rfl⟩
  refine ensures_check hg fun hsame => ?_
  refine ensures_check hg fun haccepts => ?_
  exact (ensures_insert hg _ _).mono fun r g' _ h => ⟨hsame, haccepts, h⟩

end Build

namespace Attempt

variable {α β : Type} {g : Graph} {x : Attempt α} {f : α → Attempt β}
  {post : α → Graph → Prop} {post' : β → Graph → Prop}

/-- Work on `g` only adds nodes, and its result, if there is one, is as described. -/
def Ensures (x : Attempt α) (g : Graph) (post : α → Graph → Prop) : Prop :=
  g.Grows (x.run.run g).2 ∧ ∀ a, (x.run.run g).1 = some a → post a (x.run.run g).2

theorem Ensures.mono (h : Ensures x g post) {post' : α → Graph → Prop}
    (himp : ∀ a g', g.Grows g' → post a g' → post' a g') : Ensures x g post' :=
  ⟨h.1, fun a ha => himp a _ h.1 (h.2 a ha)⟩

theorem run_bind (x : Attempt α) (f : α → Attempt β) (g : Graph) :
    (x >>= f).run.run g = match (x.run.run g).1 with
      | some a => (f a).run.run (x.run.run g).2
      | none => (none, (x.run.run g).2) := by
  rw [OptionT.run_bind, Option.elimM, StateT.run_bind]
  simp only [bind, Id]
  cases (x.run.run g).1 <;> rfl

theorem Ensures.bind (hx : Ensures x g post)
    (hf : ∀ a g', g.Grows g' → post a g' → Ensures (f a) g' post') :
    Ensures (x >>= f) g post' := by
  rw [Ensures, run_bind]
  cases hrun : (x.run.run g).1 with
  | none => exact ⟨hx.1, nofun⟩
  | some a =>
    have h := hf a _ hx.1 (hx.2 a hrun)
    exact ⟨hx.1.trans h.1, h.2⟩

theorem ensures_failure (hg : g.WellFormed) : Ensures (failure : Attempt α) g post :=
  ⟨.refl hg, nofun⟩

theorem ensures_pure {a : α} (hg : g.WellFormed) (h : post a g) :
    Ensures (pure a : Attempt α) g post :=
  ⟨.refl hg, fun b hb => by cases hb; exact h⟩

theorem run_get_bind (k : Graph → Attempt α) (g : Graph) :
    (MonadState.get >>= k).run.run g = (k g).run.run g := rfl

theorem ofOption_some_bind (a : α) (f : α → Attempt β) : ofOption (some a) >>= f = f a := rfl

theorem ensures_get {f : Graph → Attempt β} (h : Ensures (f g) g post') :
    Ensures (do f (← get)) g post' := h

theorem ensures_ofOption {o : Option α} (hg : g.WellFormed)
    (h : ∀ a, o = some a → Ensures (f a) g post') : Ensures (ofOption o >>= f) g post' := by
  cases o with
  | none => exact ensures_failure hg
  | some a => exact h a rfl

theorem ensures_lift {m : GraphM α} (hgrows : g.Grows (m.run g).2)
    (h : post (m.run g).1 (m.run g).2) : Ensures (m : Attempt α) g post :=
  ⟨hgrows, fun a ha => by cases ha; exact h⟩

theorem ensures_toAttempt {b : Build α} (h : b.Ensures g post) : Ensures b.toAttempt g post := by
  have hrun : b.toAttempt.run.run g = (((b.run.run g).1.toOption), (b.run.run g).2) := by
    change ((Build.ofResult (b.run.run g).1).run.run (b.run.run g).2) = _
    cases (b.run.run g).1 <;> rfl
  rw [Ensures, hrun]
  refine ⟨h.1, fun a ha => h.2 a ?_⟩
  cases hres : (b.run.run g).1 with
  | error e => rw [hres] at ha; cases ha
  | ok a' => rw [hres] at ha; cases ha; rfl

theorem ensures_const (hg : g.WellFormed) (v : Value) (t : DType) :
    Ensures (Build.const v t : Attempt Ref) g fun r g' =>
      g'.Holds r ⟨.const (v.normalize t), t⟩ :=
  ensures_lift (g.insert_spec hg _).1 (g.insert_spec hg ⟨.const (v.normalize t), t⟩).2

end Attempt

end LazyTensor

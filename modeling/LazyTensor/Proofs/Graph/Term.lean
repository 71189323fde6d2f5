import LazyTensor.Proofs.Graph.Meaning

/-!
# Well-formed expressions

A node heads a well-formed expression if everything it reads has the right type and it reads itself
nowhere. The loops and accumulators in an expression are where a setting has them.
-/

namespace LazyTensor

/-- What a run binds anew as it goes. -/
inductive Binder where
  | loop (axis : LoopAxis)
  | acc (slot : Nat)

structure Setting where
  /-- The slots where a loop or an accumulator may be. -/
  place : Binder → Ref → Prop
  /-- The sizes of the launch of a kernel. There are loads and reductions only in a kernel, and
  variables only elsewhere. -/
  grid : Option (Nat → Int)
  ints : DType → Prop

namespace Op

def binder? : Op → Option Binder
  | loop _ _ axis => some (.loop axis)
  | defineAcc slot _ _ => some (.acc slot)
  | _ => none

variable (f : Ref → Ref) (op : Op) {s : Ref}

@[simp] theorem operands_mapSources : (op.mapSources f).operands = op.operands.map f := by
  cases op with
  | load buffer index gate | store buffer index value gate => cases gate <;> rfl
  | _ => simp [mapSources, operands, sources]

@[simp] theorem scopes_mapSources : (op.mapSources f).scopes = op.scopes.map f := by
  cases op <;> simp [mapSources, scopes]

@[simp] theorem binder?_mapSources : (op.mapSources f).binder? = op.binder? := by
  cases op <;> rfl

theorem operands_subset {op : Op} (h : s ∈ op.operands) : s ∈ op.sources := by
  cases op with
  | phi acc update loops => simp_all [operands, sources]
  | load buffer index gate => cases gate <;> simp_all [operands, sources]
  | defineAcc slot init loops => simp [operands] at h
  | _ => exact h

theorem scopes_subset {op : Op} (h : s ∈ op.scopes) : s ∈ op.sources := by
  cases op with
  | phi acc update loops => simp_all [scopes, sources]
  | _ => simp [scopes] at h

end Op

theorem Value.hasType_of_ofType? {t : DType} {v w : Value} (h : w.ofType? t = some v) :
    v.HasType t := by
  rw [ofType?] at h
  split at h
  case isTrue hw => exact Option.some.inj h ▸ hw
  case isFalse => cases h

namespace Graph

/-- What a node reads has the types that its operation needs. -/
def Typed (g : Graph) (r : Ref) : Prop :=
  match g.op r with
  | .const v => (g.dtype r).IsPlain ∧ v.HasType (g.dtype r)
  | .defineVar _ => g.dtype r = .index
  | .defineGlobal _ => True
  | .special _ size => g.dtype r = .index ∧ g.dtype size = .index
  | .loop start stop _ => g.dtype r = .index ∧ g.dtype start = .index ∧ g.dtype stop = .index
  | .defineAcc _ init loops =>
    (g.dtype r).IsPlain ∧ init.HasType (g.dtype r) ∧ ∀ l ∈ loops, (g.op l).isLoop = true
  | .phi acc update loops =>
    (g.dtype r).IsPlain ∧ (∃ slot init ls, g.op acc = .defineAcc slot init ls) ∧
      g.dtype acc = g.dtype r ∧ g.dtype update = g.dtype r ∧ ∀ l ∈ loops, (g.op l).isLoop = true
  | .load buffer index gate =>
    (g.dtype r).IsPlain ∧ (∃ slot, g.op buffer = .defineGlobal slot) ∧
      (g.dtype buffer).pointee? = some (g.dtype r) ∧ g.dtype index = .index ∧
      ∀ p ∈ gate, g.dtype p.1 = .bool ∧ g.dtype p.2 = g.dtype r
  | .cast a => (g.dtype r).IsPlain ∧ (g.dtype a).IsPlain
  | .unary op a => (g.dtype r).IsPlain ∧ g.dtype a = g.dtype r ∧ op.accepts (g.dtype r) = true
  | .binary op a b =>
    (g.dtype a).IsPlain ∧ g.dtype b = g.dtype a ∧ op.accepts (g.dtype a) = true ∧
      g.dtype r = op.resultType (g.dtype a)
  | .ternary op a b c =>
    (g.dtype r).IsPlain ∧ g.dtype b = g.dtype r ∧ g.dtype c = g.dtype r ∧
      g.dtype a = if op = .select then .bool else g.dtype r
  | _ => False

structure Placed (g : Graph) (S : Setting) (A : Binder → Prop) (r : Ref) : Prop where
  binder : ∀ b, (g.op r).binder? = some b → S.place b (g.resolve r) ∧ A b
  int : (g.dtype r).isInt = true → S.ints (g.dtype r)
  grid :
    match g.op r with
    | .defineVar _ => S.grid = none
    | .phi .. | .load .. => S.grid.isSome
    | .special axis size => ∀ sizes, S.grid = some sizes → g.op size = .const (.int (sizes axis))
    | _ => True

/-- A node heads a well-formed expression whose value depends on the binders `A` at most. -/
inductive Term (g : Graph) (S : Setting) : (A : Binder → Prop) → Ref → Prop
  | node {A : Binder → Prop} {r : Ref} (typed : g.Typed r) (placed : g.Placed S A r)
    (operand : ∀ s ∈ (g.op r).operands, g.Term S A s)
    (bound : ∀ l ∈ (g.op r).scopes, ∀ s ∈ (g.op l).sources, g.Term S A s)
    (source : ∀ s ∈ (g.op r).sources, g.Term S (fun _ => True) s) : g.Term S A r

variable {g g' : Graph} {S : Setting} {A A' : Binder → Prop} {r r' s : Ref} {f : Ref → Ref}

theorem Term.typed (h : g.Term S A r) : g.Typed r := by cases h; assumption

theorem Term.placed (h : g.Term S A r) : g.Placed S A r := by cases h; assumption

theorem Term.operand (h : g.Term S A r) (hs : s ∈ (g.op r).operands) : g.Term S A s := by
  cases h with
  | node typed placed operand bound source => exact operand s hs

theorem Term.bound (h : g.Term S A r) {l : Ref} (hl : l ∈ (g.op r).scopes)
    (hs : s ∈ (g.op l).sources) : g.Term S A s := by
  cases h with
  | node typed placed operand bound source => exact bound l hl s hs

theorem Term.source (h : g.Term S A r) (hs : s ∈ (g.op r).sources) :
    g.Term S (fun _ => True) s := by
  cases h with
  | node typed placed operand bound source => exact source s hs

theorem Placed.mono (h : g.Placed S A r) (hA : ∀ b, A b → A' b) : g.Placed S A' r :=
  ⟨fun b hb => ⟨(h.binder b hb).1, hA b (h.binder b hb).2⟩, h.int, h.grid⟩

theorem Term.mono (h : g.Term S A r) (hA : ∀ b, A b → A' b) : g.Term S A' r := by
  induction h with
  | node typed placed operand bound source ihoperand ihbound ihsource =>
    exact .node typed (placed.mono hA) (fun s hs => ihoperand s hs hA)
      (fun l hl s hs => ihbound l hl s hs hA) source

theorem Typed.lt_size (hg : g.WellFormed) (h : g.Typed r) : r < g.size := by
  refine Nat.lt_of_not_le fun hle => ?_
  rw [Typed, op_of_ge hg hle] at h
  exact h

theorem Term.lt_size (hg : g.WellFormed) (h : g.Term S A r) : r < g.size := h.typed.lt_size hg

/-! ### Moving expressions between graphs -/

theorem Mirrors.typed (h : g.Mirrors r f g' r') (ht : g.Typed r) : g'.Typed r' := by
  have hloop : ∀ l ∈ (g.op r).sources, (g.op l).isLoop = true → (g'.op (f l)).isLoop = true := by
    intro l hl hisloop
    cases hop : g.op l with
    | loop start stop axis =>
      obtain ⟨start', stop', hop'⟩ := (h.keeps l hl).loop _ _ _ hop
      rw [hop']
      rfl
    | _ => simp [hop, Op.isLoop] at hisloop
  have hkeeps := h.keeps
  cases hop : g.op r with
  | const v | defineVar v => simpa [Typed, h.op, hop, Op.mapSources, h.dtype] using ht
  | defineGlobal slot => simp [Typed, h.op, hop, Op.mapSources]
  | special axis size | cast a | unary op a =>
    simp only [hop, Op.sources, List.forall_mem_singleton] at hkeeps
    simpa [Typed, h.op, hop, Op.mapSources, h.dtype, hkeeps.dtype] using ht
  | loop start stop axis | binary op a b =>
    simp only [hop, Op.sources, List.forall_mem_cons] at hkeeps
    simpa [Typed, h.op, hop, Op.mapSources, h.dtype, hkeeps.1.dtype, hkeeps.2.1.dtype] using ht
  | defineAcc slot init loops =>
    simp only [Typed, hop] at ht
    simp only [Typed, h.op, hop, Op.mapSources, h.dtype, List.forall_mem_map]
    exact ⟨ht.1, ht.2.1, fun l hl => hloop l (by rw [hop]; exact hl) (ht.2.2 l hl)⟩
  | phi acc update loops =>
    simp only [Typed, hop] at ht
    obtain ⟨hplain, ⟨slot, init, ls, hacc⟩, hta, htu, hloops⟩ := ht
    have hka := hkeeps acc (by simp [hop, Op.sources])
    have hku := hkeeps update (by simp [hop, Op.sources])
    obtain ⟨ls', hacc'⟩ := hka.acc _ _ _ hacc
    simp only [Typed, h.op, hop, Op.mapSources, h.dtype, List.forall_mem_map, hka.dtype,
      hku.dtype]
    exact ⟨hplain, ⟨slot, init, ls', hacc'⟩, hta, htu, fun l hl =>
      hloop l (by simp [hop, Op.sources, hl]) (hloops l hl)⟩
  | load buffer index gate =>
    simp only [Typed, hop] at ht
    obtain ⟨hplain, ⟨slot, hslot⟩, htb, hti, hgate⟩ := ht
    have hkb := hkeeps buffer (by rw [hop]; cases gate <;> simp [Op.sources])
    have hki := hkeeps index (by rw [hop]; cases gate <;> simp [Op.sources])
    simp only [Typed, h.op, hop, Op.mapSources, h.dtype, hkb.dtype, hki.dtype]
    refine ⟨hplain, ⟨slot, hkb.global slot hslot⟩, htb, hti, fun p hp => ?_⟩
    cases gate with
    | none => cases hp
    | some q =>
      obtain rfl := Option.some.inj (Option.mem_def.mp hp)
      rw [(hkeeps q.1 (by rw [hop]; simp [Op.sources])).dtype,
        (hkeeps q.2 (by rw [hop]; simp [Op.sources])).dtype]
      exact hgate q rfl
  | ternary op a b c =>
    simp only [hop, Op.sources, List.forall_mem_cons] at hkeeps
    simpa [Typed, h.op, hop, Op.mapSources, h.dtype, hkeeps.1.dtype, hkeeps.2.1.dtype,
      hkeeps.2.2.1.dtype] using ht
  | sink | noop | defineLocal | store | endLoop | branch | endBranch | barrier =>
    simp [Typed, hop] at ht

theorem Mirrors.placed (h : g.Mirrors r f g' r') (hp : g.Placed S A r)
    (hplace : ∀ b, (g.op r).binder? = some b → S.place b (g'.resolve r')) :
    g'.Placed S A r' := by
  refine ⟨fun b hb => ?_, by rw [h.dtype]; exact hp.int, ?_⟩
  · rw [h.op, Op.binder?_mapSources] at hb
    exact ⟨hplace b hb, (hp.binder b hb).2⟩
  have hp := hp.grid
  rw [h.op]
  cases hop : g.op r with
  | special axis size =>
    have hkeeps := h.keeps size (by simp [hop, Op.sources])
    simp only [hop] at hp
    exact fun sizes hsizes => hkeeps.const _ (hp sizes hsizes)
  | defineVar v | phi acc update loops | load buffer index gate =>
    simpa [hop, Op.mapSources] using hp
  | _ => simp [Op.mapSources]

theorem Mirrors.term (h : g.Mirrors r f g' r') (hr : g.Term S A r)
    (hplace : ∀ b, (g.op r).binder? = some b → S.place b (g'.resolve r'))
    (hoperand : ∀ s ∈ (g.op r).operands, g'.Term S A (f s))
    (hbound : ∀ l ∈ (g.op r).scopes, ∀ s ∈ (g'.op (f l)).sources, g'.Term S A s)
    (hsource : ∀ s ∈ (g.op r).sources, g'.Term S (fun _ => True) (f s)) : g'.Term S A r' := by
  refine .node (h.typed hr.typed) (h.placed hr.placed hplace) ?_ ?_ ?_
  · rw [h.op, Op.operands_mapSources, List.forall_mem_map]
    exact hoperand
  · rw [h.op, Op.scopes_mapSources, List.forall_mem_map]
    exact hbound
  · rw [h.op, Op.sources_mapSources, List.forall_mem_map]
    exact hsource

theorem keeps_of_get (h : g'.get r' = g.get r) : g.Keeps r g' r' := by
  refine ⟨?_, fun v hr => ?_, fun slot hr => ?_, fun slot init ls hr => ⟨ls, ?_⟩,
    fun start stop axis hr => ⟨start, stop, ?_⟩⟩
  · rw [dtype, h, dtype]
  all_goals rw [op, h]; exact hr

theorem mirrors_of_get (h : g'.get r' = g.get r)
    (hsources : ∀ s ∈ (g.op r).sources, g'.get s = g.get s) : g.Mirrors r id g' r' :=
  ⟨by rw [Op.mapSources_id, op, h, op], by rw [dtype, h, dtype], fun s hs =>
    keeps_of_get (hsources s hs)⟩

section Growth

theorem Grows.mirrors (h : g.Grows g') (hg : g.WellFormed) (hr : g.Term S A r) :
    g.Mirrors r id g' r :=
  mirrors_of_get (h.get_eq hg (hr.lt_size hg)) fun _ hs => h.get_eq hg ((hr.source hs).lt_size hg)

theorem Grows.term (h : g.Grows g') (hg : g.WellFormed) (hr : g.Term S A r) : g'.Term S A r := by
  induction hr with
  | @node A r typed placed operand bound source ihoperand ihbound ihsource =>
    have hr : g.Term S A r := .node typed placed operand bound source
    refine (h.mirrors hg hr).term hr (fun b hb => ?_) ihoperand (fun l hl s hs => ?_) ihsource
    · rw [h.resolve_eq hg (hr.lt_size hg)]
      exact (placed.binder b hb).1
    · have hl' := (source l (Op.scopes_subset hl)).lt_size hg
      refine ihbound l hl s ?_
      rwa [id, op, h.get_eq hg hl'] at hs

theorem countWith_congr {value value' : Env → Ref → Option Value} {env : Env} {l : Ref}
    (hop : g'.op l = g.op l) (h : ∀ s ∈ (g.op l).sources, value' env s = value env s) :
    g'.countWith value' env l = g.countWith value env l := by
  rw [countWith, countWith, hop]
  cases hl : g.op l with
  | loop start stop axis =>
    simp only [hl, Op.sources, List.forall_mem_cons] at h
    simp only [intWith, h.1, h.2.1]
  | _ => rfl

theorem Grows.value_eq (h : g.Grows g') (hg : g.WellFormed) (hr : g.Term S A r) (env : Env) :
    g'.value env r = g.value env r := by
  induction hr generalizing env with
  | @node A r typed placed operand bound source ihoperand ihbound ihsource =>
    have hr : g.Term S A r := .node typed placed operand bound source
    have hget : ∀ s ∈ (g.op r).sources, g'.get s = g.get s :=
      fun s hs => h.get_eq hg ((source s hs).lt_size hg)
    have hgetr : g'.get r = g.get r := h.get_eq hg (hr.lt_size hg)
    have hcount : ∀ l ∈ (g.op r).scopes, ∀ env,
        g'.countWith g'.value env l = g.countWith g.value env l := fun l hl env =>
      countWith_congr (by rw [op, hget l (Op.scopes_subset hl), op]) fun s hs =>
        ihbound l hl s hs env
    have hclosed : Env.Closed fun _ => True :=
      fun _ _ => ⟨fun _ _ => trivial, fun _ _ => trivial⟩
    rw [Graph.value_eq, Graph.value_eq g]
    refine Option.ext fun v => ⟨fun hv => ?_, fun hv => ?_⟩
    · have hop : g'.op r = g.op r := by rw [op, hgetr, op]
      refine (mirrors_of_get (g := g') hgetr.symm fun s hs => (hget s ?_).symm).evalStep
        (fun _ => hclosed) (fun s hs env _ v hv => ?_) (fun l hl env _ c hc => ?_) trivial hv
      · rwa [← hop]
      · rw [hop] at hs
        rwa [id, ← ihoperand s hs env]
      · rw [hop] at hl
        rwa [id, ← hcount l hl env]
    · refine (mirrors_of_get hgetr hget).evalStep (fun _ => hclosed)
        (fun s hs env _ v hv => ?_) (fun l hl env _ c hc => ?_) trivial hv
      · rwa [id, ihoperand s hs env]
      · rwa [id, hcount l hl env]

end Growth

/-! ### Types of values -/

section Types

variable {env : Env} {v : Value} {x : Int}

theorem foldlM_invariant {α β : Type} {P : α → Prop} {step : α → β → Option α} {xs : List β}
    {a b : α} (hstep : ∀ a x c, P a → step a x = some c → P c) (ha : P a)
    (h : xs.foldlM step a = some b) : P b := by
  induction xs generalizing a with
  | nil => exact Option.some.inj h ▸ ha
  | cons x xs ih =>
    rw [List.foldlM_cons, Option.bind_eq_bind, Option.bind_eq_some_iff] at h
    obtain ⟨c, hc, h⟩ := h
    exact ih (hstep a x c ha hc) h

theorem foldLoops_invariant {P : Value → Prop} {count : Env → Ref → Option (LoopAxis × Nat)}
    {body : Env → Value → Option Value} {ls : List Ref} {u : Value}
    (hbody : ∀ env u v, P u → body env u = some v → P v) (hu : P u)
    (h : env.foldLoops count body ls u = some v) : P v := by
  induction ls generalizing env u v with
  | nil => exact hbody env u v hu h
  | cons l ls ih =>
    rw [Env.foldLoops, Option.bind_eq_bind, Option.bind_eq_some_iff] at h
    obtain ⟨c, -, h⟩ := h
    exact foldlM_invariant (fun u k w hu hw => ih hu hw) hu h

theorem fitsWord_of_int (htype : ∀ v, g.value env s = some v → v.HasType .index)
    (h : g.int env s = some x) : Width.FitsWord x := by
  obtain ⟨v, hv, hx⟩ := int_eq_some.mp h
  obtain ⟨y, rfl, hfits⟩ := Value.hasType_index_iff.mp (htype v hv)
  exact Option.some.inj hx ▸ hfits

theorem hasType_int (hdtype : g.dtype r = .index) (hx : Width.FitsWord x) :
    (Value.int x).HasType (g.dtype r) :=
  hdtype ▸ Value.hasType_index_iff.mpr ⟨x, rfl, hx⟩

theorem isPlain_resultType {op : BinaryOp} {t : DType} (ht : t.IsPlain) :
    (op.resultType t).IsPlain := by
  rw [BinaryOp.resultType]
  split
  · exact Or.inr rfl
  · exact ht

theorem Typed.isPlain (h : g.Typed r) (hv : g.value env r = some v) : (g.dtype r).IsPlain := by
  cases hop : g.op r with
  | const | defineAcc | phi | load | cast | unary | ternary =>
    simp only [Typed, hop] at h
    exact h.1
  | defineVar =>
    simp only [Typed, hop] at h
    exact h ▸ Or.inl rfl
  | special | loop =>
    simp only [Typed, hop] at h
    exact h.1 ▸ Or.inl rfl
  | binary =>
    simp only [Typed, hop] at h
    exact h.2.2.2 ▸ isPlain_resultType h.1
  | _ =>
    rw [value_eq, evalStep, hop] at hv
    cases hv

theorem hasType_of_evalStep {value : Env → Ref → Option Value} (ht : (g.dtype r).IsPlain)
    (hkind : (g.op r).kind ∈ [.const, .cast, .unary, .binary, .ternary])
    (hconst : ∀ w, g.op r = .const w → w.HasType (g.dtype r))
    (hbool : ∀ op a b, g.op r = .binary op a b → op.isComparison = true → g.dtype r = .bool)
    (hv : g.evalStep value env r = some v) : v.HasType (g.dtype r) := by
  rw [evalStep] at hv
  cases hop : g.op r with
  | const w =>
    simp only [hop, Option.some.injEq] at hv
    exact hv ▸ hconst w hop
  | cast a =>
    simp only [hop, Option.bind_eq_bind, Option.bind_eq_some_iff] at hv
    obtain ⟨x, -, hv⟩ := hv
    exact Value.hasType_of_cast ht hv
  | unary op a =>
    simp only [hop, Option.bind_eq_bind, Option.bind_eq_some_iff] at hv
    obtain ⟨x, -, hv⟩ := hv
    exact op.hasType_eval ht hv
  | binary op a b =>
    simp only [hop, Option.bind_eq_bind, Option.bind_eq_some_iff] at hv
    obtain ⟨x, -, y, -, hv⟩ := hv
    by_cases hcmp : op.isComparison = true
    · rw [hbool op a b hop hcmp]
      exact op.hasType_eval_comparison hcmp hv
    · exact op.hasType_eval ht (by simpa using hcmp) hv
  | ternary op a b c =>
    simp only [hop, Option.bind_eq_bind, Option.bind_eq_some_iff] at hv
    obtain ⟨x, -, y, -, z, -, hv⟩ := hv
    exact op.hasType_eval ht hv
  | _ => simp [hop, Op.kind] at hkind

theorem Term.hasType (hr : g.Term S A r) (hv : g.value env r = some v) :
    v.HasType (g.dtype r) := by
  induction hr generalizing env v with
  | @node A r typed placed operand bound source ihoperand ihbound ihsource =>
    cases hop : g.op r with
    | const w =>
      simp only [Typed, hop] at typed
      obtain rfl := Option.some.inj ((value_const hop).symm.trans hv)
      exact typed.2
    | defineVar x =>
      simp only [Typed, hop] at typed
      obtain ⟨hrange, rfl⟩ := (value_defineVar hop).mp hv
      exact hasType_int typed hrange.2.2
    | special axis size =>
      simp only [Typed, hop] at typed
      simp only [hop, Op.operands, Op.sources, List.forall_mem_singleton, typed.2] at ihoperand
      obtain ⟨n, hn, hrange, rfl⟩ := (value_special hop).mp hv
      refine hasType_int typed.1 ?_
      have hfits := fitsWord_of_int (fun w hw => ihoperand hw) hn
      simp only [Width.FitsWord, Width.minWord, Width.maxWord] at hfits ⊢
      omega
    | loop start stop axis =>
      simp only [Typed, hop] at typed
      simp only [hop, Op.operands, Op.sources, List.forall_mem_cons, typed.2.1, typed.2.2]
        at ihoperand
      obtain ⟨first, past, hfirst, hpast, hrange, rfl⟩ := (value_loop hop).mp hv
      refine hasType_int typed.1 ?_
      have hfits := fitsWord_of_int (fun w hw => ihoperand.1 hw) hfirst
      have hfits' := fitsWord_of_int (fun w hw => ihoperand.2.1 hw) hpast
      simp only [Width.FitsWord, Width.minWord, Width.maxWord] at hfits hfits' ⊢
      omega
    | defineAcc slot init loops =>
      rw [value_defineAcc hop, Option.bind_eq_some_iff] at hv
      obtain ⟨w, -, hv⟩ := hv
      exact Value.hasType_of_ofType? hv
    | phi acc update loops =>
      have hacc := (source acc (by simp [hop, Op.sources])).typed
      simp only [Typed, hop] at typed
      obtain ⟨-, ⟨slot, init, ls, hslot⟩, hta, htu, -⟩ := typed
      simp only [Typed, hslot, hta] at hacc
      rw [value_phi hop hslot] at hv
      refine foldLoops_invariant (P := fun u => u.HasType (g.dtype r)) (fun env u w _ hw => ?_)
        hacc.2.1 hv
      exact htu ▸ ihoperand update (by simp [hop, Op.operands]) hw
    | load buffer index gate =>
      simp only [Typed, hop] at typed
      obtain ⟨-, ⟨slot, hslot⟩, -, -, hgate⟩ := typed
      rw [value_load hop hslot, Option.bind_eq_some_iff] at hv
      obtain ⟨i, -, hv⟩ := hv
      have helem : ∀ w, (env.elem slot i).bind (Value.ofType? (g.dtype r)) = some w →
          w.HasType (g.dtype r) := fun w hw => by
        obtain ⟨u, -, hw⟩ := Option.bind_eq_some_iff.mp hw
        exact Value.hasType_of_ofType? hw
      cases gate with
      | none => exact helem v hv
      | some p =>
        simp only [loadWith, Option.bind_eq_bind, Option.bind_eq_some_iff] at hv
        obtain ⟨valid, -, alt, halt, hv⟩ := hv
        split at hv
        · exact helem v hv
        · obtain rfl := Option.some.inj hv
          rw [← (hgate p rfl).2]
          exact ihoperand p.2 (by simp [hop, Op.operands]) halt
    | cast | unary | binary | ternary =>
      refine hasType_of_evalStep (typed.isPlain hv) (by simp [hop, Op.kind])
        (fun w hw => by simp [hop] at hw) (fun op a b h hcmp => ?_) (value_eq g env r ▸ hv)
      simp only [Typed, h] at typed
      rw [typed.2.2.2, BinaryOp.resultType, if_pos hcmp]
    | sink | noop | defineGlobal | defineLocal | store | endLoop | branch | endBranch | barrier =>
      rw [value_eq, evalStep, hop] at hv
      cases hv

end Types

end Graph

end LazyTensor

import LazyTensor.Proofs.Graph.Growth
import LazyTensor.Proofs.Graph.Op
import LazyTensor.Proofs.Value.Typed
import LazyTensor.Simplify.Hoist

/-!
# The values of nodes

Nodes are evaluated in an environment that fixes variables, launch indices, the iteration of every
loop, accumulators and the contents of buffers. Evaluation is strict. A variable, a launch index or
a loop counter has a value only where the environment has it in range, and a reduction only if each
of its loops has an iteration.
-/

namespace LazyTensor

structure Env where
  var : SymVar → Int
  launch : Nat → Int
  /-- The iteration a loop is in, counted from zero. -/
  iter : LoopAxis → Int
  acc : Nat → Option Value
  /-- The element of a buffer, by its slot and index. -/
  elem : Nat → Int → Option Value

namespace Env

def setIter (env : Env) (axis : LoopAxis) (k : Int) : Env :=
  { env with iter := fun a => if a = axis then k else env.iter a }

def setAcc (env : Env) (slot : Nat) (v : Value) : Env :=
  { env with acc := fun s => if s = slot then some v else env.acc s }

def empty : Env := ⟨fun _ => 0, fun _ => 0, fun _ => 0, fun _ => none, fun _ _ => none⟩

/-- Entering an iteration or updating an accumulator does not lead out of a set. -/
def Closed (E : Env → Prop) : Prop :=
  ∀ env, E env → (∀ axis k, E (env.setIter axis k)) ∧ ∀ slot v, E (env.setAcc slot v)

/-- Folds over nested loops, the outermost first. -/
def foldLoops (count : Env → Ref → Option (LoopAxis × Nat)) (body : Env → Value → Option Value) :
    List Ref → Env → Value → Option Value
  | [], env, v => body env v
  | l :: inner, env, v => do
    let c ← count env l
    (List.range c.2).foldlM (fun v (k : Nat) => foldLoops count body inner (env.setIter c.1 k) v) v

end Env

/-- A value, if it is one of the type. -/
def Value.ofType? (t : DType) (v : Value) : Option Value :=
  if v.cast t = some v then some v else none

namespace Op

def operands : Op → List Ref
  | phi _ update _ => [update]
  | load _ index none => [index]
  | load _ index (some (valid, alt)) => [index, valid, alt]
  | defineAcc .. => []
  | op => op.sources

def scopes : Op → List Ref
  | phi _ _ loops => loops
  | _ => []

def isPhi : Op → Bool
  | phi .. => true
  | _ => false

end Op

namespace Graph

section Step

variable (g : Graph) (value : Env → Ref → Option Value)

def intWith (env : Env) (r : Ref) : Option Int := (value env r).bind Value.toInt?

def countWith (env : Env) (l : Ref) : Option (LoopAxis × Nat) :=
  match g.op l with
  | .loop start stop axis => do
    let first ← intWith value env start
    let past ← intWith value env stop
    if first < past then some (axis, (past - first).toNat) else none
  | _ => none

def loadWith (env : Env) (element : Option Value) : Option (Ref × Ref) → Option Value
  | none => element
  | some gate => do
    let valid ← value env gate.1
    let alt ← value env gate.2
    if valid.truthy then element else some alt

/-- The value of a node, given the values of others. -/
def evalStep (env : Env) (r : Ref) : Option Value :=
  match g.op r with
  | .const v => some v
  | .defineVar x =>
    if x.min ≤ env.var x ∧ env.var x ≤ x.max ∧ Width.FitsWord (env.var x) then
      some (.int (env.var x))
    else none
  | .special axis size => do
    let n ← intWith value env size
    if 0 ≤ env.launch axis ∧ env.launch axis < n then some (.int (env.launch axis)) else none
  | .loop start stop axis => do
    let first ← intWith value env start
    let past ← intWith value env stop
    if 0 ≤ env.iter axis ∧ env.iter axis < past - first then
      some (.int (first + env.iter axis))
    else none
  | .defineAcc slot _ _ => (env.acc slot).bind (Value.ofType? (g.dtype r))
  | .phi acc update loops =>
    match g.op acc with
    | .defineAcc slot init _ =>
      env.foldLoops (g.countWith value) (fun env v => value (env.setAcc slot v) update) loops init
    | _ => none
  | .load buffer index gate =>
    match g.op buffer with
    | .defineGlobal slot => do
      let i ← intWith value env index
      loadWith value env ((env.elem slot i).bind (Value.ofType? (g.dtype r))) gate
    | _ => none
  | .cast a => do (← value env a).cast (g.dtype r)
  | .unary op a => do op.eval (g.dtype r) (← value env a)
  | .binary op a b => do op.eval (g.dtype r) (← value env a) (← value env b)
  | .ternary op a b c => do op.eval (g.dtype r) (← value env a) (← value env b) (← value env c)
  | _ => none

end Step

/-- A node has a value if evaluation gives it on values that other nodes have. -/
inductive Evaluates (g : Graph) : Env → Ref → Value → Prop
  | step {env : Env} {r : Ref} {v : Value} (value : Env → Ref → Option Value)
    (hvalue : ∀ env s w, value env s = some w → g.Evaluates env s w)
    (hstep : g.evalStep value env r = some v) : g.Evaluates env r v

/-- Evaluation of expressions that are not too deep. -/
def evalAt (g : Graph) : (depth : Nat) → Env → Ref → Option Value
  | 0, _, _ => none
  | depth + 1, env, r => g.evalStep (g.evalAt depth) env r

theorem evaluates_of_evalAt {g : Graph} {depth : Nat} {env : Env} {r : Ref} {v : Value}
    (h : g.evalAt depth env r = some v) : g.Evaluates env r v := by
  induction depth generalizing env r v with
  | zero => cases h
  | succ depth ih => exact .step (g.evalAt depth) (fun _ _ _ => ih) h

/-! ### Evaluation in two graphs -/

section Simulation

variable {g g' : Graph} {value value' : Env → Ref → Option Value} {E : Env → Prop}
  {env : Env} {r r' : Ref} {f : Ref → Ref} {v : Value}

theorem intWith_imp {s s' : Ref} {x : Int}
    (h : ∀ v, value env s = some v → value' env s' = some v)
    (hx : intWith value env s = some x) : intWith value' env s' = some x := by
  obtain ⟨v, hv, hx⟩ := Option.bind_eq_some_iff.mp hx
  exact Option.bind_eq_some_iff.mpr ⟨v, h v hv, hx⟩

theorem countWith_imp {l l' start stop start' stop' : Ref} {axis : LoopAxis} {c : LoopAxis × Nat}
    (hl : g.op l = .loop start stop axis) (hl' : g'.op l' = .loop start' stop' axis)
    (hstart : ∀ v, value env start = some v → value' env start' = some v)
    (hstop : ∀ v, value env stop = some v → value' env stop' = some v)
    (hc : g.countWith value env l = some c) : g'.countWith value' env l' = some c := by
  simp only [countWith, hl, Option.bind_eq_bind, Option.bind_eq_some_iff] at hc
  obtain ⟨first, hfirst, past, hpast, hc⟩ := hc
  simp only [countWith, hl', Option.bind_eq_bind, intWith_imp hstart hfirst,
    intWith_imp hstop hpast, Option.bind_some]
  exact hc

theorem foldlM_imp {α β : Type} {step step' : α → β → Option α} {xs : List β} {a b : α}
    (h : ∀ a x c, step a x = some c → step' a x = some c) (hfold : xs.foldlM step a = some b) :
    xs.foldlM step' a = some b := by
  induction xs generalizing a with
  | nil => exact hfold
  | cons x xs ih =>
    rw [List.foldlM_cons, Option.bind_eq_bind, Option.bind_eq_some_iff] at hfold ⊢
    obtain ⟨c, hc, hfold⟩ := hfold
    exact ⟨c, h a x c hc, ih hfold⟩

theorem foldLoops_imp {count count' : Env → Ref → Option (LoopAxis × Nat)}
    {body body' : Env → Value → Option Value} {ls : List Ref} {u : Value} (hE : Env.Closed E)
    (hcount : ∀ l ∈ ls, ∀ env, E env → ∀ c, count env l = some c → count' env (f l) = some c)
    (hbody : ∀ env, E env → ∀ u v, body env u = some v → body' env u = some v) (henv : E env)
    (h : env.foldLoops count body ls u = some v) :
    env.foldLoops count' body' (ls.map f) u = some v := by
  induction ls generalizing env u v with
  | nil => exact hbody env henv u v h
  | cons l ls ih =>
    rw [Env.foldLoops, Option.bind_eq_bind, Option.bind_eq_some_iff] at h
    obtain ⟨c, hc, h⟩ := h
    rw [List.map_cons, Env.foldLoops, Option.bind_eq_bind,
      hcount l List.mem_cons_self env henv c hc, Option.bind_some]
    refine foldlM_imp (fun u k w hw => ?_) h
    exact ih (fun l hl => hcount l (List.mem_cons_of_mem _ hl)) ((hE env henv).1 c.1 k) hw

theorem loadWith_imp {element : Option Value} {gate : Option (Ref × Ref)}
    (hgate : ∀ p ∈ gate, ∀ s ∈ [p.1, p.2], ∀ v, value env s = some v → value' env (f s) = some v)
    (h : loadWith value env element gate = some v) :
    loadWith value' env element (gate.map fun p => (f p.1, f p.2)) = some v := by
  cases gate with
  | none => exact h
  | some p =>
    simp only [loadWith, Option.bind_eq_bind, Option.bind_eq_some_iff] at h
    obtain ⟨valid, hvalid, alt, halt, h⟩ := h
    have hvalid' := hgate p rfl p.1 (by simp) valid hvalid
    have halt' := hgate p rfl p.2 (by simp) alt halt
    simp only [Option.map_some, loadWith, Option.bind_eq_bind, hvalid', halt', Option.bind_some]
    exact h

/-- A node of a second graph plays the part of one of the first for its readers. -/
structure Keeps (g : Graph) (r : Ref) (g' : Graph) (r' : Ref) : Prop where
  dtype : g'.dtype r' = g.dtype r
  const : ∀ v, g.op r = .const v → g'.op r' = .const v
  global : ∀ slot, g.op r = .defineGlobal slot → g'.op r' = .defineGlobal slot
  acc : ∀ slot init ls, g.op r = .defineAcc slot init ls → ∃ ls', g'.op r' = .defineAcc slot init ls'
  loop : ∀ start stop axis, g.op r = .loop start stop axis →
    ∃ start' stop', g'.op r' = .loop start' stop' axis

/-- A node of a second graph does what one of the first does, on other sources. -/
structure Mirrors (g : Graph) (r : Ref) (f : Ref → Ref) (g' : Graph) (r' : Ref) : Prop where
  op : g'.op r' = (g.op r).mapSources f
  dtype : g'.dtype r' = g.dtype r
  keeps : ∀ s ∈ (g.op r).sources, g.Keeps s g' (f s)

theorem Mirrors.evalStep (h : g.Mirrors r f g' r')
    (hclosed : (g.op r).isPhi = true → Env.Closed E)
    (hvalue : ∀ s ∈ (g.op r).operands, ∀ env, E env → ∀ v,
      value env s = some v → value' env (f s) = some v)
    (hcount : ∀ l ∈ (g.op r).scopes, ∀ env, E env → ∀ c,
      g.countWith value env l = some c → g'.countWith value' env (f l) = some c)
    (henv : E env) (hv : g.evalStep value env r = some v) :
    g'.evalStep value' env r' = some v := by
  have hop := h.op
  have hoperand := fun s hs => hvalue s hs env henv
  cases hr : g.op r with
  | const w | defineVar x => simpa only [Graph.evalStep, hr, hop, Op.mapSources] using hv
  | defineAcc slot init ls =>
    simpa only [Graph.evalStep, hr, hop, Op.mapSources, h.dtype] using hv
  | special axis size =>
    simp only [hr, Op.operands, Op.sources] at hoperand
    simp only [Graph.evalStep, hr, Option.bind_eq_bind, Option.bind_eq_some_iff] at hv
    obtain ⟨n, hn, hv⟩ := hv
    simp only [Graph.evalStep, hop, hr, Op.mapSources, Option.bind_eq_bind,
      intWith_imp (hoperand size (by simp)) hn, Option.bind_some]
    exact hv
  | loop start stop axis =>
    simp only [hr, Op.operands, Op.sources] at hoperand
    simp only [Graph.evalStep, hr, Option.bind_eq_bind, Option.bind_eq_some_iff] at hv
    obtain ⟨first, hfirst, past, hpast, hv⟩ := hv
    simp only [Graph.evalStep, hop, hr, Op.mapSources, Option.bind_eq_bind,
      intWith_imp (hoperand start (by simp)) hfirst, intWith_imp (hoperand stop (by simp)) hpast,
      Option.bind_some]
    exact hv
  | phi acc update loops =>
    replace hclosed := hclosed (by rw [hr]; rfl)
    have hupdate := hvalue update (by simp [hr, Op.operands])
    simp only [hr, Op.scopes] at hcount
    simp only [Graph.evalStep, hr] at hv
    split at hv
    case h_2 => cases hv
    case h_1 slot init ls hacc =>
      obtain ⟨ls', hacc'⟩ := (h.keeps acc (by simp [hr, Op.sources])).acc _ _ _ hacc
      simp only [Graph.evalStep, hop, hr, Op.mapSources, hacc']
      exact foldLoops_imp hclosed hcount
        (fun env henv u w hw => hupdate _ ((hclosed env henv).2 slot u) w hw) henv hv
  | load buffer index gate =>
    simp only [Graph.evalStep, hr] at hv
    split at hv
    case h_2 => cases hv
    case h_1 slot hbuffer =>
      have hsource : buffer ∈ (g.op r).sources := by
        rw [hr]
        cases gate <;> simp [Op.sources]
      have hbuffer' := (h.keeps buffer hsource).global slot hbuffer
      have hindex : index ∈ (g.op r).operands := by
        rw [hr]
        cases gate <;> simp [Op.operands]
      simp only [Option.bind_eq_bind, Option.bind_eq_some_iff] at hv
      obtain ⟨i, hi, hv⟩ := hv
      simp only [Graph.evalStep, hop, hr, Op.mapSources, hbuffer', h.dtype, Option.bind_eq_bind,
        intWith_imp (hoperand index hindex) hi, Option.bind_some]
      refine loadWith_imp (fun p hp s hs => hoperand s ?_) hv
      rw [hr, Option.mem_def.mp hp]
      exact List.mem_cons_of_mem _ hs
  | cast a | unary op a =>
    simp only [hr, Op.operands, Op.sources] at hoperand
    simp only [Graph.evalStep, hr, Option.bind_eq_bind, Option.bind_eq_some_iff] at hv
    obtain ⟨x, hx, hv⟩ := hv
    simp only [Graph.evalStep, hop, hr, Op.mapSources, h.dtype, Option.bind_eq_bind,
      hoperand a (by simp) x hx, Option.bind_some]
    exact hv
  | binary op a b =>
    simp only [hr, Op.operands, Op.sources] at hoperand
    simp only [Graph.evalStep, hr, Option.bind_eq_bind, Option.bind_eq_some_iff] at hv
    obtain ⟨x, hx, y, hy, hv⟩ := hv
    simp only [Graph.evalStep, hop, hr, Op.mapSources, h.dtype, Option.bind_eq_bind,
      hoperand a (by simp) x hx, hoperand b (by simp) y hy, Option.bind_some]
    exact hv
  | ternary op a b c =>
    simp only [hr, Op.operands, Op.sources] at hoperand
    simp only [Graph.evalStep, hr, Option.bind_eq_bind, Option.bind_eq_some_iff] at hv
    obtain ⟨x, hx, y, hy, z, hz, hv⟩ := hv
    simp only [Graph.evalStep, hop, hr, Op.mapSources, h.dtype, Option.bind_eq_bind,
      hoperand a (by simp) x hx, hoperand b (by simp) y hy, hoperand c (by simp) z hz,
      Option.bind_some]
    exact hv
  | sink | noop | defineGlobal | defineLocal | store | endLoop | branch | endBranch | barrier =>
    simp [Graph.evalStep, hr] at hv

end Simulation

/-! ### The value of a node -/

section Value

variable {g g' : Graph} {env : Env} {r a b : Ref} {v w init : Value} {ls : List Ref} {slot : Nat}

theorem Keeps.refl (g : Graph) (r : Ref) : g.Keeps r g r :=
  ⟨rfl, fun _ => id, fun _ => id, fun _ _ ls h => ⟨ls, h⟩, fun _ _ _ h => ⟨_, _, h⟩⟩

theorem Keeps.trans {g'' : Graph} {r' r'' : Ref} (h : g.Keeps r g' r') (h' : g'.Keeps r' g'' r'') :
    g.Keeps r g'' r'' where
  dtype := h'.dtype.trans h.dtype
  const v hr := h'.const v (h.const v hr)
  global slot hr := h'.global slot (h.global slot hr)
  acc slot init ls hr := by
    obtain ⟨ls', hr'⟩ := h.acc slot init ls hr
    exact h'.acc slot init ls' hr'
  loop start stop axis hr := by
    obtain ⟨start', stop', hr'⟩ := h.loop start stop axis hr
    exact h'.loop start' stop' axis hr'

theorem Mirrors.refl (g : Graph) (r : Ref) : g.Mirrors r id g r :=
  ⟨(Op.mapSources_id _).symm, rfl, fun s _ => .refl g s⟩

theorem evalStep_mono {value value' : Env → Ref → Option Value}
    (h : ∀ env s v, value env s = some v → value' env s = some v)
    (hv : g.evalStep value env r = some v) : g.evalStep value' env r = some v := by
  refine (Mirrors.refl g r).evalStep (E := fun _ => True)
    (fun _ _ _ => ⟨fun _ _ => trivial, fun _ _ => trivial⟩)
    (fun s _ env _ v => h env s v) (fun l _ env _ c hc => ?_) trivial hv
  cases hl : g.op l with
  | loop start stop axis => exact countWith_imp hl hl (h env start) (h env stop) hc
  | _ => simp [countWith, hl] at hc

theorem Evaluates.unique (hv : g.Evaluates env r v) (hw : g.Evaluates env r w) : v = w := by
  induction hv generalizing w with
  | @step env r v value hvalue hstep ih =>
    obtain ⟨value', hvalue', hstep'⟩ := hw
    -- The two partial valuations agree, so both are part of their union.
    let union := fun env s => (value env s).or (value' env s)
    have hleft : g.evalStep union env r = some v := by
      refine evalStep_mono (fun env s x hx => ?_) hstep
      simp [union, hx]
    have hright : g.evalStep union env r = some w := by
      refine evalStep_mono (fun env s x hx => ?_) hstep'
      cases hvalues : value env s with
      | none => simp [union, hvalues, hx]
      | some y => simp [union, hvalues, ih env s y hvalues (hvalue' env s x hx)]
    exact Option.some.inj (hleft.symm.trans hright)

open Classical in
noncomputable def value (g : Graph) (env : Env) (r : Ref) : Option Value :=
  if h : ∃ v, g.Evaluates env r v then some h.choose else none

theorem value_eq_some : g.value env r = some v ↔ g.Evaluates env r v := by
  rw [value]
  constructor
  · intro h
    split at h
    · case _ hex =>
        obtain rfl := Option.some.inj h
        exact hex.choose_spec
    · cases h
  · intro h
    have hex : ∃ v, g.Evaluates env r v := ⟨v, h⟩
    rw [dif_pos hex, hex.choose_spec.unique h]

theorem value_eq (g : Graph) (env : Env) (r : Ref) : g.value env r = g.evalStep g.value env r := by
  refine Option.ext fun v => ?_
  constructor
  · intro h
    obtain ⟨value, hvalue, hstep⟩ := value_eq_some.mp h
    exact evalStep_mono (fun env s w hw => value_eq_some.mpr (hvalue env s w hw)) hstep
  · intro h
    exact value_eq_some.mpr (.step g.value (fun _ _ _ hw => value_eq_some.mp hw) h)

theorem value_congr {s : Ref} (h : g.get r = g.get s) : g.value env r = g.value env s := by
  rw [value_eq, value_eq, evalStep, evalStep, op, op, dtype, dtype, h]

theorem value_resolve (hg : g.WellFormed) (env : Env) (r : Ref) :
    g.value env (g.resolve r) = g.value env r :=
  value_congr (get_resolve hg r)

noncomputable def int (g : Graph) : Env → Ref → Option Int := intWith g.value

theorem int_eq_some {x : Int} :
    g.int env r = some x ↔ ∃ v, g.value env r = some v ∧ v.toInt? = some x :=
  Option.bind_eq_some_iff

theorem value_const (hr : g.op r = .const v) : g.value env r = some v := by
  rw [value_eq, evalStep, hr]

theorem value_defineVar {x : SymVar} (hr : g.op r = .defineVar x) :
    g.value env r = some v ↔ (x.min ≤ env.var x ∧ env.var x ≤ x.max ∧ Width.FitsWord (env.var x)) ∧
      .int (env.var x) = v := by
  rw [value_eq, evalStep, hr]
  simp only [Option.ite_none_right_eq_some, Option.some.injEq]

theorem value_special {axis : Nat} {size : Ref} (hr : g.op r = .special axis size) :
    g.value env r = some v ↔ ∃ n, g.int env size = some n ∧
      (0 ≤ env.launch axis ∧ env.launch axis < n) ∧ .int (env.launch axis) = v := by
  rw [value_eq, evalStep, hr]
  simp only [Option.bind_eq_bind, Option.bind_eq_some_iff, Option.ite_none_right_eq_some,
    Option.some.injEq, int]

theorem value_loop {start stop : Ref} {axis : LoopAxis} (hr : g.op r = .loop start stop axis) :
    g.value env r = some v ↔ ∃ first past, g.int env start = some first ∧
      g.int env stop = some past ∧ (0 ≤ env.iter axis ∧ env.iter axis < past - first) ∧
      .int (first + env.iter axis) = v := by
  rw [value_eq, evalStep, hr]
  simp only [Option.bind_eq_bind, Option.bind_eq_some_iff, Option.ite_none_right_eq_some,
    Option.some.injEq, int, exists_and_left]

theorem value_phi {acc update : Ref} {loops : List Ref} (hr : g.op r = .phi acc update loops)
    (hacc : g.op acc = .defineAcc slot init ls) :
    g.value env r = env.foldLoops (g.countWith g.value)
      (fun env v => g.value (env.setAcc slot v) update) loops init := by
  rw [value_eq, evalStep, hr]
  simp only [hacc]

theorem value_defineAcc (hr : g.op r = .defineAcc slot init ls) :
    g.value env r = (env.acc slot).bind (Value.ofType? (g.dtype r)) := by
  rw [value_eq, evalStep, hr]

theorem value_load {buffer index : Ref} {gate : Option (Ref × Ref)}
    (hr : g.op r = .load buffer index gate) (hbuffer : g.op buffer = .defineGlobal slot) :
    g.value env r = (g.int env index).bind fun i =>
      loadWith g.value env ((env.elem slot i).bind (Value.ofType? (g.dtype r))) gate := by
  rw [value_eq, evalStep, hr]
  simp only [hbuffer]
  rfl

theorem value_binary {op : BinaryOp} (hr : g.op r = .binary op a b) :
    g.value env r = some v ↔ ∃ x y, g.value env a = some x ∧ g.value env b = some y ∧
      op.eval (g.dtype r) x y = some v := by
  rw [value_eq, evalStep, hr]
  simp only [Option.bind_eq_bind, Option.bind_eq_some_iff, exists_and_left]

end Value

end Graph

end LazyTensor

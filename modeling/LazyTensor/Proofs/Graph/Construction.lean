import LazyTensor.Proofs.Graph.Sound
import LazyTensor.Proofs.Graph.Term

/-!
# Graphs that typed construction builds

A call of a constructor checks the types of its operands and then adds a node that fits them, so what
every node of a constructed graph reads has the type that its operation needs.
-/

namespace LazyTensor

inductive Construction where
  | const (v : Value) (t : DType)
  | special (axis : Nat) (size : Ref)
  | symbol (v : SymVar)
  | phi (acc value : Ref) (loops : List Ref)
  | sink (sources : List Ref)
  | noop
  | global (slot : Nat) (base : DType)
  | shared (name : String) (size : Nat) (base : DType)
  | accumulator (slot : Nat) (init : Value) (t : DType) (loops : List Ref)
  | load (buffer index : Ref) (gate : Option (Ref × Ref))
  | store (buffer index value : Ref) (gate : Option Ref)
  | unary (op : UnaryOp) (a : Ref)
  | binary (op : BinaryOp) (a b : Ref)
  | ternary (op : TernaryOp) (a b c : Ref)
  | cast (a : Ref) (t : DType)
  | loop (start stop : Ref) (axis : LoopAxis)
  | branch (cond : Ref)
  | endLoop (range : Ref)
  | endBranch (b : Ref)
  | barrier (deps : List Ref)

namespace Construction

def build : Construction → Build Ref
  | const v t => (Build.const v t : GraphM Ref)
  | special axis size => Build.special axis size
  | symbol v => (Build.symbol v : GraphM Ref)
  | phi acc value loops => Build.phi acc value loops
  | sink sources => (Build.sink sources : GraphM Ref)
  | noop => (Build.noop : GraphM Ref)
  | global slot base => (Build.global slot base : GraphM Ref)
  | shared name size base => (Build.shared name size base : GraphM Ref)
  | accumulator slot init t loops => (Build.accumulator slot init t loops : GraphM Ref)
  | load buffer index gate => Build.load buffer index gate
  | store buffer index value gate => Build.store buffer index value gate
  | unary op a => Build.unary op a
  | binary op a b => Build.binary op a b
  | ternary op a b c => Build.ternary op a b c
  | cast a t => (Build.cast a t : GraphM Ref)
  | loop start stop axis => Build.loop start stop axis
  | branch cond => Build.branch cond
  | endLoop range => (Build.endLoop range : GraphM Ref)
  | endBranch b => (Build.endBranch b : GraphM Ref)
  | barrier deps => (Build.barrier deps : GraphM Ref)

def target? : Construction → Option Ref
  | store buffer _ _ _ => some buffer
  | _ => none

def operands : Construction → List Ref
  | const .. | symbol _ | noop | global .. | shared .. => []
  | special _ size => [size]
  | phi acc value loops => acc :: value :: loops
  | sink rs | barrier rs | accumulator _ _ _ rs => rs
  | load buffer index gate => buffer :: index :: (gate.map fun p => [p.1, p.2]).getD []
  | store buffer index value gate => buffer :: index :: value :: gate.toList
  | unary _ a | cast a _ | branch a | endLoop a | endBranch a => [a]
  | binary _ a b | loop a b _ => [a, b]
  | ternary _ a b c => [a, b, c]

/-- The operands that may have any type, also that of a node that is not there. -/
def unchecked : Construction → List Ref
  | special .. | unary .. | binary .. | loop .. => []
  | load _ _ gate => (gate.map Prod.snd).toList
  | store _ _ value _ => [value]
  | ternary .select _ b c => [b, c]
  | c => c.operands

end Construction

namespace Graph

/-- The operands of an arithmetic node have the types that its operation needs. -/
def Admits (g : Graph) (n : Instr) : Prop :=
  match n.op with
  | .const v | .defineAcc _ v _ => n.dtype.IsPlain → v.HasType n.dtype
  | .defineVar _ => n.dtype = .index
  | .special _ size => n.dtype = .index ∧ g.dtype size = .index
  | .loop start stop _ => n.dtype = .index ∧ g.dtype start = .index ∧ g.dtype stop = .index
  | .unary op a => g.dtype a = n.dtype ∧ op.accepts n.dtype = true
  | .binary op a b =>
    g.dtype b = g.dtype a ∧ op.accepts (g.dtype a) = true ∧ n.dtype = op.resultType (g.dtype a)
  | .ternary op a b c =>
    g.dtype b = n.dtype ∧ g.dtype c = n.dtype ∧
      g.dtype a = if op = .select then .bool else n.dtype
  | _ => True

theorem Admits.mapSources {g g' : Graph} {n : Instr} {f : Ref → Ref} (h : g.Admits n)
    (hf : ∀ s ∈ n.op.operands, g'.dtype (f s) = g.dtype s) :
    g'.Admits ⟨n.op.mapSources f, n.dtype⟩ := by
  obtain ⟨o, t⟩ := n
  cases o with
  | const | defineVar | defineAcc => exact h
  | special | loop | unary | binary | ternary =>
    simp only [Op.operands, Op.sources, List.forall_mem_cons] at hf
    simp only [Admits, Op.mapSources, hf]
    exact h
  | _ => trivial

end Graph

theorem UnaryOp.ne_void {t : DType} (op : UnaryOp) (h : op.accepts t = true) : t ≠ .void := by
  rintro rfl
  cases op <;> cases h

theorem BinaryOp.ne_void {t : DType} (op : BinaryOp) (h : op.accepts t = true) : t ≠ .void := by
  rintro rfl
  cases op <;> cases h

/-! ### What a call adds -/

namespace Build

variable {α : Type} {g : Graph} {x : Build α} {f : α → Build Ref} {post : α → Prop}
  {P : Instr → Prop} {found : Ref → Prop} {c : Prop} {e : BuildError}

/-- Work that leaves the graph as it is. -/
def Inspects (x : Build α) (g : Graph) (post : α → Prop) : Prop :=
  (x.run.run g).2 = g ∧ ∀ a, (x.run.run g).1 = .ok a → post a

/-- Work that adds one node, as described, or else finds one or fails. -/
def Adds (x : Build Ref) (g : Graph) (P : Instr → Prop) (found : Ref → Prop) : Prop :=
  ((x.run.run g).2 = g ∧ ∀ r, (x.run.run g).1 = .ok r → found r) ∨
    ∃ n, x.run.run g = (.ok (g.insert n).1, (g.insert n).2) ∧ P n

theorem Inspects.bind (hx : x.Inspects g post) (hf : ∀ a, post a → (f a).Adds g P found) :
    (x >>= f).Adds g P found := by
  rw [Adds, run_bind]
  obtain ⟨hg, hpost⟩ := hx
  generalize x.run.run g = run at hg hpost
  obtain ⟨e | a, g'⟩ := run
  · exact .inl ⟨hg, nofun⟩
  · obtain rfl : g' = g := hg
    exact hf a (hpost a rfl)

theorem adds_insert {op : Op} {t : DType} (h : P ⟨op, t⟩) :
    Adds (insert op t : Build Ref) g P found :=
  .inr ⟨_, rfl, h⟩

theorem inspects_dtypeOf (r : Ref) : (dtypeOf r).Inspects g (· = g.dtype r) :=
  ⟨rfl, fun _ ht => (Except.ok.inj ht).symm⟩

theorem adds_check {_ : Decidable c} {next : PUnit → Build Ref} (h : c → (next ⟨⟩).Adds g P found) :
    (if c then next ⟨⟩ else throw e >>= next).Adds g P found := by
  by_cases hc : c
  · rw [if_pos hc]
    exact h hc
  · rw [if_neg hc]
    exact .inl ⟨rfl, nofun⟩

theorem inspects_unless [Decidable c] :
    (if c then pure ⟨⟩ else throw e : Build PUnit).Inspects g fun _ => c := by
  by_cases hc : c
  · rw [if_pos hc]
    exact ⟨rfl, fun _ _ => hc⟩
  · rw [if_neg hc]
    exact ⟨rfl, nofun⟩

theorem inspects_expectIndex (r : Ref) : (expectIndex r).Inspects g fun _ => g.dtype r = .index :=
  inspects_unless

theorem inspects_expectBool (r : Ref) : (expectBool r).Inspects g fun _ => g.dtype r = .bool :=
  inspects_unless

theorem inspects_expectSame (op : String) (l r : DType) :
    (expectSame op l r).Inspects g fun _ => l = r :=
  inspects_unless

theorem Inspects.and_then {β : Type} {k : α → Build β} {post' : β → Prop} (hx : x.Inspects g post)
    (hk : ∀ a, post a → (k a).Inspects g post') : (x >>= k).Inspects g post' := by
  rw [Inspects, run_bind]
  obtain ⟨hg, hpost⟩ := hx
  generalize x.run.run g = run at hg hpost
  obtain ⟨e | a, g'⟩ := run
  · exact ⟨hg, nofun⟩
  · obtain rfl : g' = g := hg
    exact hk a (hpost a rfl)

theorem inspects_expectPointer (r : Ref) (what : String) :
    (expectPointer r what).Inspects g fun _ => g.dtype r ≠ .void := by
  refine (inspects_dtypeOf r).and_then fun t ht => ?_
  subst ht
  cases hbase : (g.dtype r).pointee? with
  | none => exact ⟨rfl, nofun⟩
  | some base => exact ⟨rfl, fun _ _ hvoid => by simp [hvoid, DType.pointee?, DType.void] at hbase⟩

theorem inspects_checkGate (base : DType) (gate : Option (Ref × Ref)) :
    (checkGate base gate).Inspects g fun _ => ∀ p ∈ gate, g.dtype p.1 = .bool := by
  cases gate with
  | none => exact ⟨rfl, fun _ _ => nofun⟩
  | some p =>
    refine (inspects_expectBool p.1).and_then fun _ hvalid => ?_
    refine (inspects_dtypeOf p.2).and_then fun t _ => ?_
    refine ⟨(inspects_expectSame "gated load" base t).1, fun _ _ q hq => ?_⟩
    exact Option.some.inj hq ▸ hvalid

theorem inspects_forM_expectBool (gate : Option Ref) :
    (gate.forM expectBool).Inspects g fun _ => ∀ r ∈ gate, g.dtype r = .bool := by
  cases gate with
  | none => exact ⟨rfl, fun _ _ => nofun⟩
  | some r => exact ⟨(inspects_expectBool r).1, fun a ha q hq =>
      Option.some.inj hq ▸ (inspects_expectBool r).2 a ha⟩

end Build

open Build in
/-- A call adds one node, which reads operands of the call of the right types, or else finds an operand
or fails. No node that is not there passes for an operand whose type is checked. -/
theorem Construction.adds (c : Construction) (g : Graph) :
    c.build.Adds g
      (fun n => n.op.target? = c.target? ∧
        (∀ s ∈ n.op.sources, s ∈ c.operands ∧ (s ∈ c.unchecked ∨ g.dtype s ≠ .void)) ∧ g.Admits n)
      fun r => ∃ a ∈ c.unchecked, r = g.resolve a := by
  cases c with
  | const v t => exact adds_insert ⟨rfl, by simp [Op.sources], fun ht => Value.hasType_normalize ht v⟩
  | special axis size =>
    refine (inspects_expectIndex size).bind fun _ hsize => adds_insert ⟨rfl, ?_, rfl, hsize⟩
    simp [Op.sources, operands, hsize]
  | symbol v => exact adds_insert ⟨rfl, by simp [Op.sources], rfl⟩
  | phi acc value loops =>
    refine (inspects_dtypeOf acc).bind fun t _ => (inspects_dtypeOf value).bind fun t' _ => ?_
    exact (inspects_expectSame "phi" t t').bind fun _ _ => adds_insert ⟨rfl, fun _ hs => ⟨hs, .inl hs⟩, trivial⟩
  | accumulator slot init t =>
    exact adds_insert ⟨rfl, fun _ hs => ⟨hs, .inl hs⟩, fun ht => Value.hasType_normalize ht init⟩
  | sink | noop | global | shared | endLoop | endBranch | barrier =>
    exact adds_insert ⟨rfl, fun _ hs => ⟨hs, .inl hs⟩, trivial⟩
  | load buffer index gate =>
    refine (inspects_expectPointer buffer _).bind fun base hbuffer => ?_
    refine (inspects_expectIndex index).bind fun _ hindex => ?_
    refine (inspects_checkGate base gate).bind fun _ hgate => adds_insert ⟨rfl, ?_, trivial⟩
    cases gate <;> simp_all [Op.sources, operands, unchecked]
  | store buffer index value gate =>
    refine (inspects_expectPointer buffer _).bind fun base hbuffer => ?_
    refine (inspects_expectIndex index).bind fun _ hindex => ?_
    refine (inspects_dtypeOf value).bind fun t _ => ?_
    refine (inspects_expectSame "store" base t).bind fun _ _ => ?_
    refine (inspects_forM_expectBool gate).bind fun _ hgate => adds_insert ⟨rfl, ?_, trivial⟩
    cases gate <;> simp_all [Op.sources, operands, unchecked]
  | unary op a =>
    refine (inspects_dtypeOf a).bind fun t ht => adds_check fun haccepts => ?_
    refine adds_insert ⟨rfl, ?_, ht.symm, haccepts⟩
    simp [Op.sources, operands, ← ht, op.ne_void haccepts]
  | binary op a b =>
    refine (inspects_dtypeOf a).bind fun t ht => (inspects_dtypeOf b).bind fun t' ht' => ?_
    refine adds_check fun hsame => adds_check fun haccepts => ?_
    subst hsame ht
    refine adds_insert ⟨rfl, ?_, ht'.symm, haccepts, rfl⟩
    simp [Op.sources, operands, ← ht', op.ne_void haccepts]
  | ternary op a b c =>
    refine (inspects_dtypeOf b).bind fun t ht => (inspects_dtypeOf c).bind fun t' ht' => ?_
    refine (inspects_expectSame "ternary" t t').bind fun _ hsame => ?_
    subst hsame
    cases op with
    | select =>
      refine (inspects_expectBool a).bind fun _ ha => adds_insert ⟨rfl, ?_, ht.symm, ht'.symm, ha⟩
      simp [Op.sources, operands, unchecked, ha]
    | mulAcc =>
      refine (inspects_dtypeOf a).bind fun t'' ha => ?_
      refine (inspects_expectSame "mulacc" t'' t).bind fun _ hsame => ?_
      refine adds_insert ⟨rfl, fun _ hs => ⟨hs, .inl hs⟩, ht.symm, ht'.symm, ha.symm.trans hsame⟩
  | cast a t =>
    change Adds (if g.dtype a = t then pure (g.resolve a) else Build.insert (.cast a) t : GraphM Ref) g
      _ _
    by_cases hsame : g.dtype a = t
    · rw [if_pos hsame]
      refine .inl ⟨rfl, fun r hr => ⟨a, List.mem_singleton_self a, ?_⟩⟩
      exact (Except.ok.inj hr).symm
    · rw [if_neg hsame]
      exact adds_insert ⟨rfl, fun _ hs => ⟨hs, .inl hs⟩, trivial⟩
  | loop start stop axis =>
    refine (inspects_expectIndex start).bind fun _ hstart => ?_
    refine (inspects_expectIndex stop).bind fun _ hstop => ?_
    refine adds_insert ⟨rfl, ?_, rfl, hstart, hstop⟩
    simp [Op.sources, operands, hstart, hstop]
  | branch cond =>
    exact (inspects_expectBool cond).bind fun _ _ =>
      adds_insert ⟨rfl, fun _ hs => ⟨hs, .inl hs⟩, trivial⟩

namespace Graph

variable {g : Graph} {r : Ref}

/-- Graphs that calls of constructors build, each on nodes that are there. -/
inductive Constructed : Graph → Prop
  | empty : Constructed {}
  | call {g : Graph} (c : Construction) (constructed : g.Constructed)
    (operands : ∀ s ∈ c.operands, s < g.size) : Constructed (c.build.run.run g).2

theorem Constructed.built (hg : g.Constructed) : g.Built := by
  induction hg with
  | empty => exact .empty
  | @call g c _ hoperands ih =>
    rcases c.adds g with ⟨hsame, -⟩ | ⟨n, hinsert, -, hsources, -⟩
    · rwa [hsame]
    · rw [hinsert]
      exact ih.insert fun s hs => hoperands s (hsources s hs).1

theorem Constructed.admits (hg : g.Constructed) (hr : r < g.size) : g.Admits (g.get r) := by
  induction hg generalizing r with
  | empty => exact absurd hr (Nat.not_lt_zero r)
  | @call g c hg hoperands ih =>
    have hsound := hg.built.sound
    rcases c.adds g with ⟨hsame, -⟩ | ⟨n, hinsert, -, hsources, hadmits⟩
    · rw [hsame] at hr ⊢
      exact ih hr
    rw [hinsert] at hr ⊢
    obtain ⟨hgrows, hholds⟩ := insert_spec hsound.wellFormed n
    have hdtype := fun s (hs : s < g.size) => hgrows.dtype_eq hsound.wellFormed hs
    by_cases hlt : r < g.size
    · rw [hgrows.get_eq hsound.wellFormed hlt]
      have hmap : (g.insert n).2.Admits ⟨(g.get r).op.mapSources id, (g.get r).dtype⟩ :=
        (ih hlt).mapSources fun s hs => hdtype s (hsound.source_lt hlt (Op.operands_subset hs))
      rwa [Op.mapSources_id] at hmap
    · rw [eq_of_lt_insert hlt hr, hholds.get_eq]
      refine hadmits.mapSources fun s hs => ?_
      have hs := hoperands s (hsources s (Op.operands_subset hs)).1
      rw [hdtype _ (hsound.wellFormed.resolve_lt hs), dtype, get_resolve hsound.wellFormed, dtype]

end Graph

end LazyTensor

import LazyTensor.Proofs.Except
import LazyTensor.Proofs.Expr.Build
import LazyTensor.Proofs.Order
import LazyTensor.Schedule.Fuse
import Mathlib.Data.List.Infix

/-!
# Drafts of kernels

What a kernel collects while it is built only grows: inputs keep their slots, nodes of the tree keep
their places. The relation `Fuses` says all that building a subtree can do.

The values of variables are noted by name, layout by layout. Nothing else depends on what is noted, so
every run splits into the layouts that it notes and what it would come to without them.
-/

namespace LazyTensor

/-- A kernel that should be indexed in another shape is told that of the reduction it met. -/
def Stop.InSession (s : Session) : Stop → Prop
  | .rescope t shape => shape = s.shape t
  | _ => True

/-- Every way in which an action stops is honest about shapes. -/
def StopsIn {α : Type} (s : Session) (act : FuseM α) : Prop :=
  ∀ d e, act.run d = .error e → e.InSession s

namespace Draft

variable {d d' d'' : Draft}

/-- A later draft has everything of an earlier one, in its place. -/
structure Extends (d d' : Draft) : Prop where
  inputs : d.inputs <+: d'.inputs
  deps : ∀ t ∈ d.deps, t ∈ d'.deps
  tree : d.tree.Grows d'.tree

theorem Extends.refl (d : Draft) : d.Extends d := ⟨List.prefix_rfl, fun _ h => h, .refl _⟩

theorem Extends.trans (h : d.Extends d') (h' : d'.Extends d'') : d.Extends d'' :=
  ⟨h.inputs.trans h'.inputs, fun t ht => h'.deps t (h.deps t ht), h.tree.trans h'.tree⟩

theorem Extends.slot (h : d.Extends d') {output id : BufferId} {slot : Nat}
    (hslot : (output :: d.inputs)[slot]? = some id) : (output :: d'.inputs)[slot]? = some id := by
  obtain ⟨more, hmore⟩ := h.inputs
  rw [← hmore, ← List.cons_append,
    List.getElem?_append_left (List.getElem?_eq_some_iff.mp hslot).1, hslot]

/-- Variables and the reduction may be noted; nothing else changes. -/
structure Notes (d d' : Draft) : Prop where
  inputs_eq : d'.inputs = d.inputs
  deps_eq : d'.deps = d.deps
  tree_eq : d'.tree = d.tree
  visited_eq : d'.visited = d.visited

theorem Notes.refl (d : Draft) : d.Notes d := ⟨rfl, rfl, rfl, rfl⟩

theorem Notes.extends (h : d.Notes d') : d.Extends d' :=
  ⟨h.inputs_eq ▸ List.prefix_rfl, fun _ ht => h.deps_eq ▸ ht, h.tree_eq ▸ .refl _⟩

/-- A buffer is in a slot, a new one if it had none. Beside the inputs nothing but variables may be
noted. -/
structure Takes (output id : BufferId) (slot : Nat) (d d' : Draft) : Prop where
  slot_eq : (output :: d'.inputs)[slot]? = some id
  inputs : d'.inputs = d.inputs ∨ d'.inputs = d.inputs ++ [id] ∧ id ∉ output :: d.inputs
  deps_eq : d'.deps = d.deps
  tree_eq : d'.tree = d.tree
  visited_eq : d'.visited = d.visited

variable {output id : BufferId} {slot : Nat}

theorem Takes.notes (h : Takes output id slot d d') (h' : d'.Notes d'') :
    Takes output id slot d d'' where
  slot_eq := by
    rw [h'.inputs_eq]
    exact h.slot_eq
  inputs := by
    rw [h'.inputs_eq]
    exact h.inputs
  deps_eq := h'.deps_eq.trans h.deps_eq
  tree_eq := h'.tree_eq.trans h.tree_eq
  visited_eq := h'.visited_eq.trans h.visited_eq

theorem Takes.extends (h : Takes output id slot d d') : d.Extends d' := by
  refine ⟨?_, fun _ ht => h.deps_eq ▸ ht, h.tree_eq ▸ .refl _⟩
  rcases h.inputs with hsame | ⟨hnew, -⟩
  · rw [hsame]
  · rw [hnew]
    exact List.prefix_append _ _

/-- The draft with a new tree, where the visit is remembered. -/
def place (d : Draft) (v : Visit) (i : Nat) (tree : Expr) : Draft :=
  { d with tree, visited := (v, i) :: d.visited }

theorem extends_place {v : Visit} {i : Nat} {tree : Expr} (h : d.tree.Grows tree) :
    d.Extends (d.place v i tree) :=
  ⟨List.prefix_rfl, fun _ ht => ht, h⟩

end Draft

namespace Fusion

variable {f : Fusion} {d d' : Draft} {v : Visit} {i : Nat} {u : Unit} {b : ExprM Nat}

/-- Notes that a node is read: from another kernel, or from the buffer that holds it. -/
def noteLoad (f : Fusion) (t : Tensor) (id : BufferId) (d : Draft) : Draft :=
  if f.isScheduled t then { d with deps := insertElem compare t d.deps }
  else { d with reads := insertElem compare id d.reads }

section NoteLoad

variable (f) (t : Tensor) (id : BufferId) (d)

theorem noteLoad_inputs : (f.noteLoad t id d).inputs = d.inputs := by
  rw [noteLoad]
  split <;> rfl

theorem noteLoad_tree : (f.noteLoad t id d).tree = d.tree := by
  rw [noteLoad]
  split <;> rfl

theorem noteLoad_visited : (f.noteLoad t id d).visited = d.visited := by
  rw [noteLoad]
  split <;> rfl

theorem mem_noteLoad_deps {u : Tensor} :
    u ∈ (f.noteLoad t id d).deps ↔ u ∈ d.deps ∨ u = t ∧ f.isScheduled t = true := by
  rw [noteLoad]
  split
  next hscheduled => rw [mem_insertElem, or_comm, and_iff_left hscheduled]
  next hstored => rw [or_iff_left fun h => hstored h.2]

theorem extends_noteLoad : d.Extends (f.noteLoad t id d) := by
  refine ⟨?_, fun u hu => (mem_noteLoad_deps ..).mpr (.inl hu), ?_⟩
  · rw [noteLoad_inputs]
  · rw [noteLoad_tree]
    exact .refl _

end NoteLoad

theorem load_eq [Width] {id : BufferId} {l : Layout} (hsource : f.source v = .ok (id, l)) :
    f.load v = (do
      modify (f.noteLoad v.node id)
      if id = f.output ∧ l ≠ f.store then failed (.assignAliasing id)
      let slot ← f.slotOf id
      let free ← unbind l
      building (.load slot (f.session.dtype v.node) free)) := by
  rw [load, hsource]
  unfold noteLoad
  by_cases hscheduled : f.isScheduled v.node = true
  · simp only [if_pos hscheduled]
  · simp only [if_neg hscheduled]

/-! ### Noting values -/

section Noting

variable {vars vars' : List (String × Int)} {b : SymVar × Int} {e : TensorError}

/-- Notes the value of a variable under its name. -/
def noteName (vars : List (String × Int)) (b : SymVar × Int) :
    Except TensorError (List (String × Int)) :=
  match vars.lookup b.1.name with
  | some first =>
    if first = b.2 then .ok vars else .error (.conflictingBinding b.1.name first b.2)
  | none => .ok (insertKey compare b.1.name b.2 vars)

theorem lookup_of_noteName (h : noteName vars b = .ok vars') :
    vars'.lookup b.1.name = some b.2 ∧
      ∀ name x, vars.lookup name = some x → vars'.lookup name = some x := by
  rw [noteName] at h
  split at h
  next first hfirst =>
    split at h
    next heq =>
      obtain rfl := Except.ok.inj h
      exact ⟨heq ▸ hfirst, fun _ _ hx => hx⟩
    next => cases h
  next hnone =>
    obtain rfl := Except.ok.inj h
    refine ⟨(lookup_insertKey ..).trans List.lookup_cons_self, fun name x hx => ?_⟩
    have hne : name ≠ b.1.name := by
      intro hname
      rw [hname, hnone] at hx
      cases hx
    rw [lookup_insertKey, List.lookup_cons, beq_false_of_ne hne, hx]

/-- The error tells of one name with two values. -/
def IsConflict (e : TensorError) : Prop :=
  ∃ name first second, first ≠ second ∧ e = .conflictingBinding name first second

theorem noteName_error (h : noteName vars b = .error e) : IsConflict e := by
  rw [noteName] at h
  split at h
  next first hfirst =>
    split at h
    next => cases h
    next hne => exact ⟨_, _, _, hne, (Except.error.inj h).symm⟩
  next => cases h

variable [Width] {ls ls' : List Layout}

/-- Notes the values that layouts bind. -/
def noteAll (vars : List (String × Int)) (ls : List Layout) :
    Except TensorError (List (String × Int)) :=
  (ls.flatMap fun l => l.unbind.2).foldlM noteName vars

theorem noteAll_append : noteAll vars (ls ++ ls') = noteAll vars ls >>= (noteAll · ls') := by
  rw [noteAll, List.flatMap_append, List.foldlM_append]
  rfl

theorem lookup_of_noteAll (h : noteAll vars ls = .ok vars') {l : Layout} (hl : l ∈ ls)
    (hb : b ∈ l.unbind.2) : vars'.lookup b.1.name = some b.2 := by
  have hfold : ∀ (bs : Bindings) {vars vars'}, bs.foldlM noteName vars = .ok vars' →
      (∀ b ∈ bs, vars'.lookup b.1.name = some b.2) ∧
        ∀ name x, vars.lookup name = some x → vars'.lookup name = some x := by
    intro bs
    induction bs with
    | nil =>
      intro vars vars' h
      obtain rfl := Except.ok.inj h
      exact ⟨nofun, fun _ _ hx => hx⟩
    | cons c bs ih =>
      intro vars vars' h
      rw [List.foldlM_cons] at h
      obtain ⟨vars₁, hc, h⟩ := bind_eq_ok h
      obtain ⟨hlookup, hkept⟩ := lookup_of_noteName hc
      obtain ⟨hrest, hlater⟩ := ih h
      exact ⟨List.forall_mem_cons.mpr ⟨hlater _ _ hlookup, hrest⟩,
        fun name x hx => hlater name x (hkept name x hx)⟩
  exact (hfold _ h).1 b (List.mem_flatMap.mpr ⟨l, hl, hb⟩)

theorem noteAll_error (h : noteAll vars ls = .error e) : IsConflict e := by
  rw [noteAll] at h
  generalize (ls.flatMap fun l => l.unbind.2) = bs at h
  induction bs generalizing vars with
  | nil => cases h
  | cons c bs ih =>
    rw [List.foldlM_cons] at h
    rcases error_of_bind h with hc | ⟨vars₁, h⟩
    · exact noteName_error hc
    · exact ih h

end Noting

/-! ### Runs, and what they note -/

section Splits

variable [Width] {α β : Type} {act : FuseM α} {g : α → FuseM β} {d d' : Draft} {ls ls' : List Layout}
  {o : Except Stop (α × Draft)} {o' : Except Stop (β × Draft)} {a : α} {e : Stop}

/-- From a draft, an action notes the values that the layouts bind. What it comes to otherwise is the
same whatever was noted before. -/
def Splits (act : FuseM α) (d : Draft) (ls : List Layout) (o : Except Stop (α × Draft)) : Prop :=
  ∀ vars, act.run { d with vars } =
    match noteAll vars ls with
    | .error e => .error (.fail e)
    | .ok vars => o.map fun r => (r.1, { r.2 with vars })

theorem splits_pure (a : α) (d : Draft) : Splits (pure a) d [] (.ok (a, d)) := fun _ => rfl

theorem splits_throw (e : Stop) (d : Draft) : Splits (throw e : FuseM α) d [] (.error e) :=
  fun _ => rfl

theorem Splits.bind (h : Splits act d ls (.ok (a, d'))) (hg : Splits (g a) d' ls' o') :
    Splits (act >>= g) d (ls ++ ls') o' := by
  intro vars
  rw [StateT.run_bind, h vars, noteAll_append]
  cases noteAll vars ls with
  | error e => rfl
  | ok vars => exact hg vars

theorem Splits.bind_error (h : Splits act d ls (.error e)) : Splits (act >>= g) d ls (.error e) := by
  intro vars
  rw [StateT.run_bind, h vars]
  cases noteAll vars ls <;> rfl

theorem splits_get_bind {g : Draft → FuseM β} (hg : ∀ vars, g { d with vars } = g d)
    (h : Splits (g d) d ls o') : Splits (get >>= g) d ls o' := by
  intro vars
  rw [← h vars, ← hg vars]
  rfl

theorem splits_modify {update : Draft → Draft}
    (hupdate : ∀ vars, update { d with vars } = { update d with vars }) :
    Splits (modify update) d [] (.ok (⟨⟩, update d)) := by
  intro vars
  exact congrArg (fun d => Except.ok (PUnit.unit, d)) (hupdate vars)

omit [Width] in
theorem run_bindName (b : SymVar × Int) (d : Draft) (vars : List (String × Int)) :
    (bindName b.1.name b.2).run { d with vars } =
      match noteName vars b with
      | .error e => .error (.fail e)
      | .ok vars => .ok ((), { d with vars }) := by
  show StateT.run (match vars.lookup b.1.name with
    | some first => unless first = b.2 do failed (.conflictingBinding b.1.name first b.2)
    | none => modify fun d => { d with vars := insertKey compare b.1.name b.2 d.vars })
    { d with vars } = _
  rw [noteName]
  cases vars.lookup b.1.name with
  | none => rfl
  | some first =>
    dsimp only
    split <;> rfl

omit [Width] in
theorem run_forM_bindName (bs : Bindings) (d : Draft) (vars : List (String × Int)) :
    (bs.forM fun b => bindName b.1.name b.2).run { d with vars } =
      match bs.foldlM noteName vars with
      | .error e => .error (.fail e)
      | .ok vars => .ok (⟨⟩, { d with vars }) := by
  induction bs generalizing vars with
  | nil => rfl
  | cons b bs ih =>
    show (bindName b.1.name b.2 >>= fun _ => bs.forM fun b => bindName b.1.name b.2).run _ = _
    rw [StateT.run_bind, run_bindName, List.foldlM_cons]
    cases noteName vars b with
    | error e => rfl
    | ok vars => exact ih vars

theorem splits_unbind (l : Layout) (d : Draft) : Splits (unbind l) d [l] (.ok (l.unbind.1, d)) := by
  intro vars
  show ((l.unbind.2.forM fun b => bindName b.1.name b.2) >>= fun _ => pure l.unbind.1).run _ = _
  rw [StateT.run_bind, run_forM_bindName, noteAll, List.flatMap_singleton]
  cases l.unbind.2.foldlM noteName vars <;> rfl

theorem Splits.run_cases (h : Splits act d ls o) : (∃ e, act.run d = .error (.fail e)) ∨
    ∃ vars, act.run d = o.map fun r => (r.1, { r.2 with vars }) := by
  have hrun := h d.vars
  cases hnote : noteAll d.vars ls with
  | error e =>
    rw [hnote] at hrun
    exact .inl ⟨e, hrun⟩
  | ok vars =>
    rw [hnote] at hrun
    exact .inr ⟨vars, hrun⟩

end Splits

/-! ### Steps -/

theorem slotOf_ok {id : BufferId} {slot : Nat} (h : (f.slotOf id).run d = .ok (slot, d')) :
    d.Takes f.output id slot d' := by
  rw [slotOf] at h
  split at h
  next hid =>
    obtain ⟨rfl, rfl⟩ := run_pure_ok h
    exact ⟨congrArg some hid.symm, .inl rfl, rfl, rfl, rfl⟩
  next hid =>
    obtain ⟨a, d₁, ha, h⟩ := run_bind_ok h
    cases ha
    dsimp only at h
    split at h
    next k hk =>
      obtain ⟨rfl, rfl⟩ := run_pure_ok h
      refine ⟨?_, .inl rfl, rfl, rfl, rfl⟩
      rw [List.getElem?_cons_succ]
      obtain ⟨hlt, hget, -⟩ := List.idxOf?_eq_some_iff.mp hk
      rw [List.getElem?_eq_getElem hlt, hget]
    next hnone =>
      obtain ⟨u, d₁, hu, h⟩ := run_bind_ok h
      cases hu
      obtain ⟨rfl, rfl⟩ := run_pure_ok h
      refine ⟨?_, .inr ⟨rfl, ?_⟩, rfl, rfl, rfl⟩
      · rw [List.getElem?_cons_succ, List.getElem?_concat_length]
      · rw [List.mem_cons, not_or]
        exact ⟨hid, List.idxOf?_eq_none_iff.mp hnone⟩

theorem run_building (b : ExprM Nat) (d : Draft) : (building b).run d =
    match b.run d.tree with
    | .ok (i, tree) => .ok (i, { d with tree })
    | .error e => .error (.fail (.build e)) := by
  have hget : ∀ g : Draft → FuseM Nat, (get >>= g).run d = (g d).run d := fun _ => rfl
  rw [building, hget]
  cases b.run d.tree <;> rfl

theorem building_ok (h : (building b).run d = .ok (i, d')) :
    ∃ tree, b.run d.tree = .ok (i, tree) ∧ d' = { d with tree } := by
  rw [run_building] at h
  split at h
  next j tree hb =>
    cases h
    exact ⟨tree, hb, rfl⟩
  next => cases h

theorem remember_ok {act : FuseM Nat} (h : (remember v act).run d = .ok (i, d')) :
    (d' = d ∧ (v, i) ∈ d.visited) ∨
      ∃ d₁, act.run d = .ok (i, d₁) ∧ d' = d₁.place v i d₁.tree := by
  obtain ⟨a, d₁, ha, h⟩ := run_bind_ok h
  cases ha
  split at h
  next j hj =>
    obtain ⟨rfl, rfl⟩ := run_pure_ok h
    exact .inl ⟨rfl, mem_of_lookup hj⟩
  next =>
    obtain ⟨j, d₁, hact, h⟩ := run_bind_ok h
    obtain ⟨u, d₂, hu, h⟩ := run_bind_ok h
    cases hu
    obtain ⟨rfl, rfl⟩ := run_pure_ok h
    exact .inr ⟨d₁, hact, rfl⟩

theorem enterReduction_ok (h : (f.enterReduction v).run d = .ok (u, d')) :
    v.layout.isContiguous = true ∧ v.layout.shape = f.session.shape v.node ∧ d.Notes d' := by
  rw [enterReduction] at h
  split at h
  · cases h
  · obtain ⟨⟨hcontiguous, hshape⟩, h⟩ := run_check_ok h
    refine ⟨hcontiguous, hshape, ?_⟩
    obtain ⟨a, d₁, ha, h⟩ := run_bind_ok h
    cases ha
    split at h
    · split at h
      · obtain ⟨-, rfl⟩ := run_pure_ok h
        exact .refl d'
      · cases h
    · cases h
      exact ⟨rfl, rfl, rfl, rfl⟩

section Layouts

variable [Width] {l : Layout}

theorem unbind_ok {free : Layout} (h : (unbind l).run d = .ok (free, d')) :
    free = l.unbind.1 ∧ d.Notes d' := by
  rcases (splits_unbind l d).run_cases with ⟨e, he⟩ | ⟨vars, hrun⟩
  · cases h.symm.trans he
  · cases h.symm.trans hrun
    exact ⟨rfl, rfl, rfl, rfl, rfl⟩

theorem operand_bind_ok {β : Type} {g : Visit → FuseM β} {a : Tensor} {b : β}
    (h : (f.operand v a >>= g).run d = .ok (b, d')) :
    (g (visit f.session a v.layout v.inReduce)).run d = .ok (b, d') := by
  obtain ⟨w, d₁, hw, hg⟩ := run_bind_ok h
  rw [operand] at hw
  split at hw
  · cases hw
  · cases hw
    exact hg

theorem load_ok (h : (f.load v).run d = .ok (i, d')) :
    ∃ id l slot d₁ tree, f.source v = .ok (id, l) ∧
      (f.noteLoad v.node id d).Takes f.output id slot d₁ ∧
      (id = f.output → l = f.store) ∧
      d₁.tree.Adds ⟨.load slot l.unbind.1, f.session.dtype v.node, l.unbind.1.shape⟩ i tree ∧
      d' = { d₁ with tree } := by
  cases hsource : f.source v with
  | error e =>
    rw [load, hsource] at h
    cases h
  | ok r =>
    obtain ⟨id, l⟩ := r
    rw [load_eq hsource] at h
    obtain ⟨u, d₀, hu, h⟩ := run_bind_ok h
    cases hu
    split at h
    · cases h
    next hclear =>
      obtain ⟨slot, d₁, hslot, h⟩ := run_bind_ok h
      obtain ⟨free, d₂, hfree, h⟩ := run_bind_ok h
      obtain ⟨rfl, hnotes⟩ := unbind_ok hfree
      obtain ⟨tree, hload, rfl⟩ := building_ok h
      exact ⟨id, l, slot, d₂, tree, rfl, (slotOf_ok hslot).notes hnotes,
        fun hid => not_not.mp fun hne => hclear ⟨hid, hne⟩, ExprM.load_ok hload, rfl⟩

/-! ### Subtrees -/

/-- What building the subtree of a visit can do: it was built before, or its operands are built and
one node is added. -/
inductive Fuses (f : Fusion) : Draft → Visit → Nat → Draft → Prop
  | known {d : Draft} {v : Visit} {i : Nat} : (v, i) ∈ d.visited → Fuses f d v i d
  | const {d d₁ : Draft} {v : Visit} {i : Nat} {tree : Expr} {value : Value} :
      f.session.op v.node = .const value → d.Notes d₁ →
      d₁.tree.Adds ⟨.const (value.normalize (f.session.dtype v.node)) v.layout.unbind.1,
        f.session.dtype v.node, v.layout.unbind.1.shape⟩ i tree →
      Fuses f d v i (d₁.place v i tree)
  | load {d d₁ : Draft} {v : Visit} {i slot : Nat} {tree : Expr} {id : BufferId} {l : Layout} :
      f.isLoaded v.node = true → f.source v = .ok (id, l) →
      (f.noteLoad v.node id d).Takes f.output id slot d₁ → (id = f.output → l = f.store) →
      d₁.tree.Adds ⟨.load slot l.unbind.1, f.session.dtype v.node, l.unbind.1.shape⟩ i tree →
      Fuses f d v i (d₁.place v i tree)
  | unary {d d₁ : Draft} {v : Visit} {i x : Nat} {tree : Expr} {op : UnaryOp} {a : Tensor} :
      f.session.op v.node = .unary op a →
      Fuses f d (visit f.session a v.layout v.inReduce) x d₁ →
      d₁.tree.Adds ⟨.unary op x, (d₁.tree.node x).dtype, (d₁.tree.node x).shape⟩ i tree →
      Fuses f d v i (d₁.place v i tree)
  | cast {d d₁ : Draft} {v : Visit} {i x : Nat} {tree : Expr} {a : Tensor} :
      f.session.op v.node = .cast a →
      Fuses f d (visit f.session a v.layout v.inReduce) x d₁ →
      d₁.tree.Adds ⟨.cast x, f.session.dtype v.node, (d₁.tree.node x).shape⟩ i tree →
      Fuses f d v i (d₁.place v i tree)
  | binary {d d₁ d₂ : Draft} {v : Visit} {i x y : Nat} {tree : Expr} {op : BinaryOp} {a b : Tensor} :
      f.session.op v.node = .binary op a b →
      Fuses f d (visit f.session a v.layout v.inReduce) x d₁ →
      Fuses f d₁ (visit f.session b v.layout v.inReduce) y d₂ →
      (d₂.tree.node y).shape = (d₂.tree.node x).shape →
      d₂.tree.Adds ⟨.binary op x y, if op.isComparison then .bool else (d₂.tree.node x).dtype,
        (d₂.tree.node x).shape⟩ i tree →
      Fuses f d v i (d₂.place v i tree)
  | ternary {d d₁ d₂ d₃ : Draft} {v : Visit} {i x y z : Nat} {tree : Expr} {op : TernaryOp}
      {a b c : Tensor} :
      f.session.op v.node = .ternary op a b c →
      Fuses f d (visit f.session a v.layout v.inReduce) x d₁ →
      Fuses f d₁ (visit f.session b v.layout v.inReduce) y d₂ →
      Fuses f d₂ (visit f.session c v.layout v.inReduce) z d₃ →
      (d₃.tree.node y).shape = (d₃.tree.node x).shape ∧
        (d₃.tree.node z).shape = (d₃.tree.node x).shape →
      d₃.tree.Adds ⟨.ternary op x y z, (d₃.tree.node y).dtype, (d₃.tree.node x).shape⟩ i tree →
      Fuses f d v i (d₃.place v i tree)
  | reduce {d d₁ d₂ : Draft} {v : Visit} {i x : Nat} {tree : Expr} {op : ReduceOp} {axes : List Nat}
      {a : Tensor} :
      f.session.op v.node = .reduce op axes a → v.layout.isContiguous = true →
      v.layout.shape = f.session.shape v.node → d.Notes d₁ →
      Fuses f d₁ (visit f.session a (.ofShape (f.session.shape a)) true) x d₂ →
      d₂.tree.Adds ⟨.reduce op (Expr.sortedAxes axes) x, (d₂.tree.node x).dtype,
        Expr.reducedShape (d₂.tree.node x).shape (Expr.sortedAxes axes)⟩ i tree →
      Fuses f d v i (d₂.place v i tree)

theorem fuse_ok {depth : Nat} (h : (f.fuse depth v).run d = .ok (i, d')) : f.Fuses d v i d' := by
  induction depth generalizing d v i d' with
  | zero => cases h
  | succ depth ih =>
    rw [fuse] at h
    rcases remember_ok h with ⟨rfl, hknown⟩ | ⟨d₁, hact, rfl⟩
    · exact .known hknown
    replace h := hact
    dsimp only at h
    split at h
    next value hop =>
      obtain ⟨free, d₀, hfree, h⟩ := run_bind_ok h
      obtain ⟨rfl, hnotes⟩ := unbind_ok hfree
      obtain ⟨tree, hconst, rfl⟩ := building_ok h
      change f.Fuses d v i (d₀.place v i tree)
      exact .const hop hnotes (ExprM.const_ok hconst)
    next =>
      split at h
      next hloaded =>
        obtain ⟨id, l, slot, d₀, tree, hsource, htakes, hclear, hadds, rfl⟩ := load_ok h
        change f.Fuses d v i (d₀.place v i tree)
        exact .load hloaded hsource htakes hclear hadds
      next =>
        split at h
        next op a hop =>
          replace h := operand_bind_ok h
          obtain ⟨x, d₂, hx, h⟩ := run_bind_ok h
          obtain ⟨tree, hunary, rfl⟩ := building_ok h
          change f.Fuses d v i (d₂.place v i tree)
          exact .unary hop (ih hx) (ExprM.unary_ok hunary)
        next a hop =>
          replace h := operand_bind_ok h
          obtain ⟨x, d₂, hx, h⟩ := run_bind_ok h
          obtain ⟨tree, hcast, rfl⟩ := building_ok h
          change f.Fuses d v i (d₂.place v i tree)
          exact .cast hop (ih hx) (ExprM.cast_ok hcast)
        next op a b hop =>
          replace h := operand_bind_ok h
          replace h := operand_bind_ok h
          obtain ⟨x, d₂, hx, h⟩ := run_bind_ok h
          obtain ⟨y, d₃, hy, h⟩ := run_bind_ok h
          obtain ⟨tree, hbinary, rfl⟩ := building_ok h
          change f.Fuses d v i (d₃.place v i tree)
          obtain ⟨hshape, hadds⟩ := ExprM.binary_ok hbinary
          exact .binary hop (ih hx) (ih hy) hshape hadds
        next op a b c hop =>
          replace h := operand_bind_ok h
          replace h := operand_bind_ok h
          replace h := operand_bind_ok h
          obtain ⟨x, d₂, hx, h⟩ := run_bind_ok h
          obtain ⟨y, d₃, hy, h⟩ := run_bind_ok h
          obtain ⟨z, d₄, hz, h⟩ := run_bind_ok h
          obtain ⟨tree, hternary, rfl⟩ := building_ok h
          change f.Fuses d v i (d₄.place v i tree)
          obtain ⟨hshapes, hadds⟩ := ExprM.ternary_ok hternary
          exact .ternary hop (ih hx) (ih hy) (ih hz) hshapes hadds
        next op axes a hop =>
          obtain ⟨u, d₀, hu, h⟩ := run_bind_ok h
          obtain ⟨hcontiguous, hshape, hnotes⟩ := enterReduction_ok hu
          obtain ⟨x, d₂, hx, h⟩ := run_bind_ok h
          obtain ⟨tree, hreduce, rfl⟩ := building_ok h
          change f.Fuses d v i (d₂.place v i tree)
          exact .reduce hop hcontiguous hshape hnotes (ih hx) (ExprM.reduce_ok hreduce)
        next => cases h

theorem Fuses.extends (h : f.Fuses d v i d') : d.Extends d' := by
  induction h with
  | known _ => exact .refl _
  | const _ hnotes hadds => exact hnotes.extends.trans (Draft.extends_place hadds.grows)
  | load _ _ htakes _ hadds =>
    exact ((extends_noteLoad ..).trans htakes.extends).trans (Draft.extends_place hadds.grows)
  | unary _ _ hadds ha | cast _ _ hadds ha => exact ha.trans (Draft.extends_place hadds.grows)
  | binary _ _ _ _ hadds ha hb => exact (ha.trans hb).trans (Draft.extends_place hadds.grows)
  | ternary _ _ _ _ _ hadds ha hb hc =>
    exact ((ha.trans hb).trans hc).trans (Draft.extends_place hadds.grows)
  | reduce _ _ _ hnotes _ hadds ha =>
    exact (hnotes.extends.trans ha).trans (Draft.extends_place hadds.grows)

theorem Fuses.mem_deps (h : f.Fuses d v i d') {t : Tensor} (ht : t ∈ d'.deps) :
    t ∈ d.deps ∨ f.isScheduled t = true ∧ ∃ w id l, w.node = t ∧ f.source w = .ok (id, l) := by
  induction h with
  | known _ => exact .inl ht
  | const _ hnotes _ => exact .inl (hnotes.deps_eq ▸ ht)
  | load _ hsource htakes _ _ =>
    rcases (mem_noteLoad_deps ..).mp (htakes.deps_eq ▸ ht) with hold | ⟨rfl, hscheduled⟩
    · exact .inl hold
    · exact .inr ⟨hscheduled, _, _, _, rfl, hsource⟩
  | unary _ _ _ ha | cast _ _ _ ha => exact ha ht
  | binary _ _ _ _ _ ha hb => exact (hb ht).elim ha .inr
  | ternary _ _ _ _ _ _ ha hb hc => exact (hc ht).elim (fun ht => (hb ht).elim ha .inr) .inr
  | reduce _ _ _ hnotes _ _ ha => exact (ha ht).imp_left fun ht => hnotes.deps_eq ▸ ht

end Layouts

/-! ### The layouts of a kernel -/

section Leaves

variable [Width] {f : Fusion} {α β : Type} {act : FuseM α} {g : α → FuseM β} {d : Draft} {v : Visit}
  {l : Layout} {new new' : List Layout}

/-- The layout through which a visit sees a constant or a buffer. What is computed in the kernel has
none of its own. -/
def leaf? (f : Fusion) (v : Visit) : Option Layout :=
  if (f.session.op v.node).isConst then some v.layout
  else if f.isLoaded v.node then (f.source v).toOption.map (·.2)
  else none

/-- The layouts through which a draft sees constants and buffers. -/
def leaves (f : Fusion) (d : Draft) : List Layout := d.visited.filterMap fun p => f.leaf? p.1

/-- All layouts that go into a kernel: the one in which it stores, and those that it reads through. -/
def layouts (f : Fusion) (d : Draft) : List Layout := f.store :: f.leaves d

/-- An action notes the layouts of the leaves that it adds, and of those in `new`, which are still to
be added. -/
def Collects (f : Fusion) (act : FuseM α) (d : Draft) (new : List Layout) : Prop :=
  ∃ ls o, Splits act d ls o ∧ ∀ a d', o = .ok (a, d') →
    ∀ l, l ∈ f.leaves d' ∨ l ∈ new ↔ l ∈ f.leaves d ∨ l ∈ ls

/-- What an action comes to adds the leaves with the layouts `ls`, those in `new` left aside, or is
honest about shapes. -/
def Adds (f : Fusion) (d : Draft) (ls new : List Layout) : Except Stop (α × Draft) → Prop
  | .ok r => ∀ l, l ∈ f.leaves r.2 ∨ l ∈ new ↔ l ∈ f.leaves d ∨ l ∈ ls
  | .error e => e.InSession f.session

/-- An action collects layouts and stops in the session. -/
def Traces (f : Fusion) (act : FuseM α) (d : Draft) (new : List Layout) : Prop :=
  ∃ ls o, Splits act d ls o ∧ f.Adds d ls new o

theorem Traces.collects (h : f.Traces act d new) : f.Collects act d new := by
  obtain ⟨ls, o, hsplits, hadds⟩ := h
  refine ⟨ls, o, hsplits, fun a d' ho => ?_⟩
  rw [ho] at hadds
  exact hadds

theorem stopsIn_of_traces (h : ∀ d, f.Traces act d new) : StopsIn f.session act := by
  intro d e he
  obtain ⟨ls, o, hsplits, hadds⟩ := h d
  rcases hsplits.run_cases with ⟨e', hfail⟩ | ⟨vars, hrun⟩
  · cases he.symm.trans hfail
    trivial
  · cases o with
    | error e' =>
      cases he.symm.trans hrun
      exact hadds
    | ok r => cases he.symm.trans hrun

theorem traces_pure (a : α) : f.Traces (pure a) d [] :=
  ⟨[], _, splits_pure a d, fun _ => Iff.rfl⟩

theorem traces_throw {e : Stop} (h : e.InSession f.session) :
    f.Traces (throw e : FuseM α) d new :=
  ⟨[], _, splits_throw e d, h⟩

theorem Traces.bind (h : f.Traces act d new) (hg : ∀ a d', f.Traces (g a) d' new') :
    f.Traces (act >>= g) d (new ++ new') := by
  obtain ⟨ls, o, hsplits, hadds⟩ := h
  cases o with
  | error e => exact ⟨ls, .error e, hsplits.bind_error, hadds⟩
  | ok r =>
    obtain ⟨ls', o', hsplits', hadds'⟩ := hg r.1 r.2
    refine ⟨ls ++ ls', o', hsplits.bind hsplits', ?_⟩
    cases o' with
    | error e => exact hadds'
    | ok r' =>
      intro l
      have hfirst := hadds l
      have hsecond := hadds' l
      rw [List.mem_append, List.mem_append]
      tauto

theorem traces_get_bind {g : Draft → FuseM β} (hg : ∀ vars, g { d with vars } = g d)
    (h : f.Traces (g d) d new) : f.Traces (get >>= g) d new := by
  obtain ⟨ls, o, hsplits, hadds⟩ := h
  exact ⟨ls, o, splits_get_bind hg hsplits, hadds⟩

theorem traces_modify {update : Draft → Draft}
    (hupdate : ∀ vars, update { d with vars } = { update d with vars })
    (hvisited : (update d).visited = d.visited) : f.Traces (modify update) d [] := by
  refine ⟨[], _, splits_modify hupdate, fun l => ?_⟩
  rw [leaves, hvisited]
  rfl

theorem traces_unbind (l : Layout) : f.Traces (unbind l) d [l] :=
  ⟨[l], _, splits_unbind l d, fun _ => Iff.rfl⟩

theorem traces_building (b : ExprM Nat) : f.Traces (building b) d [] := by
  cases hb : b.run d.tree with
  | error e =>
    exact ⟨[], .error (.fail (.build e)), fun vars => by rw [run_building, hb]; rfl, trivial⟩
  | ok r =>
    exact ⟨[], .ok (r.1, { d with tree := r.2 }), fun vars => by rw [run_building, hb]; rfl,
      fun _ => Iff.rfl⟩

theorem traces_remember {act : FuseM Nat} (hact : f.Traces act d (f.leaf? v).toList) :
    f.Traces (remember v act) d [] := by
  refine traces_get_bind (fun _ => rfl) ?_
  split
  · exact traces_pure _
  · obtain ⟨ls, o, hsplits, hadds⟩ := hact
    cases o with
    | error e => exact ⟨ls, .error e, hsplits.bind_error, hadds⟩
    | ok r =>
      have hplace : Splits (do
          modify fun d => { d with visited := (v, r.1) :: d.visited }
          return r.1) r.2 [] (.ok (r.1, { r.2 with visited := (v, r.1) :: r.2.visited })) :=
        fun _ => rfl
      refine ⟨ls ++ [], _, hsplits.bind hplace, fun l => ?_⟩
      rw [List.append_nil, or_iff_left List.not_mem_nil, ← hadds l, or_comm, leaves, List.filterMap_cons]
      cases f.leaf? v <;> simp [leaves]

theorem traces_slotOf (id : BufferId) : f.Traces (f.slotOf id) d [] := by
  rw [slotOf]
  split
  · exact traces_pure _
  · refine traces_get_bind (fun _ => rfl) ?_
    dsimp only
    split
    · exact traces_pure _
    · exact (traces_modify (fun _ => rfl) rfl).bind fun _ _ => traces_pure _

theorem traces_operand (a : Tensor) : f.Traces (f.operand v a) d [] := by
  rw [operand]
  dsimp only
  split
  · exact traces_throw trivial
  · exact traces_pure _

theorem traces_enterReduction : f.Traces (f.enterReduction v) d [] := by
  rw [enterReduction]
  dsimp only
  split
  · exact traces_throw trivial
  · split
    · refine traces_get_bind (fun _ => rfl) ?_
      split
      · split
        · exact traces_pure _
        · exact traces_throw trivial
      · exact traces_modify (fun _ => rfl) rfl
    · refine traces_throw ?_
      split
      · rfl
      · trivial

theorem leaf?_of_source {id : BufferId} (hloaded : f.isLoaded v.node = true)
    (hsource : f.source v = .ok (id, l)) : f.leaf? v = some l := by
  rw [leaf?, if_pos hloaded]
  split
  next hconst =>
    cases hop : f.session.op v.node with
    | const value =>
      rw [source, hop] at hsource
      dsimp only at hsource
      split at hsource
      · cases hsource
        rfl
      · cases hsource
    | _ =>
      rw [hop] at hconst
      cases hconst
  next =>
    rw [hsource]
    rfl

theorem traces_load (hloaded : f.isLoaded v.node = true) :
    f.Traces (f.load v) d (f.leaf? v).toList := by
  cases hsource : f.source v with
  | error e =>
    rw [load, hsource]
    exact traces_throw trivial
  | ok r =>
    obtain ⟨id, l⟩ := r
    rw [load_eq hsource, leaf?_of_source hloaded hsource]
    refine (traces_modify (fun vars => ?_) (noteLoad_visited ..)).bind fun _ _ => ?_
    · rw [noteLoad, noteLoad]
      split <;> rfl
    split
    · exact traces_throw trivial
    · exact (traces_slotOf id).bind fun _ _ => (traces_unbind l).bind fun _ _ => traces_building _

theorem traces_fuse (depth : Nat) (v : Visit) (d : Draft) : f.Traces (f.fuse depth v) d [] := by
  induction depth generalizing v d with
  | zero => exact traces_throw trivial
  | succ depth ih =>
    rw [fuse]
    refine traces_remember ?_
    dsimp only
    split
    next value hop =>
      have hleaf : f.leaf? v = some v.layout := by
        rw [leaf?, if_pos]
        rw [Session.op, hop]
        rfl
      rw [hleaf]
      exact (traces_unbind v.layout).bind fun _ _ => traces_building _
    next hop =>
      split
      next hloaded => exact traces_load hloaded
      next hloaded =>
        have hleaf : f.leaf? v = none := by
          rw [leaf?, if_neg, if_neg hloaded]
          intro hconst
          cases hop' : (f.session.node v.node).op with
          | const value => exact hop value hop'
          | _ =>
            rw [Session.op, hop'] at hconst
            cases hconst
        rw [hleaf]
        split
        · exact (traces_operand _).bind fun _ _ => (ih _ _).bind fun _ _ => traces_building _
        · exact (traces_operand _).bind fun _ _ => (ih _ _).bind fun _ _ => traces_building _
        · exact (traces_operand _).bind fun _ _ => (traces_operand _).bind fun _ _ =>
            (ih _ _).bind fun _ _ => (ih _ _).bind fun _ _ => traces_building _
        · exact (traces_operand _).bind fun _ _ => (traces_operand _).bind fun _ _ =>
            (traces_operand _).bind fun _ _ => (ih _ _).bind fun _ _ => (ih _ _).bind fun _ _ =>
              (ih _ _).bind fun _ _ => traces_building _
        · exact traces_enterReduction.bind fun _ _ => (ih _ _).bind fun _ _ => traces_building _
        · exact traces_throw trivial

theorem traces_sink (f : Fusion) (value : Tensor) (shape : Shape) (d : Draft) :
    f.Traces (f.sink value shape) d [f.store] := by
  rw [sink]
  split
  · exact traces_throw trivial
  · refine (traces_fuse _ _ d).bind fun _ _ => (traces_unbind f.store).bind fun _ _ => ?_
    exact (traces_building _).bind fun _ _ => traces_pure _

end Leaves

end Fusion

/-! ### Kernels without names -/

section Kernels

variable [Width]

namespace Fusion

variable {f : Fusion} {value : Tensor} {shape : Shape} {d : Draft}

theorem splits_of_rescope {t : Tensor} {shape' : Shape}
    (h : (f.sink value shape).run {} = .error (.rescope t shape')) :
    shape' = f.session.shape t ∧
      ∃ ls, Splits (f.sink value shape) {} ls (.error (.rescope t shape')) := by
  refine ⟨stopsIn_of_traces (f.traces_sink value shape) {} _ h, ?_⟩
  obtain ⟨ls, o, hsplits, -⟩ := (f.traces_sink value shape {}).collects
  rcases hsplits.run_cases with ⟨e, he⟩ | ⟨vars, hrun⟩
  · cases h.symm.trans he
  cases o with
  | error e =>
    cases h.symm.trans hrun
    exact ⟨ls, hsplits⟩
  | ok r => cases h.symm.trans hrun

/-- What building the sink of a kernel comes to when names are left aside. -/
def Drafts (f : Fusion) (value : Tensor) (shape : Shape) (d : Draft) : Prop :=
  ∃ ls, Splits (f.sink value shape) {} ls (.ok ((), d)) ∧ ∀ l, l ∈ f.layouts d ↔ l ∈ ls

theorem drafts_of_sink {u : Unit} (h : (f.sink value shape).run {} = .ok (u, d)) :
    f.Drafts value shape d := by
  obtain ⟨ls, o, hsplits, hleaves⟩ := (f.traces_sink value shape {}).collects
  rcases hsplits.run_cases with ⟨e, he⟩ | ⟨vars, hrun⟩
  · cases h.symm.trans he
  cases o with
  | error e => cases h.symm.trans hrun
  | ok r =>
    cases h.symm.trans hrun
    refine ⟨ls, hsplits, fun l => ?_⟩
    have hleaf := hleaves r.1 r.2 rfl l
    have hnone : l ∉ f.leaves {} := List.not_mem_nil
    rw [or_iff_right hnone, List.mem_singleton, or_comm] at hleaf
    exact List.mem_cons.trans hleaf

end Fusion

namespace Session

variable {s : Session} {p : Partition} {maxViews : Nat} {root : Tensor} {output : BufferId}
  {task : StoreTask} {k : FusedKernel} {shape : Shape} {rescoped : Bool}

theorem storeTask_ok (h : s.storeTask root output = .ok task) :
    (∃ target value, s.op root = .assign target value ∧ s.shape value = s.shape target ∧
        s.dtype value = s.dtype target ∧ task = ⟨value, s.layout target, some output⟩) ∨
      (∃ a, s.op root = .contiguous a ∧ task = ⟨a, .ofShape (s.shape root), none⟩) ∨
      ((∀ target value, s.op root ≠ .assign target value) ∧ (∀ a, s.op root ≠ .contiguous a) ∧
        task = ⟨root, .ofShape (s.shape root), none⟩) := by
  rw [storeTask] at h
  split at h
  next target value hop =>
    split at h
    next => cases h
    next hshape =>
      split at h
      next => cases h
      next hdtype =>
        cases h
        exact .inl ⟨target, value, hop, not_not.mp hshape, not_not.mp hdtype, rfl⟩
  next a hop =>
    cases h
    exact .inr (.inl ⟨a, hop, rfl⟩)
  next hassign hcontiguous =>
    cases h
    exact .inr (.inr ⟨hassign, hcontiguous, rfl⟩)

def fusion (s : Session) (p : Partition) (maxViews : Nat) (root : Tensor) (output : BufferId)
    (store : Layout) (rescoped : Bool) : Fusion :=
  { session := s, root, realize := p.realize, storage := p.storage, maxViews, output, store, rescoped }

/-- The kernel of a node as it is drafted when names are left aside: in the shape of the node, or in
that of a reduction that the first draft met. -/
inductive Drafted (s : Session) (p : Partition) (maxViews : Nat) (root : Tensor) :
    Fusion → Draft → Prop
  | whole {output : BufferId} {task : StoreTask} {store : Layout} {d : Draft} :
      p.storage.lookup root = some output → s.storeTask root output = .ok task →
      task.layout.reshape (s.shape root) = .ok store →
      (s.fusion p maxViews root output store false).Drafts task.value (s.shape root) d →
      Drafted s p maxViews root (s.fusion p maxViews root output store false) d
  | rescoped {output : BufferId} {task : StoreTask} {first store : Layout} {t : Tensor}
      {shape : Shape} {ls : List Layout} {d : Draft} :
      p.storage.lookup root = some output → s.storeTask root output = .ok task →
      task.layout.reshape (s.shape root) = .ok first →
      Fusion.Splits ((s.fusion p maxViews root output first false).sink task.value (s.shape root)) {}
        ls (.error (.rescope t shape)) →
      task.layout.reshape shape = .ok store →
      (s.fusion p maxViews root output store true).Drafts task.value shape d →
      Drafted s p maxViews root (s.fusion p maxViews root output store true) d

def kernelOf (root : Tensor) (output : BufferId) (task : StoreTask) (d : Draft) : FusedKernel where
  item := { root, tree := d.tree, output, inputs := d.inputs, vars := d.vars }
  deps := d.deps
  reads := d.reads
  overwrites := task.overwrites
  storeShape := task.layout.shape

theorem buildKernelIn_eq {store : Layout} (hstore : task.layout.reshape shape = .ok store)
    (rescoped : Bool) :
    s.buildKernelIn p maxViews root output task shape rescoped =
      (((s.fusion p maxViews root output store rescoped).sink task.value shape).run {}).map
        fun r => kernelOf root output task r.2 := by
  rw [buildKernelIn, hstore]
  dsimp only
  rw [fusion]
  cases (Fusion.sink ⟨s, root, p.realize, p.storage, maxViews, output, store, rescoped⟩ task.value
    shape).run {} <;> rfl

theorem buildKernelIn_ok (h : s.buildKernelIn p maxViews root output task shape rescoped = .ok k) :
    ∃ store u d, task.layout.reshape shape = .ok store ∧
      ((s.fusion p maxViews root output store rescoped).sink task.value shape).run {} = .ok (u, d) ∧
      k = kernelOf root output task d := by
  cases hstore : task.layout.reshape shape with
  | error e =>
    rw [buildKernelIn, hstore] at h
    cases h
  | ok store =>
    rw [buildKernelIn_eq hstore] at h
    obtain ⟨r, hrun, rfl⟩ := map_eq_ok h
    exact ⟨store, r.1, r.2, rfl, hrun, rfl⟩

theorem buildKernelIn_rescope {shape' : Shape} {t : Tensor}
    (h : s.buildKernelIn p maxViews root output task shape rescoped = .error (.rescope t shape')) :
    ∃ store, task.layout.reshape shape = .ok store ∧
      ((s.fusion p maxViews root output store rescoped).sink task.value shape).run {}
        = .error (.rescope t shape') := by
  cases hstore : task.layout.reshape shape with
  | error e =>
    rw [buildKernelIn, hstore] at h
    cases h
  | ok store =>
    rw [buildKernelIn_eq hstore] at h
    cases hrun : ((s.fusion p maxViews root output store rescoped).sink task.value shape).run {} with
    | error e =>
      rw [hrun] at h
      exact ⟨store, rfl, hrun.trans (congrArg _ (Except.error.inj h))⟩
    | ok r =>
      rw [hrun] at h
      cases h

theorem buildKernel_ok (h : s.buildKernel p maxViews root = .ok k) :
    ∃ output task store t rescoped u d, p.storage.lookup root = some output ∧
      s.storeTask root output = .ok task ∧ task.layout.reshape (s.shape t) = .ok store ∧
      ((s.fusion p maxViews root output store rescoped).sink task.value (s.shape t)).run {}
        = .ok (u, d) ∧
      k = kernelOf root output task d ∧
      s.Drafted p maxViews root (s.fusion p maxViews root output store rescoped) d := by
  rw [buildKernel] at h
  cases houtput : p.storage.lookup root with
  | none =>
    rw [houtput] at h
    cases h
  | some output =>
    rw [houtput] at h
    dsimp only at h
    split at h
    next => cases h
    next task htask =>
      split at h
      next t shape hrescope =>
        split at h
        next =>
          obtain ⟨first, hfirst, hstop⟩ := buildKernelIn_rescope hrescope
          obtain ⟨rfl, ls, hsplits⟩ := Fusion.splits_of_rescope hstop
          obtain ⟨store, u, d, hstore, hrun, hk⟩ := buildKernelIn_ok h
          exact ⟨output, task, store, t, true, u, d, rfl, htask, hstore, hrun, hk,
            .rescoped houtput htask hfirst hsplits hstore (Fusion.drafts_of_sink hrun)⟩
        next => cases h
      next =>
        obtain ⟨store, u, d, hstore, hrun, hk⟩ := buildKernelIn_ok h
        exact ⟨output, task, store, root, false, u, d, rfl, htask, hstore, hrun, hk,
          .whole houtput htask hstore (Fusion.drafts_of_sink hrun)⟩

end Session

end Kernels

end LazyTensor

import LazyTensor.Proofs.Schedule.Draft
import LazyTensor.Proofs.Tensor.Coherent

/-!
# What stops a kernel

Building a kernel over a coherent session either succeeds or names a node that is to be computed, is
not stored yet and has no kernel of its own so far. It fails only where two views bind one name to
different values, or where tensors are assigned to.
-/

namespace LazyTensor

/-! ### Outcomes of actions -/

/-- An action ends with a result and a draft as described, or stops for one of the given reasons. -/
def Ends {α : Type} (act : FuseM α) (d : Draft) (post : α → Draft → Prop) (stop : Stop → Prop) :
    Prop :=
  match act.run d with
  | .ok r => post r.1 r.2
  | .error e => stop e

section Ends

variable {α β : Type} {d : Draft} {stop : Stop → Prop} {act : FuseM α} {mid : α → Draft → Prop}
  {post : β → Draft → Prop} {e : Stop} {g : α → FuseM β}

theorem ends_pure {a : α} (h : mid a d) : Ends (pure a) d mid stop := h

theorem ends_throw (h : stop e) : Ends (throw e) d mid stop := h

theorem ends_throw_bind (h : stop e) :
    Ends (throw e >>= g) d post stop := h

theorem ends_bind (hact : Ends act d mid stop) (hg : ∀ a d', mid a d' → Ends (g a) d' post stop) :
    Ends (act >>= g) d post stop := by
  rw [Ends] at hact ⊢
  rw [StateT.run_bind]
  cases hrun : act.run d with
  | error e =>
    rw [hrun] at hact
    exact hact
  | ok r =>
    rw [hrun] at hact
    exact hg r.1 r.2 hact

theorem ends_get_bind {g : Draft → FuseM β} (h : Ends (g d) d post stop) :
    Ends (get >>= g) d post stop := h

theorem ends_modify_bind {update : Draft → Draft} {g : PUnit → FuseM β}
    (h : Ends (g ⟨⟩) (update d) post stop) : Ends (modify update >>= g) d post stop := h

theorem Ends.mono {mid' : α → Draft → Prop} (h : Ends act d mid stop)
    (hpost : ∀ a d', mid a d' → mid' a d') : Ends act d mid' stop := by
  rw [Ends] at h ⊢
  cases hrun : act.run d with
  | error e =>
    rw [hrun] at h
    exact h
  | ok r =>
    rw [hrun] at h
    exact hpost r.1 r.2 h

end Ends

/-! ### Tables -/

namespace ExprM

variable {e : Expr} {a b c : Nat} {l : Layout}

theorem run_node_bind {β : Type} (g : ExprNode → ExprM β) :
    (node a >>= g).run e = (g (e.node a)).run e := rfl

theorem run_binary (op : BinaryOp) (hshape : (e.node a).shape = (e.node b).shape)
    (hdtype : (e.node a).dtype = (e.node b).dtype) :
    (binary op a b).run e = .ok (e.insert ⟨.binary op a b,
      if op.isComparison then .bool else (e.node a).dtype, (e.node a).shape⟩) := by
  show StateT.run (if (e.node a).shape = (e.node b).shape then _ else _ : ExprM Nat) e = _
  rw [if_pos hshape]
  show StateT.run (if (e.node a).dtype = (e.node b).dtype then _ else _ : ExprM Nat) e = _
  rw [if_pos hdtype]
  rfl

theorem run_ternary (op : TernaryOp) (hshape : (e.node a).shape = (e.node b).shape)
    (hshape' : (e.node a).shape = (e.node c).shape)
    (hdtype : (e.node b).dtype = (e.node c).dtype) :
    (ternary op a b c).run e
      = .ok (e.insert ⟨.ternary op a b c, (e.node b).dtype, (e.node a).shape⟩) := by
  show StateT.run (if (e.node a).shape = (e.node b).shape then _ else _ : ExprM Nat) e = _
  rw [if_pos hshape]
  show StateT.run (if (e.node a).shape = (e.node c).shape then _ else _ : ExprM Nat) e = _
  rw [if_pos hshape']
  show StateT.run (if (e.node b).dtype = (e.node c).dtype then _ else _ : ExprM Nat) e = _
  rw [if_pos hdtype]
  rfl

theorem run_reduce (op : ReduceOp) {axes : List Nat}
    (haxes : ∀ axis ∈ axes, axis < (e.node a).shape.length) :
    (reduce op axes a).run e = .ok (e.insert ⟨.reduce op (Expr.sortedAxes axes) a, (e.node a).dtype,
      Expr.reducedShape (e.node a).shape (Expr.sortedAxes axes)⟩) := by
  have hnone : (Expr.sortedAxes axes).find? ((e.node a).shape.length ≤ ·) = none := by
    refine List.find?_eq_none.mpr fun axis haxis => ?_
    rw [Expr.sortedAxes, mem_insertElems] at haxis
    have hlt := haxes axis (haxis.resolve_right List.not_mem_nil)
    simpa using hlt
  rw [reduce, run_node_bind, hnone]
  rfl

theorem run_store (slot : Nat) (hshape : l.shape = (e.node a).shape) :
    (store slot l a).run e
      = .ok (e.insert ⟨.store slot l a, (e.node a).dtype, (e.node a).shape⟩) := by
  show StateT.run (if l.shape = (e.node a).shape then _ else _ : ExprM Nat) e = _
  rw [if_pos hshape]
  rfl

theorem run_sink_store (slot : Nat) (hshape : l.shape = (e.node a).shape) :
    ∃ i e', (do sink [← store slot l a] : ExprM Nat).run e = .ok (i, e') ∧ e.Grows e' := by
  rw [StateT.run_bind, run_store slot hshape]
  exact ⟨_, _, rfl, (e.adds_insert _).grows.trans (Expr.adds_insert _ _).grows⟩

end ExprM

theorem Expr.reducedShape_sortedAxes (shape : Shape) (axes : List Nat) :
    Expr.reducedShape shape (Expr.sortedAxes axes) = Expr.reducedShape shape axes := by
  refine reducedShape_congr (fun i => ?_) shape
  rw [Bool.eq_iff_iff, List.contains_iff_mem, List.contains_iff_mem, Expr.sortedAxes,
    mem_insertElems, or_iff_left List.not_mem_nil]

/-! ### Allowed errors -/

/-- The name of a variable that is known to be bound to the value. -/
def Named (known : SymVar × Int → Prop) (name : String) (value : Int) : Prop :=
  ∃ v, known (v, value) ∧ v.name = name

/-- Why making kernels may fail: variables that contradict each other, and assignments. -/
def TensorError.Allowed (known : SymVar × Int → Prop) (assigns : Prop) : TensorError → Prop
  | .conflictingBinding name first second =>
    first ≠ second ∧ Named known name first ∧ Named known name second
  | .assignAliasing _ | .storeShape .. | .storeType .. | .cyclicSchedule _ => assigns
  | _ => False

/-- A node that is to be computed and has no kernel of its own yet. -/
structure Apart (s : Session) (order realize : List Tensor) (t : Tensor) : Prop where
  mem : t ∈ order
  not_stored : s.isStored t = false
  not_mem : t ∉ realize

/-- All values of variables that kernels can meet are known. -/
structure Session.Covers [Width] (s : Session) (known : SymVar × Int → Prop) : Prop where
  layouts : ∀ t < s.nodes.size, (s.layout t).BindsIn known
  shapes : ∀ t < s.nodes.size, (Layout.ofShape (s.shape t)).BindsIn known
  reshape : ∀ t < s.nodes.size, ∀ l l' : Layout, l.BindsIn known →
    l.reshape (s.shape t) = .ok l' → l'.BindsIn known

namespace Fusion

variable [Width] {s : Session} {tree tree' : Expr} {i : Nat} {op : ExprOp} {dtype : DType}
  {shape : Shape} {stop : Stop → Prop} {l : Layout} {b : ExprM Nat} {a : Tensor}

/-- What is to be computed: nodes that are not stored, together with what they read. -/
structure ToCompute (s : Session) (order : List Tensor) : Prop where
  lt : ∀ t ∈ order, t < s.nodes.size
  isView : ∀ t ∈ order, s.isView t = false
  isStored : ∀ t ∈ order, s.isStored t = false
  closed : ∀ t ∈ order, ∀ a ∈ (s.op t).sources, s.isStored (s.base a) = false → s.base a ∈ order

/-- What is known about a kernel before it is built. -/
structure Prepared (f : Fusion) (order : List Tensor) (known : SymVar × Int → Prop) : Prop where
  coherent : f.session.Coherent
  pending : ToCompute f.session order
  root_mem : f.root ∈ order
  covers : f.session.Covers known

/-- Every node that needs a kernel of its own has one, and a buffer. -/
structure Supplied (f : Fusion) (order : List Tensor) : Prop where
  alone : ∀ t ∈ order, (∃ a, f.session.op t = .contiguous a) ∨
    (∃ target value, f.session.op t = .assign target value) → t ∈ f.realize
  covered : ∀ t ∈ order, t ∈ f.realize → ∃ id, f.storage.lookup t = some id
  distinct : ¬ f.session.HasAssign → ∀ t ≠ f.root, ∀ id,
    (f.session.storage t <|> f.storage.lookup t) = some id → id ≠ f.output

/-- The reasons for which a kernel may stop; those for failing count where it is supplied. -/
def Stops (f : Fusion) (order : List Tensor) (known : SymVar × Int → Prop) : Stop → Prop
  | .realize t => Apart f.session order f.realize t
  | .rescope t shape => Apart f.session order f.realize t ∧ shape = f.session.shape t ∧
      f.rescoped = false ∧ (f.session.op f.root).isReduce = false
  | .fail e => f.Supplied order → e.Allowed known f.session.HasAssign

/-- A visit that a kernel makes. -/
structure Enters (f : Fusion) (order : List Tensor) (known : SymVar × Int → Prop) (v : Visit) :
    Prop where
  lt : v.node < f.session.nodes.size
  isView : f.session.isView v.node = false
  le_root : v.node ≤ f.root
  mem : f.session.isStored v.node = false → v.node ∈ order
  binds : v.layout.BindsIn known
  /-- A copy or an assignment is not visited in its own kernel. -/
  inline : v.node = f.root → (∀ a, f.session.op v.node ≠ .contiguous a) ∧
    ∀ target value, f.session.op v.node ≠ .assign target value
  /-- A reduction is read as it is in its own kernel. -/
  whole : v.node = f.root → (f.session.op v.node).isReduce = true → v.inReduce = false ∧
    v.layout.isContiguous = true ∧ v.layout.shape = f.session.shape v.node
  /-- Everything below the reduction of a kernel of its own is inside it. -/
  outside : v.inReduce = false → v.node = f.root ∨ (f.session.op f.root).isReduce = false

/-- The place of a visit in a tree has the shape of the visit and the type of the node. -/
structure Placed (s : Session) (tree : Expr) (v : Visit) (i : Nat) : Prop where
  lt : i < tree.size
  shape_eq : (tree.node i).shape = freeShape v.layout.shape
  dtype_eq : (tree.node i).dtype = s.dtype v.node

theorem Placed.grows {v : Visit} (h : Placed s tree v i) (hgrows : tree.Grows tree') :
    Placed s tree' v i := by
  have hnode := hgrows.node_eq h.lt
  exact ⟨hgrows.lt_size h.lt, by rw [hnode, h.shape_eq], by rw [hnode, h.dtype_eq]⟩

theorem Placed.of_adds {v : Visit} (h : tree.Adds ⟨op, dtype, shape⟩ i tree')
    (hshape : shape = freeShape v.layout.shape) (hdtype : dtype = s.dtype v.node) :
    Placed s tree' v i :=
  ⟨h.lt_size, by rw [h.node_eq, hshape], by rw [h.node_eq, hdtype]⟩

/-- A draft all of whose entries are in order. -/
structure Good (f : Fusion) (known : SymVar × Int → Prop) (d : Draft) : Prop where
  visited : ∀ v i, (v, i) ∈ d.visited → Placed f.session d.tree v i
  vars : ∀ name value, (name, value) ∈ d.vars → Named known name value
  deps : ∀ t ∈ d.deps, t < f.root

variable {f : Fusion} {order : List Tensor} {known : SymVar × Int → Prop} {d d' : Draft} {v : Visit}

theorem good_empty : f.Good known {} :=
  ⟨nofun, nofun, nofun⟩

/-! ### Steps -/

omit [Width] in
theorem slotOf_ends (id : BufferId) :
    Ends (f.slotOf id) d (fun _ d' => d' = { d with inputs := d'.inputs }) stop := by
  rw [slotOf]
  split
  · exact ends_pure rfl
  · refine ends_get_bind ?_
    dsimp only
    split
    · exact ends_pure rfl
    · exact ends_modify_bind (ends_pure rfl)

theorem bindName_ends (hd : f.Good known d) {name : String} {value : Int}
    (hname : Named known name value) :
    Ends (bindName name value) d (fun _ d' => f.Good known d' ∧ d'.tree = d.tree)
      (f.Stops order known) := by
  refine ends_get_bind ?_
  split
  next first hfirst =>
    split
    · exact ends_pure ⟨hd, rfl⟩
    next hne => exact ends_throw fun _ => ⟨hne, hd.vars name first (mem_of_lookup hfirst), hname⟩
  next =>
    refine ⟨⟨hd.visited, fun name' value' hmem => ?_, hd.deps⟩, rfl⟩
    rcases mem_of_mem_insertKey hmem with heq | hold
    · cases heq
      exact hname
    · exact hd.vars name' value' hold

theorem unbind_ends (hd : f.Good known d) (hl : l.BindsIn known) :
    Ends (unbind l) d (fun free d' => free = l.unbind.1 ∧ f.Good known d' ∧ d'.tree = d.tree)
      (f.Stops order known) := by
  have hforM : ∀ (bindings : Bindings), (∀ b ∈ bindings, known b) → ∀ {d : Draft}, f.Good known d →
      Ends (bindings.forM fun b => bindName b.1.name b.2) d
        (fun _ d' => f.Good known d' ∧ d'.tree = d.tree) (f.Stops order known) := by
    intro bindings
    induction bindings with
    | nil => exact fun _ d hd => ends_pure ⟨hd, rfl⟩
    | cons b bindings ih =>
      intro hknown d hd
      rw [List.forall_mem_cons] at hknown
      refine ends_bind (bindName_ends hd ⟨b.1, hknown.1, rfl⟩) ?_
      rintro - d₁ ⟨hd₁, htree⟩
      exact (ih hknown.2 hd₁).mono fun _ d' h => ⟨h.1, h.2.trans htree⟩
  refine ends_bind (hforM l.unbind.2 (fun b hb => hl.of_mem_unbind hb) hd) ?_
  rintro - d₁ ⟨hd₁, htree⟩
  exact ends_pure ⟨rfl, hd₁, htree⟩

omit [Width] in
theorem building_ends {n : ExprNode} (hb : b.run d.tree = .ok (d.tree.insert n)) :
    Ends (building b) d (fun i d' => d.tree.Adds n i d'.tree ∧ d' = { d with tree := d'.tree })
      stop := by
  rw [Ends, run_building, hb]
  exact ⟨d.tree.adds_insert n, rfl⟩

/-! ### Visits -/

section Visits

variable (s : Session) (a : Tensor) (l : Layout) (inReduce : Bool)

theorem visit_node : (visit s a l inReduce).node = s.base a := by
  rw [visit, Session.base]
  cases s.op a <;> rfl

theorem visit_inReduce : (visit s a l inReduce).inReduce = inReduce := by
  rw [visit]
  split <;> rfl

theorem shape_visit : (visit s a l inReduce).layout.shape = l.shape := by
  rw [visit]
  split
  · exact Layout.shape_compose ..
  · rfl

end Visits

theorem Enters.mem_order (hv : f.Enters order known v) (hf : f.Prepared order known)
    (hloaded : f.isLoaded v.node = false) : v.node ∈ order := by
  by_cases hroot : v.node = f.root
  · exact hroot ▸ hf.root_mem
  · rw [isLoaded, bne_iff_ne.mpr hroot, Bool.true_and, Bool.or_eq_false_iff] at hloaded
    exact hv.mem hloaded.1

theorem Enters.apart (hv : f.Enters order known v) (hroot : v.node ≠ f.root)
    (hloaded : f.isLoaded v.node = false) : Apart f.session order f.realize v.node := by
  rw [isLoaded, bne_iff_ne.mpr hroot, Bool.true_and, Bool.or_eq_false_iff] at hloaded
  refine ⟨hv.mem hloaded.1, hloaded.1, fun hmem => ?_⟩
  rw [List.contains_iff_mem.mpr hmem] at hloaded
  cases hloaded.2

theorem Prepared.enters_visit (hf : f.Prepared order known) {t : Tensor} (ht : t ∈ order)
    (hle : t ≤ f.root) (ha : a ∈ (f.session.op t).sources) (hl : l.BindsIn known)
    {inReduce : Bool} (houtside : inReduce = false → (f.session.op f.root).isReduce = false) :
    f.Enters order known (visit f.session a l inReduce) ∧
      (visit f.session a l inReduce).node < t := by
  have ht' := hf.pending.lt t ht
  have ha' := hf.coherent.source_lt ht' rfl ha
  have hlt : f.session.base a < t :=
    Nat.lt_of_le_of_lt (hf.coherent.base_le ha') (hf.coherent.sources_lt t ht' a ha)
  have hroot : f.session.base a ≠ f.root := Nat.ne_of_lt (Nat.lt_of_lt_of_le hlt hle)
  have hnode := visit_node f.session a l inReduce
  refine ⟨⟨?_, ?_, ?_, ?_, ?_, ?_, ?_, ?_⟩, hnode ▸ hlt⟩
  · rw [hnode]
    exact hf.coherent.base_lt ha'
  · rw [hnode]
    exact hf.coherent.isView_base ha'
  · rw [hnode]
    exact Nat.le_of_lt (Nat.lt_of_lt_of_le hlt hle)
  · rw [hnode]
    exact hf.pending.closed t ht a ha
  · rw [visit]
    split
    next base layout hop =>
      have hbinds := hf.covers.layouts a ha'
      rw [Session.layout, hop] at hbinds
      exact hbinds.compose hl
    next => exact hl
  · exact fun h => absurd (hnode ▸ h) hroot
  · exact fun h => absurd (hnode ▸ h) hroot
  · rw [visit_inReduce]
    exact fun h => .inr (houtside h)

/-- A visit of what a node reads, below it and with its shape. -/
structure Operand (f : Fusion) (order : List Tensor) (known : SymVar × Int → Prop) (v : Visit)
    (a : Tensor) (w : Visit) : Prop where
  enters : f.Enters order known w
  lt : w.node < v.node
  placed : ∀ {tree : Expr} {i : Nat}, Placed f.session tree w i →
    (tree.node i).shape = freeShape v.layout.shape ∧ (tree.node i).dtype = f.session.dtype a

theorem operand_bind (hf : f.Prepared order known) (hv : f.Enters order known v)
    (hloaded : f.isLoaded v.node = false) {o : TensorOp} (hop : f.session.op v.node = o)
    (ha : a ∈ o.sources) (hreduce : o.isReduce = false) {g : Visit → FuseM Nat}
    {post : Nat → Draft → Prop}
    (hg : ∀ w, f.Operand order known v a w → Ends (g w) d post (f.Stops order known)) :
    Ends (f.operand v a >>= g) d post (f.Stops order known) := by
  subst hop
  have houtside : v.inReduce = false → (f.session.op f.root).isReduce = false := by
    intro hin
    rcases hv.outside hin with hroot | hroot
    · exact hroot ▸ hreduce
    · exact hroot
  obtain ⟨hw, hlt⟩ := hf.enters_visit (hv.mem_order hf hloaded) hv.le_root ha hv.binds houtside
  rw [operand]
  dsimp only
  split
  next hstop =>
    refine ends_throw_bind ?_
    rw [Bool.and_eq_true, Bool.not_eq_true'] at hstop
    exact hw.apart (Nat.ne_of_lt (Nat.lt_of_lt_of_le hlt hv.le_root)) hstop.1.1
  next =>
    refine hg _ ⟨hw, hlt, fun hplaced => ⟨?_, ?_⟩⟩
    · rw [hplaced.shape_eq, shape_visit]
    · rw [hplaced.dtype_eq, visit_node, hf.coherent.dtype_base (hf.coherent.source_lt hv.lt rfl ha)]

theorem enterReduction_ends (hv : f.Enters order known v)
    (hloaded : f.isLoaded v.node = false) (hreduce : (f.session.op v.node).isReduce = true)
    (hd : f.Good known d) (hfirst : v.node = f.root → d.reduction = none) :
    Ends (f.enterReduction v) d (fun _ d' => f.Good known d' ∧ d'.tree = d.tree ∧
      v.layout.shape = f.session.shape v.node) (f.Stops order known) := by
  have hapart : ¬ (v.node = f.root ∧ v.inReduce = false ∧ v.layout.isContiguous = true ∧
      v.layout.shape = f.session.shape v.node) → Apart f.session order f.realize v.node := by
    intro hnot
    refine hv.apart (fun hroot => hnot ⟨hroot, hv.whole hroot hreduce⟩) hloaded
  rw [enterReduction]
  dsimp only
  split
  next hin =>
    refine ends_throw_bind (hapart ?_)
    rintro ⟨-, hout, -⟩
    rw [hin] at hout
    cases hout
  next hin =>
    rw [Bool.not_eq_true] at hin
    split
    next hwhole =>
      refine ends_get_bind ?_
      split
      next t ht =>
        split
        · exact ends_pure ⟨hd, rfl, hwhole.2⟩
        · refine ends_throw (hv.apart (fun hroot => ?_) hloaded)
          rw [hfirst hroot] at ht
          cases ht
      next => exact ⟨⟨hd.visited, hd.vars, hd.deps⟩, rfl, hwhole.2⟩
    next hnot =>
      have hroot := hapart fun h => hnot h.2.2
      refine ends_throw_bind ?_
      split
      next hrescope =>
        rw [Bool.not_eq_true'] at hrescope
        refine ⟨hroot, rfl, hrescope.2, (hv.outside hin).resolve_left fun heq => ?_⟩
        exact hnot (hv.whole heq hreduce).2
      next => exact hroot

/-! ### Reading buffers -/

theorem source_spec (hf : f.Prepared order known) (hv : f.Enters order known v) {id : BufferId}
    (h : f.source v = .ok (id, l)) : l.shape = v.layout.shape ∧ l.BindsIn known := by
  rw [source] at h
  split at h
  next target value hop =>
    have htarget := hf.coherent.source_lt hv.lt hop (.head _)
    split at h
    next =>
      cases h
      exact ⟨Layout.shape_compose .., (hf.covers.layouts target htarget).compose hv.binds⟩
    next => cases h
  next =>
    split at h
    next =>
      cases h
      exact ⟨rfl, hv.binds⟩
    next => cases h

theorem exists_source (hf : f.Prepared order known) (hsupplied : f.Supplied order)
    (hv : f.Enters order known v) (hloaded : f.isLoaded v.node = true) :
    ∃ id l, f.source v = .ok (id, l) ∧ (¬ f.session.HasAssign → id ≠ f.output) := by
  rw [isLoaded, Bool.and_eq_true, bne_iff_ne] at hloaded
  have hbuffer : ∃ id, (f.session.storage v.node <|> f.storage.lookup v.node) = some id := by
    cases hstored : f.session.storage v.node with
    | some id => exact ⟨id, rfl⟩
    | none =>
      have hnot : f.session.isStored v.node = false := by rw [Session.isStored, hstored]; rfl
      rw [hnot, Bool.false_or, List.contains_iff_mem] at hloaded
      exact hsupplied.covered v.node (hv.mem hnot) hloaded.2
  obtain ⟨id, hid⟩ := hbuffer
  cases hop : f.session.op v.node with
  | assign target value =>
    have hagrees := hf.coherent.agrees v.node hv.lt
    rw [Session.Agrees, hop] at hagrees
    obtain ⟨other, hother⟩ := Option.isSome_iff_exists.mp hagrees.1
    refine ⟨other, (f.session.layout target).compose v.layout, ?_, fun hnone => ?_⟩
    · rw [source]
      simp only [hop, hother]
    · exact absurd ⟨v.node, hv.lt, target, value, hop⟩ hnone
  | _ =>
    refine ⟨id, v.layout, ?_, fun hnone => hsupplied.distinct hnone _ hloaded.1 id hid⟩
    rw [source]
    simp only [hop, hid]

/-- An action builds the subtree of a visit, or stops as it may. -/
def Lowers (f : Fusion) (order : List Tensor) (known : SymVar × Int → Prop) (v : Visit) (d : Draft)
    (act : FuseM Nat) : Prop :=
  Ends act d (fun i d' => f.Good known d' ∧ d.tree.Grows d'.tree ∧ Placed f.session d'.tree v i)
    (f.Stops order known)

section

variable (hd : f.Good known d)

include hd

theorem Good.setTree (hgrows : d.tree.Grows tree) : f.Good known { d with tree } :=
  ⟨fun v i h => (hd.visited v i h).grows hgrows, hd.vars, hd.deps⟩

theorem Good.noteLoad {t : Tensor} (ht : t ≤ f.root) (id : BufferId) :
    f.Good known (f.noteLoad t id d) := by
  rw [Fusion.noteLoad]
  split
  next hscheduled =>
    rw [isScheduled, Bool.and_eq_true, Bool.and_eq_true, bne_iff_ne] at hscheduled
    refine ⟨hd.visited, hd.vars, fun u hu => ?_⟩
    rcases mem_insertElem.mp hu with rfl | hu
    · exact Nat.lt_of_le_of_ne ht hscheduled.1.1
    · exact hd.deps u hu
  next => exact ⟨hd.visited, hd.vars, hd.deps⟩

theorem lowers_read (id : BufferId) (hl : l.BindsIn known) (hshape : l.shape = v.layout.shape) :
    f.Lowers order known v d (do
      let slot ← f.slotOf id
      let free ← unbind l
      building (.load slot (f.session.dtype v.node) free)) := by
  refine ends_bind (slotOf_ends id) fun slot d₁ hd₁ => ?_
  have hgood : f.Good known d₁ := by
    rw [hd₁]
    exact ⟨hd.visited, hd.vars, hd.deps⟩
  have htree : d₁.tree = d.tree := by rw [hd₁]
  refine ends_bind (unbind_ends hgood hl) ?_
  rintro free d₂ ⟨rfl, hgood₂, htree₂⟩
  refine (building_ends rfl).mono ?_
  rintro i d₃ ⟨hadds, hd₃⟩
  refine ⟨?_, ?_, .of_adds hadds ?_ rfl⟩
  · rw [hd₃]
    exact hgood₂.setTree hadds.grows
  · rw [← htree, ← htree₂]
    exact hadds.grows
  · rw [Layout.shape_unbind, hshape]

theorem lowers_load (hf : f.Prepared order known) (hv : f.Enters order known v)
    (hloaded : f.isLoaded v.node = true) : f.Lowers order known v d (f.load v) := by
  cases hsource : f.source v with
  | error e =>
    rw [load, hsource]
    refine ends_throw fun hsupplied => ?_
    obtain ⟨id, l, hok, -⟩ := exists_source hf hsupplied hv hloaded
    rw [hok] at hsource
    cases hsource
  | ok r =>
    obtain ⟨id, l⟩ := r
    obtain ⟨hshape, hbinds⟩ := source_spec hf hv hsource
    rw [load_eq hsource]
    refine ends_modify_bind ?_
    split
    next hsame =>
      -- Reading the output itself needs an assignment.
      refine ends_throw_bind fun hsupplied => ?_
      by_contra hnone
      obtain ⟨id', l', hok, hdistinct⟩ := exists_source hf hsupplied hv hloaded
      rw [hsource] at hok
      cases hok
      exact hdistinct hnone hsame.1
    next =>
      have hread : f.Lowers order known v _ _ :=
        lowers_read (hd.noteLoad hv.le_root id) id hbinds hshape
      rwa [Lowers, noteLoad_tree] at hread

/-! ### Subtrees -/

theorem lowers_remember {act : FuseM Nat} (hact : f.Lowers order known v d act) :
    f.Lowers order known v d (remember v act) := by
  refine ends_get_bind ?_
  split
  next i hi =>
    exact ends_pure ⟨hd, .refl _, hd.visited v i (mem_of_lookup hi)⟩
  next =>
    refine ends_bind hact ?_
    rintro i d₁ ⟨hd₁, hgrows, hplaced⟩
    refine ends_modify_bind (ends_pure ⟨⟨fun w j hmem => ?_, hd₁.vars, hd₁.deps⟩, hgrows, hplaced⟩)
    rcases List.mem_cons.mp hmem with heq | hmem
    · cases heq
      exact hplaced
    · exact hd₁.visited w j hmem

theorem building_on {d₀ : Draft} (hgrows : d₀.tree.Grows d.tree)
    (hb : b.run d.tree = .ok (d.tree.insert ⟨op, dtype, shape⟩))
    (hshape : shape = freeShape v.layout.shape) (hdtype : dtype = f.session.dtype v.node) :
    Ends (building b) d (fun i d' => f.Good known d' ∧ d₀.tree.Grows d'.tree ∧
      Placed f.session d'.tree v i) stop := by
  refine (building_ends hb).mono ?_
  rintro i d₁ ⟨hadds, hd₁⟩
  refine ⟨?_, hgrows.trans hadds.grows, .of_adds hadds hshape hdtype⟩
  rw [hd₁]
  exact hd.setTree hadds.grows

end

section Computed

/-! A node that is computed by the kernel, given that its operands can be. -/

variable {depth : Nat} (hf : f.Prepared order known) (hv : f.Enters order known v)
  (hloaded : f.isLoaded v.node = false) (hd : f.Good known d)
  (hfuse : ∀ w d, f.Enters order known w → w.node < v.node → f.Good known d →
    f.Lowers order known w d (f.fuse depth w))

include hfuse in
theorem fuse_bind {w : Visit} (hw : f.Operand order known v a w) (hd : f.Good known d)
    {g : Nat → FuseM Nat} {post : Nat → Draft → Prop}
    (hg : ∀ x d', f.Good known d' → d.tree.Grows d'.tree → (∀ tree, d'.tree.Grows tree → (tree.node
      x).shape = freeShape v.layout.shape ∧ (tree.node x).dtype = f.session.dtype a) → Ends (g x) d'
      post (f.Stops order known)) : Ends (f.fuse depth w >>= g) d post (f.Stops order known) := by
  refine ends_bind (hfuse w d hw.enters hw.lt hd) ?_
  rintro x d' ⟨hd', hgrows, hx⟩
  exact hg x d' hd' hgrows fun tree htree => hw.placed (hx.grows htree)

include hf hv hloaded hd hfuse

theorem lowers_unary {op : UnaryOp} (hop : f.session.op v.node = .unary op a) :
    f.Lowers order known v d (do
      let x ← f.fuse depth (← f.operand v a)
      building (.unary op x)) := by
  have hagrees := hf.coherent.agrees v.node hv.lt
  rw [Session.Agrees, hop] at hagrees
  refine operand_bind hf hv hloaded hop (.head _) rfl fun w hw => ?_
  refine fuse_bind hfuse hw hd fun x d₁ hd₁ hgrows hx => ?_
  obtain ⟨hshape, hdtype⟩ := hx _ (.refl _)
  exact building_on hd₁ hgrows rfl hshape (by rw [hdtype, hagrees.2])

theorem lowers_cast (hop : f.session.op v.node = .cast a) :
    f.Lowers order known v d (do
      let x ← f.fuse depth (← f.operand v a)
      building (.cast (f.session.dtype v.node) x)) := by
  refine operand_bind hf hv hloaded hop (.head _) rfl fun w hw => ?_
  refine fuse_bind hfuse hw hd fun x d₁ hd₁ hgrows hx => ?_
  exact building_on hd₁ hgrows rfl (hx _ (.refl _)).1 rfl

theorem lowers_binary {op : BinaryOp} {b : Tensor} (hop : f.session.op v.node = .binary op a b) :
    f.Lowers order known v d (do
      let a ← f.operand v a
      let b ← f.operand v b
      let x ← f.fuse depth a
      let y ← f.fuse depth b
      building (.binary op x y)) := by
  have hagrees := hf.coherent.agrees v.node hv.lt
  rw [Session.Agrees, hop] at hagrees
  refine operand_bind hf hv hloaded hop (.head _) rfl fun w hw => ?_
  refine operand_bind hf hv hloaded hop (.tail _ (.head _)) rfl fun w' hw' => ?_
  refine fuse_bind hfuse hw hd fun x d₁ hd₁ hgrows hx => ?_
  refine fuse_bind hfuse hw' hd₁ fun y d₂ hd₂ hgrows' hy => ?_
  obtain ⟨hxshape, hxtype⟩ := hx _ hgrows'
  obtain ⟨hyshape, hytype⟩ := hy _ (.refl _)
  refine building_on hd₂ (hgrows.trans hgrows')
    (ExprM.run_binary op (hxshape.trans hyshape.symm) ?_) hxshape ?_
  · rw [hxtype, hytype, hagrees.2.1]
  · rw [hxtype]
    exact hagrees.2.2.symm

theorem lowers_ternary {op : TernaryOp} {b c : Tensor}
    (hop : f.session.op v.node = .ternary op a b c) :
    f.Lowers order known v d (do
      let a ← f.operand v a
      let b ← f.operand v b
      let c ← f.operand v c
      let x ← f.fuse depth a
      let y ← f.fuse depth b
      let z ← f.fuse depth c
      building (.ternary op x y z)) := by
  have hagrees := hf.coherent.agrees v.node hv.lt
  rw [Session.Agrees, hop] at hagrees
  refine operand_bind hf hv hloaded hop (.head _) rfl fun w hw => ?_
  refine operand_bind hf hv hloaded hop (.tail _ (.head _)) rfl fun w' hw' => ?_
  refine operand_bind hf hv hloaded hop (.tail _ (.tail _ (.head _))) rfl fun w'' hw'' => ?_
  refine fuse_bind hfuse hw hd fun x d₁ hd₁ hgrows hx => ?_
  refine fuse_bind hfuse hw' hd₁ fun y d₂ hd₂ hgrows' hy => ?_
  refine fuse_bind hfuse hw'' hd₂ fun z d₃ hd₃ hgrows'' hz => ?_
  obtain ⟨hxshape, -⟩ := hx _ (hgrows'.trans hgrows'')
  obtain ⟨hyshape, hytype⟩ := hy _ hgrows''
  obtain ⟨hzshape, hztype⟩ := hz _ (.refl _)
  refine building_on hd₃ ((hgrows.trans hgrows').trans hgrows'') (ExprM.run_ternary op
    (hxshape.trans hyshape.symm) (hxshape.trans hzshape.symm) ?_) hxshape ?_
  · rw [hytype, hztype, hagrees.2.1, hagrees.2.2]
  · rw [hytype, hagrees.2.1]

theorem lowers_reduce {op : ReduceOp} {axes : List Nat}
    (hop : f.session.op v.node = .reduce op axes a)
    (hfirst : v.node = f.root → d.reduction = none) :
    f.Lowers order known v d (do
      f.enterReduction v
      let x ← f.fuse depth (visit f.session a (.ofShape (f.session.shape a)) true)
      building (.reduce op axes x)) := by
  have hagrees := hf.coherent.agrees v.node hv.lt
  rw [Session.Agrees, hop] at hagrees
  have ha : a ∈ (f.session.op v.node).sources := by rw [hop]; exact List.mem_singleton_self a
  have ha' := hf.coherent.source_lt hv.lt rfl ha
  refine ends_bind (enterReduction_ends hv hloaded (by rw [hop]; rfl) hd hfirst) ?_
  rintro - d₁ ⟨hd₁, htree, hwhole⟩
  obtain ⟨hw, hlt⟩ := hf.enters_visit (hv.mem_order hf hloaded) hv.le_root ha
    (hf.covers.shapes a ha') (fun h : true = false => by cases h)
  refine ends_bind (hfuse _ d₁ hw hlt hd₁) ?_
  rintro x d₂ ⟨hd₂, hgrows, hx⟩
  have hshape : (d₂.tree.node x).shape = freeShape (f.session.shape a) := by
    rw [hx.shape_eq, shape_visit, Layout.shape_ofShape]
  refine building_on hd₂ (htree ▸ hgrows) (ExprM.run_reduce op ?_) ?_ ?_
  · rw [hshape, freeShape, List.length_map]
    exact hagrees.2.2
  · rw [hshape, Expr.reducedShape_sortedAxes, ← freeShape_reducedShape, ← hagrees.1, hwhole]
  · rw [hx.dtype_eq, visit_node, hf.coherent.dtype_base ha', hagrees.2.1]

omit hd hfuse in
/-- Copies and assignments have kernels of their own, and data from outside is stored. -/
theorem Enters.not_alone (hsupplied : f.Supplied order) :
    f.session.op v.node ≠ .buffer ∧ (∀ base l, f.session.op v.node ≠ .view base l) ∧
      (∀ a, f.session.op v.node ≠ .contiguous a) ∧
      ∀ target value, f.session.op v.node ≠ .assign target value := by
  have hmem := hv.mem_order hf hloaded
  have halone : ((∃ a, f.session.op v.node = .contiguous a) ∨
      ∃ target value, f.session.op v.node = .assign target value) → v.node = f.root := by
    intro hop
    by_contra hroot
    exact (hv.apart hroot hloaded).not_mem (hsupplied.alone v.node hmem hop)
  refine ⟨fun hop => ?_, fun base l hop => ?_, fun a hop => ?_, fun target value hop => ?_⟩
  · have hagrees := hf.coherent.agrees v.node hv.lt
    rw [Session.Agrees, hop] at hagrees
    have hstored := hf.pending.isStored v.node hmem
    rw [hagrees] at hstored
    cases hstored
  · have hview := hv.isView
    rw [Session.isView, hop] at hview
    cases hview
  · exact (hv.inline (halone (.inl ⟨a, hop⟩))).1 a hop
  · exact (hv.inline (halone (.inr ⟨target, value, hop⟩))).2 target value hop

end Computed

theorem lowers_fuse (hf : f.Prepared order known) {depth : Nat} (hv : f.Enters order known v)
    (hdepth : v.node < depth) (hd : f.Good known d) (hfirst : v.node = f.root → d.reduction = none) :
    f.Lowers order known v d (f.fuse depth v) := by
  induction depth generalizing v d with
  | zero => exact absurd hdepth (Nat.not_lt_zero _)
  | succ depth ih =>
    -- An operand is below the node, so it is not the root.
    have hfuse : ∀ w d, f.Enters order known w → w.node < v.node → f.Good known d →
        f.Lowers order known w d (f.fuse depth w) := by
      intro w d hw hlt hd
      refine ih hw (Nat.lt_of_lt_of_le hlt (Nat.le_of_lt_succ hdepth)) hd fun hroot => ?_
      exact absurd hroot (Nat.ne_of_lt (Nat.lt_of_lt_of_le hlt hv.le_root))
    rw [fuse]
    refine lowers_remember hd ?_
    dsimp only
    split
    next value hop =>
      refine ends_bind (unbind_ends hd hv.binds) ?_
      rintro free d₁ ⟨rfl, hd₁, htree⟩
      exact building_on hd₁ (htree ▸ .refl _) rfl rfl rfl
    next hconst =>
      split
      next hloaded => exact lowers_load hd hf hv hloaded
      next hloaded =>
        rw [Bool.not_eq_true] at hloaded
        split
        next op a hop => exact lowers_unary hf hv hloaded hd hfuse hop
        next a hop => exact lowers_cast hf hv hloaded hd hfuse hop
        next op a b hop => exact lowers_binary hf hv hloaded hd hfuse hop
        next op a b c hop => exact lowers_ternary hf hv hloaded hd hfuse hop
        next op axes a hop => exact lowers_reduce hf hv hloaded hd hfuse hop hfirst
        next hunary hcast hbinary hternary hreduce =>
          refine ends_throw fun hsupplied => ?_
          obtain ⟨hbuffer, hview, hcontiguous, hassign⟩ := hv.not_alone hf hloaded hsupplied
          exfalso
          cases hop : f.session.op v.node with
          | buffer => exact hbuffer hop
          | const value => exact hconst value hop
          | view base l => exact hview base l hop
          | unary op a => exact hunary op a hop
          | binary op a b => exact hbinary op a b hop
          | ternary op a b c => exact hternary op a b c hop
          | cast a => exact hcast a hop
          | reduce op axes a => exact hreduce op axes a hop
          | contiguous a => exact hcontiguous a hop
          | assign target value => exact hassign target value hop

theorem sink_ends (hf : f.Prepared order known) (hstore : f.store.BindsIn known) {value : Tensor}
    (hshape : f.store.shape = shape) {top : Layout}
    (htop : (Layout.ofShape (f.session.shape value)).reshape shape = .ok top)
    (hv : f.Enters order known (visit f.session value top false)) :
    Ends (f.sink value shape) {} (fun _ d' => f.Good known d') (f.Stops order known) := by
  rw [sink, htop]
  dsimp only
  refine ends_bind (lowers_fuse hf hv (Nat.lt_succ_of_lt hv.lt) good_empty fun _ => rfl) ?_
  rintro x d₁ ⟨hd₁, -, hx⟩
  refine ends_bind (unbind_ends hd₁ hstore) ?_
  rintro free d₂ ⟨rfl, hd₂, htree⟩
  have hstored : f.store.unbind.1.shape = (d₂.tree.node x).shape := by
    rw [Layout.shape_unbind, hshape, htree, hx.shape_eq, shape_visit, Layout.shape_reshape htop]
  obtain ⟨i, tree, hrun, hgrows⟩ := ExprM.run_sink_store 0 hstored
  have hbuilding : (building do ExprM.sink [← ExprM.store 0 f.store.unbind.1 x]).run d₂
      = .ok (i, { d₂ with tree }) := by
    rw [run_building, hrun]
  rw [Ends, discard, map_const, Function.comp, StateT.run_map, hbuilding]
  exact hd₂.setTree hgrows

end Fusion

end LazyTensor

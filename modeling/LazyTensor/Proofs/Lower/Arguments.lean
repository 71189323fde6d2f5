import LazyTensor.Proofs.Graph.Construction
import LazyTensor.Proofs.Lower.Address
import LazyTensor.Proofs.Schedule.Interface
import LazyTensor.Proofs.Simplify.Confined

/-!
# Kernels write to the arguments that are marked as written

Lowering adds nodes by calls of constructors and makes a store to the argument in the slot that the
tree stores to. A constructor that checks the type of an operand fails on a node that is not there, so
of most nodes it need not be known that they are. So a compiled kernel changes no buffer but those
bound to arguments that are written.
-/

namespace LazyTensor

open LazyTensor.Graph

variable {written : Nat → Prop}

theorem Graph.confined_empty : Confined written {} :=
  ⟨sound_empty, nofun⟩

/-! ### Work on nodes that are there -/

namespace Build

variable {α β : Type} {x : Build α} {f : α → Build β} {R : α → List Ref} {S : β → List Ref}
  {known : List Ref} {xs : List α}

/-- On a graph with confined stores that has the known nodes, the work leaves such a graph, which then
has the nodes of the result. -/
def Makes (written : Nat → Prop) (known : List Ref) (x : Build α) (R : α → List Ref) : Prop :=
  ∀ g : Graph, g.Confined written → (∀ r ∈ known, r < g.size) →
    x.Ensures g fun a g' => g'.Confined written ∧ ∀ r ∈ R a, r < g'.size

theorem makes_pure {a : α} (h : R a ⊆ known) : Makes written known (pure a) R :=
  fun _ hg hknown => ensures_pure hg.sound.wellFormed ⟨hg, fun r hr => hknown r (h hr)⟩

theorem Makes.bind (hx : Makes written known x R)
    (hf : ∀ a, Makes written (R a ++ known) (f a) S) : Makes written known (x >>= f) S := by
  intro g hg hknown
  refine (hx g hg hknown).bind fun a g' hgrows h => hf a g' h.1 fun r hr => ?_
  rcases List.mem_append.mp hr with hr | hr
  · exact h.2 r hr
  · exact Nat.lt_of_lt_of_le (hknown r hr) hgrows.size_le

theorem makes_return (a : α) : Makes written known (pure a) fun _ => [] :=
  makes_pure (List.nil_subset known)

theorem Makes.forget (hx : Makes written known x R) : Makes written known x fun _ => [] :=
  fun g hg hknown => (hx g hg hknown).mono fun _ _ _ h => ⟨h.1, nofun⟩

theorem Makes.map {h : α → β} (hx : Makes written known x R) :
    Makes written known (h <$> x) fun _ => [] := by
  rw [← bind_pure_comp]
  exact hx.bind fun a => makes_return (h a)

theorem makes_ite {c : Prop} [Decidable c] {y : Build α} (hx : c → Makes written known x R)
    (hy : ¬c → Makes written known y R) : Makes written known (if c then x else y) R := by
  by_cases hc : c
  · rw [if_pos hc]
    exact hx hc
  · rw [if_neg hc]
    exact hy hc

theorem makes_foldlM {σ : Type} {step : σ → α → Build σ} (s : σ)
    (hstep : ∀ s x, Makes written known (step s x) fun _ => []) :
    Makes written known (xs.foldlM step s) fun _ => [] := by
  induction xs generalizing s with
  | nil => exact makes_return s
  | cons x xs ih =>
    rw [List.foldlM_cons]
    exact (hstep s x).bind ih

theorem makes_mapM {f : α → Build Ref}
    (hf : ∀ x ∈ xs, ∀ known', known ⊆ known' → Makes written known' (f x) fun r => [r]) :
    Makes written known (xs.mapM f) id := by
  induction xs generalizing known with
  | nil => exact makes_pure (List.nil_subset known)
  | cons x xs ih =>
    rw [List.mapM_cons]
    refine (hf x List.mem_cons_self known (List.Subset.refl known)).bind fun r => ?_
    have hrest : ∀ y ∈ xs, ∀ known', [r] ++ known ⊆ known' →
        Makes written known' (f y) fun r => [r] :=
      fun y hy known' hknown => hf y (List.mem_cons_of_mem x hy) known'
        fun a ha => hknown (List.mem_append_right [r] ha)
    refine (ih hrest).bind fun rs => makes_pure ?_
    simp

/-- A call of a constructor, which stores to a given argument or to none. -/
theorem ensures_construction {g : Graph} (c : Construction) (hg : g.Confined written)
    (hoperands : ∀ r ∈ c.unchecked, r < g.size)
    (htarget : ∀ r, c.target? = some r → g.IsArgument written r) :
    c.build.Ensures g fun r g' => g'.Confined written ∧ r < g'.size := by
  have hwf := hg.sound.wellFormed
  rw [Ensures]
  rcases c.adds g with ⟨hsame, hfound⟩ | ⟨n, hrun, hn, hsources, -⟩
  · rw [hsame]
    refine ⟨.refl hwf, fun r hr => ⟨hg, ?_⟩⟩
    obtain ⟨a, ha, rfl⟩ := hfound r hr
    exact hwf.resolve_lt (hoperands a ha)
  · obtain ⟨hgrows, hholds⟩ := insert_spec hwf n
    rw [hrun]
    refine ⟨hgrows, fun r hr => ⟨hg.insert (fun s hs => ?_) fun x hx => htarget x (hn ▸ hx), ?_⟩⟩
    · exact (hsources s hs).2.elim (hoperands s) (lt_size_of_dtype hwf)
    · exact Except.ok.inj hr ▸ hholds.lt_size

theorem makes_construction (c : Construction) (hoperands : c.unchecked ⊆ known)
    (htarget : c.target? = none) : Makes written known c.build fun r => [r] := by
  intro g hg hknown
  refine (ensures_construction c hg (fun r hr => hknown r (hoperands hr)) ?_).mono ?_
  · exact fun r hr => by rw [htarget] at hr; cases hr
  · exact fun r g' _ h => ⟨h.1, List.forall_mem_singleton.mpr h.2⟩

theorem makes_const (v : Value) (t : DType) :
    Makes written known (const v t : GraphM Ref) fun r => [r] :=
  makes_construction (.const v t) (List.nil_subset known) rfl

theorem makes_binary (op : BinaryOp) (a b : Ref) :
    Makes written known (binary op a b) fun r => [r] :=
  makes_construction (.binary op a b) (List.nil_subset known) rfl

end Build

open Build

/-! ### Addresses -/

namespace Address

variable {known : List Ref}

theorem makes_index (n : Int) : Makes written known (index n) fun r => [r] :=
  makes_const (.int n) .index

theorem makes_addTo (sum : Option Ref) (r : Ref) :
    Makes written known (addTo sum r) fun _ => [] := by
  cases sum with
  | none => exact makes_return (some r)
  | some s => exact (makes_binary .add s r).map

theorem makes_mulTo (product : Option Ref) (r : Ref) :
    Makes written known (mulTo product r) fun _ => [] := by
  cases product with
  | none => exact makes_return (some r)
  | some p => exact (makes_binary .mul p r).map

theorem makes_both (a b : Option Ref) : Makes written known (both a b) fun _ => [] := by
  cases a with
  | none => exact makes_return b
  | some r =>
    cases b with
    | none => exact makes_return (some r)
    | some s => exact (makes_binary .and r s).map

theorem makes_term (t : Term) : Makes written known (term t) fun _ => [] := by
  refine (makes_foldlM none fun p v => ?_).bind fun product => ?_
  · exact (makes_construction (.symbol v) (List.nil_subset known) rfl).bind fun r => makes_mulTo p r
  · cases product with
    | none => exact (makes_index t.2).forget
    | some p =>
      refine makes_ite (fun _ => makes_return p) fun _ => (makes_index t.2).bind fun r => ?_
      exact (makes_binary .mul p r).forget

theorem makes_symInt (x : SymInt) : Makes written known (symInt x) fun _ => [] := by
  rw [symInt]
  cases x.asConst? with
  | some c => exact (makes_index c).forget
  | none =>
    refine (makes_foldlM none fun sum t => (makes_term t).bind (makes_addTo sum)).bind fun sum => ?_
    cases sum with
    | none => exact (makes_index 0).forget
    | some s => exact makes_return s

theorem makes_scaled (coord : Ref) (stride : SymInt) :
    Makes written known (scaled coord stride) fun _ => [] :=
  makes_ite (fun _ => makes_return coord) fun _ =>
    (makes_symInt stride).bind fun r => (makes_binary .mul coord r).forget

theorem makes_offsets (terms : List (SymInt × SymInt × Ref)) (sum : Option Ref) :
    Makes written known (offsets terms sum) fun _ => [] := by
  induction terms generalizing sum with
  | nil => exact makes_return sum
  | cons x rest ih =>
    refine makes_ite (fun _ => ih sum) fun _ => ?_
    exact (makes_scaled x.2.2 x.2.1).bind fun r => (makes_addTo sum r).bind ih

theorem makes_quotient (flat : Ref) (stride : SymInt) :
    Makes written known (quotient flat stride) fun _ => [] :=
  makes_ite (fun _ => makes_return flat) fun _ =>
    (makes_symInt stride).bind fun r => (makes_binary .idiv flat r).forget

theorem makes_remainder (q : Ref) (dim : SymInt) (outer : Bool) :
    Makes written known (remainder q dim outer) fun _ => [] :=
  makes_ite (fun _ => (makes_symInt dim).bind fun r => (makes_binary .mod q r).forget) fun _ =>
    makes_return q

theorem makes_coordinates (flat : Ref) (dims : List (SymInt × SymInt)) (outer : Bool) :
    Makes written known (coordinates flat dims outer) fun _ => [] := by
  induction dims generalizing known outer with
  | nil => exact makes_return []
  | cons x rest ih =>
    obtain ⟨dim, stride⟩ := x
    rw [coordinates_cons]
    refine makes_ite (fun _ => ?_) fun _ => ?_
    · exact (makes_index 0).bind fun c => (ih outer).bind fun cs => makes_return (c :: cs)
    · refine (makes_quotient flat stride).bind fun q => (makes_remainder q dim outer).bind fun c => ?_
      exact (ih true).bind fun cs => makes_return (c :: cs)

theorem makes_require (valid : Option Ref) (holds : Bool) {test : Build Ref}
    (htest : Makes written known test fun _ => []) :
    Makes written known (require valid holds test) fun _ => [] :=
  makes_ite (fun _ => makes_return valid) fun _ => htest.bind fun r => makes_both valid (some r)

theorem makes_placed (sum : Option Ref) (offset : SymInt) :
    Makes written known (placed sum offset) fun _ => [] := by
  cases sum with
  | none => exact makes_symInt offset
  | some s =>
    refine makes_ite (fun _ => makes_return s) fun _ => (makes_symInt offset).bind fun r => ?_
    exact (makes_binary .add s r).forget

variable [Width]

theorem makes_inside (terms : List ((SymInt × SymInt) × SymInt × Ref)) (valid : Option Ref) :
    Makes written known (inside terms valid) fun _ => [] := by
  induction terms generalizing valid with
  | nil => exact makes_return valid
  | cons x rest ih =>
    obtain ⟨⟨start, stop⟩, dim, coord⟩ := x
    rw [inside_cons]
    refine (makes_require _ _ ?_).bind fun v => (makes_require _ _ ?_).bind ih
    · exact (makes_symInt (start - 1)).bind fun r => (makes_binary .lt r coord).forget
    · exact (makes_symInt stop).bind fun r => (makes_binary .lt coord r).forget

theorem makes_masked (v : View) (coords : List Ref) :
    Makes written known (masked v coords) fun _ => [] := by
  rw [masked]
  cases v.mask with
  | none => exact makes_return none
  | some mask => exact makes_inside _ none

theorem makes_view (v : View) (coords : List Ref) :
    Makes written known (view v coords) fun _ => [] := by
  cases hinvalid : v.isInvalid with
  | true =>
    rw [view, hinvalid, if_pos rfl]
    exact (makes_const (.bool false) .bool).bind fun never => (makes_index 0).bind fun first =>
      makes_return (first, some never)
  | false =>
    rw [view_eq hinvalid]
    refine (makes_offsets _ none).bind fun sum => (makes_placed sum v.offset).bind fun position => ?_
    exact (makes_masked v coords).bind fun valid => makes_return (position, valid)

theorem makes_through (views : List View) (p : Ref × Option Ref) :
    Makes written known (through views p) fun _ => [] := by
  induction views generalizing p with
  | nil => exact makes_return p
  | cons v rest ih =>
    refine (makes_coordinates p.1 _ false).bind fun cs => (makes_view v cs).bind fun q => ?_
    exact (makes_both p.2 q.2).bind fun valid => ih (q.1, valid)

theorem makes_layout (l : Layout) (coords : List Ref) :
    Makes written known (layout l coords) fun _ => [] :=
  (makes_view l.top coords).bind (makes_through l.below)

end Address

/-! ### Loops and arguments -/

namespace Lower

variable {known : List Ref} {g g' : Graph} {f : Frame} {α : Type} {origin : Ref} {a : α}
  {b : Build Ref} {place slot : Nat} {u : Unit}

def Frame.refs (f : Frame) : List Ref :=
  f.full ++ f.output ++ f.reduceLoops ++ f.buffers.map Prod.snd

theorem makes_outputCoord (dims : GlobalDims) (axis : Nat) (dim : SymInt)
    (horigin : origin ∈ known) :
    Makes written known (outputCoord dims origin axis dim) fun r => [r] := by
  refine makes_ite (fun _ => makes_pure (by simpa using horigin)) fun _ => ?_
  refine (Address.makes_symInt dim).bind fun size => ?_
  cases dims with
  | loops => exact makes_construction (.loop origin size ⟨.global, axis⟩) (List.nil_subset known) rfl
  | launch => exact makes_construction (.special axis size) (List.nil_subset known) rfl

theorem makes_outputCoords (dims : GlobalDims) (shape : Shape) (horigin : origin ∈ known) :
    Makes written known (outputCoords dims origin shape) id :=
  makes_mapM fun x _ _ hknown => makes_outputCoord dims x.2 x.1 (hknown horigin)

def Frame.Stands (f : Frame) (g : Graph) : Prop :=
  ∀ x ∈ f.buffers, g.op x.2 = .defineGlobal x.1

theorem Frame.Stands.grows (h : f.Stands g) (hgrows : g.Grows g') (hg : g.WellFormed) :
    f.Stands g' := by
  intro x hx
  have hop := h x hx
  rw [hgrows.op_eq hg (lt_size_of_op hg (by simp [hop])), hop]

theorem ensures_global (slot : Nat) (base : DType) (hg : g.Confined written) :
    Ensures (Build.global slot base : GraphM Ref) g fun r g' =>
      g'.Confined written ∧ g'.op r = .defineGlobal slot := by
  obtain ⟨hgrows, hholds⟩ := insert_spec hg.sound.wellFormed
    ⟨.defineGlobal slot, base.toPointer none .global⟩
  refine ensures_lift hgrows ⟨hg.insert nofun nofun, ?_⟩
  exact congrArg Instr.op hholds.get_eq

theorem ensures_buffers (args : List GlobalArg) (hg : g.Confined written) :
    Ensures (args.mapM fun a => do return (a.slot, ← (Build.global a.slot a.dtype : GraphM Ref))) g
      fun bs g' => g'.Confined written ∧ bs.map Prod.fst = args.map GlobalArg.slot ∧
        ∀ x ∈ bs, g'.op x.2 = .defineGlobal x.1 := by
  induction args generalizing g with
  | nil => exact ensures_pure hg.sound.wellFormed ⟨hg, rfl, nofun⟩
  | cons a args ih =>
    rw [List.mapM_cons, bind_assoc]
    refine (ensures_global a.slot a.dtype hg).bind fun r g₁ hgrows h₁ => ?_
    rw [pure_bind]
    refine (ih h₁.1).bind fun bs g₂ hgrows h₂ => ensures_pure hgrows.wellFormed ?_
    have hwf := h₁.1.sound.wellFormed
    refine ⟨h₂.1, congrArg (a.slot :: ·) h₂.2.1, List.forall_mem_cons.mpr ⟨?_, h₂.2.2⟩⟩
    rw [hgrows.op_eq hwf (lt_size_of_op hwf (by simp [h₁.2])), h₁.2]

theorem ensures_foldlM {σ : Type} {step : σ → α → Build σ} {I : σ → Graph → Prop} {xs : List α}
    {s : σ} (hg : g.WellFormed) (hs : I s g)
    (hstep : ∀ s x g', g.Grows g' → I s g' → (step s x).Ensures g' I) :
    (xs.foldlM step s).Ensures g I := by
  induction xs generalizing g s with
  | nil => exact ensures_pure hg hs
  | cons x xs ih =>
    rw [List.foldlM_cons]
    refine (hstep s x g (.refl hg) hs).bind fun s' g' hgrows hs' => ?_
    exact ih hgrows.wellFormed hs' fun s y g'' hgrows' => hstep s y g'' (hgrows.trans hgrows')

/-- What lowering needs of a graph: the frame, and a first node. -/
structure Frame.Ready (written : Nat → Prop) (f : Frame) (g : Graph) : Prop where
  confined : g.Confined written
  refs_lt : ∀ r ∈ 0 :: f.refs, r < g.size
  stands : f.Stands g

theorem Frame.Ready.grows (h : f.Ready written g) (hgrows : g.Grows g') (hg' : g'.Confined written) :
    f.Ready written g' where
  confined := hg'
  refs_lt r hr := Nat.lt_of_lt_of_le (h.refs_lt r hr) hgrows.size_le
  stands := h.stands.grows hgrows h.confined.sound.wellFormed

theorem makes_reduceLoop (origin : Ref) (dim : SymInt) (axis : Nat) :
    Makes written known (do Build.loop origin (← Address.symInt dim) ⟨.reduce, axis⟩) fun r => [r] :=
  (Address.makes_symInt dim).bind fun size =>
    makes_construction (.loop origin size ⟨.reduce, axis⟩) (List.nil_subset known) rfl

theorem ensures_addReduceLoop (full : Shape) (axis : Nat) (h : f.Ready written g) :
    (addReduceLoop origin full f axis).Ensures g fun f' g' =>
      f'.Ready written g' ∧ f'.buffers = f.buffers := by
  rw [addReduceLoop]
  split
  · exact ensures_pure h.confined.sound.wellFormed ⟨h, rfl⟩
  have hloop : Makes written [] _ _ := makes_reduceLoop origin (full.getD axis 1) axis
  rw [← bind_assoc]
  refine (hloop g h.confined nofun).bind fun range g' hgrows ⟨hg', hrange⟩ => ensures_pure hgrows.wellFormed ⟨?_, rfl⟩
  have h' := h.grows hgrows hg'
  refine ⟨hg', fun r hr => ?_, h'.stands⟩
  -- the nodes of the new frame are those of the old one, and the loop
  have hold : r = range ∨ r ∈ 0 :: f.refs := by
    have hset : r ∈ f.full.set axis range → r ∈ f.full ∨ r = range := List.mem_or_eq_of_mem_set
    simp only [Frame.refs, List.mem_cons, List.mem_append] at hr hset ⊢
    tauto
  rcases hold with rfl | hr
  · exact hrange r (List.mem_singleton_self r)
  · exact h'.refs_lt r hr

theorem ensures_frame (dims : GlobalDims) (args : List GlobalArg) (output full : Shape)
    (axes : List Nat) (hg : g.Confined written) :
    (frame dims args output full axes).Ensures g fun f g' =>
      f.Ready written g' ∧ f.buffers.map Prod.fst = args.map GlobalArg.slot := by
  refine (ensures_buffers args hg).bind fun bs g₁ hgrows₁ ⟨hg₁, hslots, hbs⟩ => ?_
  have hindex : Makes written [] (Address.index 0) fun r => [r] := Address.makes_index 0
  refine (hindex g₁ hg₁ nofun).bind fun origin g₂ hgrows₂ ⟨hg₂, h₂⟩ => ?_
  have horigin := h₂ origin (List.mem_singleton_self origin)
  refine (makes_outputCoords dims output (List.mem_singleton_self origin) g₂ hg₂ h₂).bind ?_
  intro coords g₃ hgrows₃ ⟨hg₃, hcoords⟩
  have hbs' : ∀ x ∈ bs, g₃.op x.2 = .defineGlobal x.1 :=
    Frame.Stands.grows (f := ⟨[], [], [], bs⟩) hbs (hgrows₂.trans hgrows₃) hg₁.sound.wellFormed
  have hstart : Frame.Ready written ⟨coords, coords, [], bs⟩ g₃ := by
    refine ⟨hg₃, fun r hr => ?_, hbs'⟩
    simp only [Frame.refs, List.mem_cons, List.mem_append, List.mem_map] at hr
    rcases hr with rfl | ((hr | hr) | hr) | ⟨x, hx, rfl⟩
    · exact Nat.lt_of_le_of_lt (Nat.zero_le origin) (Nat.lt_of_lt_of_le horigin hgrows₃.size_le)
    · exact hcoords r hr
    · exact hcoords r hr
    · cases hr
    · exact lt_size_of_op hg₃.sound.wellFormed (by simp [hbs' x hx])
  refine (ensures_foldlM (I := fun f g' => f.Ready written g' ∧ f.buffers = bs)
    hg₃.sound.wellFormed ⟨hstart, rfl⟩ ?_).mono fun f g' _ h => ⟨h.1, h.2 ▸ hslots⟩
  intro f axis g' _ ⟨hf, hbuffers⟩
  exact (ensures_addReduceLoop full axis hf).mono fun f' g'' _ h => ⟨h.1, h.2.trans hbuffers⟩

/-! ### Nodes of a tree -/

variable {s s' : State} {e : Expr}

/-- The nodes that a node of the tree is made from. -/
def State.refs (f : Frame) (s : State) : List Ref := 0 :: f.refs ++ s.done.map Prod.snd

/-- A state of lowering: the graph has the frame and the nodes of what is lowered. -/
structure State.Ready (written : Nat → Prop) (f : Frame) (s : State) : Prop where
  frame : f.Ready written s.graph
  done_lt : ∀ x ∈ s.done, x.2 < s.graph.size

theorem State.Ready.refs_lt (h : s.Ready written f) : ∀ r ∈ s.refs f, r < s.graph.size := by
  intro r hr
  rcases List.mem_append.mp hr with hr | hr
  · exact h.frame.refs_lt r hr
  · obtain ⟨x, hx, rfl⟩ := List.mem_map.mp hr
    exact h.done_lt x hx

theorem State.lookup_mem_refs (f : Frame) (s : State) (x : Site) :
    (s.done.lookup x).getD 0 ∈ s.refs f := by
  cases hx : s.done.lookup x with
  | none => exact List.mem_cons_self
  | some r => exact List.mem_append_right _ (List.mem_map_of_mem (mem_of_lookup hx))

/-- Lowering that leaves the state ready, with its result in the graph. -/
def Yields (written : Nat → Prop) (f : Frame) (x : LowerM Ref) (s : State) : Prop :=
  ∀ r s', x.run.run s = (.ok r, s') → s'.Ready written f ∧ r < s'.graph.size

theorem run_get_bind (k : State → LowerM α) (s : State) :
    (get >>= k).run.run s = (k s).run.run s := rfl

theorem building_eq_ok {b : Build α} (h : (building b).run.run s = (.ok a, s')) :
    (b.run.run s.graph).1 = .ok a ∧ s' = { s with graph := (b.run.run s.graph).2 } := by
  rw [building, run_get_bind] at h
  rcases hb : b.run.run s.graph with ⟨e | a', g⟩
  all_goals
    change b.run s.graph = _ at hb
    rw [hb] at h
    cases h
  exact ⟨rfl, rfl⟩

theorem yields_building (hs : s.Ready written f)
    (hb : b.Ensures s.graph fun r g' => g'.Confined written ∧ r < g'.size) :
    Yields written f (building b) s := by
  intro r s' hrun
  obtain ⟨hr, rfl⟩ := building_eq_ok hrun
  obtain ⟨hg', hlt⟩ := hb.2 r hr
  refine ⟨⟨hs.frame.grows hb.1 hg', fun x hx => ?_⟩, hlt⟩
  exact Nat.lt_of_lt_of_le (hs.done_lt x hx) hb.1.size_le

theorem yields_makes (hs : s.Ready written f) (hb : Makes written (s.refs f) b fun r => [r]) :
    Yields written f (building b) s :=
  yields_building hs ((hb s.graph hs.frame.confined hs.refs_lt).mono fun r _ _ h =>
    ⟨h.1, h.2 r (List.mem_singleton_self r)⟩)

theorem yields_refOf_bind {reducing : Bool} {k : Ref → LowerM Ref}
    (h : Yields written f (k ((s.done.lookup ⟨place, reducing⟩).getD 0)) s) :
    Yields written f (refOf place reducing >>= k) s := h

theorem yields_throw {err : CompileError} : Yields written f (throw err) s :=
  nofun

section Accumulate

variable {value : Ref}

theorem makes_accumulate (slot : Nat) (op : ReduceOp) (t : DType) (hloops : f.reduceLoops ⊆ known) :
    Makes written known (accumulate f slot op t value) fun r => [r] := by
  refine (makes_construction (.accumulator slot (op.identity t.base) t f.reduceLoops) hloops rfl).bind ?_
  intro acc
  refine (makes_binary op.combine acc value).bind fun r => ?_
  refine makes_construction (.phi acc r f.reduceLoops) (List.cons_subset.mpr ⟨by simp, ?_⟩) rfl
  exact List.cons_subset.mpr ⟨by simp, fun x hx => by simp [hloops hx]⟩

theorem Frame.reduceLoops_subset (f : Frame) (s : State) : f.reduceLoops ⊆ s.refs f := by
  intro r hr
  simp [State.refs, refs, hr]

theorem yields_reduction (op : ReduceOp) (t : DType) (hs : s.Ready written f)
    (hvalue : value ∈ s.refs f) : Yields written f (reduction f op t value) s := by
  rw [reduction]
  split
  · rintro r s' hrun
    cases hrun
    exact ⟨hs, hs.refs_lt value hvalue⟩
  · intro r s' hrun
    have hrun' : (building (accumulate f s.accumulators op t value)).run.run
        { s with accumulators := s.accumulators + 1 } = (.ok r, s') := hrun
    have hs' : State.Ready written f { s with accumulators := s.accumulators + 1 } :=
      ⟨hs.frame, hs.done_lt⟩
    exact yields_makes hs'
      (makes_accumulate s.accumulators op t (f.reduceLoops_subset s)) r s' hrun'

end Accumulate

theorem Frame.Stands.op_buffer (h : f.Stands g) (hslot : slot ∈ f.buffers.map Prod.fst) :
    g.op (f.buffer slot) = .defineGlobal slot := by
  rw [buffer]
  cases hlookup : f.buffers.lookup slot with
  | some r => exact h (slot, r) (mem_of_lookup hlookup)
  | none =>
    obtain ⟨x, hx, rfl⟩ := List.mem_map.mp hslot
    exact absurd rfl (bne_iff_ne.mp (List.lookup_eq_none_iff.mp hlookup x hx))

/-- The slots of the arguments that are written. -/
def IsWritten (e : Expr) (slot : Nat) : Prop := ∃ a ∈ collectArgs e, a.slot = slot ∧ a.written = true

theorem isWritten_of_store {value : Nat} {l : Layout}
    (h : (e.node place).op = .store slot l value) : IsWritten e slot := by
  have hlt : place < e.size := Expr.lt_size_of_op h (by simp)
  have hmem : e.node place ∈ e.nodes.toList :=
    Array.mem_toList_iff.mpr (Array.mem_iff_getElem?.mpr ⟨place, Expr.getElem?_eq_some_node hlt⟩)
  have hargs := argsOf_collectArgs e
  have hslot : (e.node place).op.slot? = some slot := by rw [h]; rfl
  obtain ⟨a, ha, rfl⟩ := List.mem_map.mp ((hargs.slots slot).mpr ⟨_, hmem, hslot⟩)
  exact ⟨a, ha, rfl, (hargs.written a ha).mpr ⟨_, hmem, by rw [h]; rfl, hslot⟩⟩

/-- The frame has an argument for every slot of the tree. -/
def Frame.Covers (f : Frame) (e : Expr) : Prop :=
  f.buffers.map Prod.fst = (collectArgs e).map GlobalArg.slot

theorem Frame.Covers.mem (h : f.Covers e) (hslot : IsWritten e slot) :
    slot ∈ f.buffers.map Prod.fst := by
  obtain ⟨a, ha, rfl, -⟩ := hslot
  exact h ▸ List.mem_map_of_mem ha

variable [Width]

theorem makes_load (reducing : Bool) (t : DType) (l : Layout) :
    Makes written known (load f reducing slot t l) fun r => [r] := by
  refine (Address.makes_layout l _).bind fun p => ?_
  obtain ⟨index, valid⟩ := p
  cases valid with
  | none => exact makes_construction (.load (f.buffer slot) index none) (List.nil_subset known) rfl
  | some v =>
    refine (makes_const (.zero t.base) t).bind fun z => ?_
    exact makes_construction (.load (f.buffer slot) index (some (v, z)))
      (by simp [Construction.unchecked]) rfl

theorem makes_constant (reducing : Bool) (v : Value) (t : DType) (l : Layout) :
    Makes written known (const f reducing v t l) fun r => [r] := by
  refine (makes_const v t).bind fun c => (Address.makes_layout l _).bind fun p => ?_
  obtain ⟨index, valid⟩ := p
  cases valid with
  | none => exact makes_pure (by simp)
  | some valid =>
    refine (makes_const (.zero t.base) t).bind fun z => ?_
    exact makes_construction (.ternary .select valid c z) (by simp [Construction.unchecked]) rfl

theorem ensures_store (reducing : Bool) (l : Layout) {value : Ref} (hf : f.Ready written g)
    (hslot : written slot) (hmem : slot ∈ f.buffers.map Prod.fst) (hvalue : value < g.size) :
    (store f reducing slot l value).Ensures g fun r g' => g'.Confined written ∧ r < g'.size := by
  have haddress : Makes written [] _ _ := Address.makes_layout l (f.coords reducing)
  refine (haddress g hf.confined nofun).bind fun p g' hgrows ⟨hg', _⟩ => ?_
  have hbuffer := (hf.grows hgrows hg').stands.op_buffer hmem
  refine ensures_construction (.store (f.buffer slot) p.1 value p.2) hg' ?_ ?_
  · exact List.forall_mem_singleton.mpr (Nat.lt_of_lt_of_le hvalue hgrows.size_le)
  · rintro r hr
    cases hr
    exact ⟨slot, hslot, hbuffer⟩

variable (hf : f.Covers e) (hs : s.Ready (IsWritten e) f)

include hf hs

theorem yields_node (x : Site) : Yields (IsWritten e) f (node f e x) s := by
  have hlookup := s.lookup_mem_refs f
  rw [node]
  cases hop : (e.node x.place).op with
  | load slot l => exact yields_makes hs (makes_load _ _ l)
  | const v l => exact yields_makes hs (makes_constant _ v _ l)
  | unary op a =>
    apply yields_refOf_bind
    exact yields_makes hs (makes_construction (.unary op _) (List.nil_subset _) rfl)
  | binary op a b =>
    apply yields_refOf_bind
    apply yields_refOf_bind
    exact yields_makes hs (makes_binary op _ _)
  | ternary op a b c =>
    apply yields_refOf_bind
    apply yields_refOf_bind
    apply yields_refOf_bind
    refine yields_makes hs (makes_construction (.ternary op _ _ _) ?_ rfl)
    cases op <;> simp [Construction.unchecked, Construction.operands, hlookup]
  | cast a =>
    apply yields_refOf_bind
    exact yields_makes hs
      (makes_construction (.cast _ _) (List.cons_subset.mpr ⟨hlookup _, List.nil_subset _⟩) rfl)
  | reduce op axes a =>
    dsimp only
    split
    · exact yields_throw
    · apply yields_refOf_bind
      exact yields_reduction op _ hs (hlookup _)
  | store slot l a =>
    apply yields_refOf_bind
    have hslot := isWritten_of_store hop
    exact yields_building hs
      (ensures_store _ l hs.frame hslot (hf.mem hslot) (hs.refs_lt _ (hlookup _)))
  | sink sources => exact yields_throw

theorem ready_of_lowerSite {x : Site} (hrun : (lowerSite f e x).run.run s = (.ok u, s')) :
    s'.Ready (IsWritten e) f := by
  obtain ⟨r, s₁, hnode, hrun⟩ := run_eq_ok_of_bind hrun
  obtain ⟨hs₁, hr⟩ := yields_node hf hs x r s₁ hnode
  cases hrun
  exact ⟨hs₁.frame, List.forall_mem_cons.mpr ⟨hr, hs₁.done_lt⟩⟩

theorem ready_of_lowerSites {xs : List Site}
    (hrun : (xs.forM (lowerSite f e)).run.run s = (.ok u, s')) : s'.Ready (IsWritten e) f := by
  induction xs generalizing s with
  | nil =>
    cases hrun
    exact hs
  | cons x xs ih =>
    obtain ⟨u', s₁, hfirst, hrest⟩ := run_eq_ok_of_bind hrun
    exact ih (ready_of_lowerSite hf hs hfirst) hrest

omit [Width] hf hs in
theorem run_refs {stores : List Nat} {rs : List Ref} (hs : s.Ready written f)
    (hrun : (stores.mapM (refOf · false)).run.run s = (.ok rs, s')) :
    s' = s ∧ rs ⊆ s.refs f := by
  induction stores generalizing rs with
  | nil =>
    cases hrun
    exact ⟨rfl, List.nil_subset _⟩
  | cons x stores ih =>
    rw [List.mapM_cons] at hrun
    obtain ⟨r, s₁, hfirst, hnext⟩ := run_eq_ok_of_bind hrun
    obtain ⟨rs', s₂, hrest, hlast⟩ := run_eq_ok_of_bind hnext
    cases hfirst
    cases hlast
    obtain ⟨rfl, hrs⟩ := ih hrest
    exact ⟨rfl, List.cons_subset.mpr ⟨s'.lookup_mem_refs f _, hrs⟩⟩

theorem yields_sink (stores : List Nat) : Yields (IsWritten e) f (sink f e stores) s := by
  intro r s' hrun
  obtain ⟨u, s₁, hsites, hnext⟩ := run_eq_ok_of_bind hrun
  obtain ⟨rs, s₂, hrefs, hsink⟩ := run_eq_ok_of_bind hnext
  have hs₁ := ready_of_lowerSites hf hs hsites
  obtain ⟨rfl, hrs⟩ := run_refs hs₁ hrefs
  exact yields_makes hs₁ (makes_construction (.sink rs) hrs rfl) r s' hsink

end Lower

theorem lower_confined [Width] {e : Expr} {config : CompileConfig} {k : LoweredKernel}
    (h : lower e config = .ok k) : k.graph.Confined (Lower.IsWritten e) ∧ k.sink < k.graph.size := by
  rw [lower] at h
  obtain ⟨⟨stores, output⟩, -, h⟩ := bind_eq_ok h
  obtain ⟨⟨full, axes⟩, -, h⟩ := bind_eq_ok h
  let work : Lower.LowerM Ref :=
    Lower.building (Lower.frame config.globalDims (Lower.collectArgs e) output full axes) >>=
      fun f => Lower.sink f e stores
  obtain ⟨sink, hsink, hk⟩ : ∃ sink, (work.run.run {}).1 = .ok sink ∧
      Except.ok ⟨(work.run.run {}).2.graph, sink, Lower.collectArgs e, output, full, axes⟩ = .ok k :=
    bind_eq_ok h
  cases hk
  obtain ⟨f, s₁, hframe, hrun⟩ := run_eq_ok_of_bind (Prod.ext hsink rfl)
  obtain ⟨hf, rfl⟩ := Lower.building_eq_ok hframe
  obtain ⟨hready, hcovers⟩ := (Lower.ensures_frame config.globalDims (Lower.collectArgs e) output full
    axes confined_empty).2 f hf
  have hsink := Lower.yields_sink hcovers ⟨hready, fun _ hx => by cases hx⟩ stores sink _ hrun
  exact hsink.imp (·.frame.confined) id

namespace Kernel

variable [Width] {e : Expr} {config : CompileConfig} {hash : NodeHash} {k : Kernel}

omit [Width] in
theorem confined_simplified {lowered : LoweredKernel} {g : Graph} {sink : Ref}
    (hg : lowered.graph.Confined written) (hsink : lowered.sink < lowered.graph.size)
    (h : simplified lowered config = .ok (g, sink)) : g.Confined written := by
  rw [simplified] at h
  split at h
  next sink' g' hrun =>
    cases h
    exact normalize_confined hg hsink hrun
  next => cases h

theorem isWritten_of_compile (h : compile e config hash = .ok k) {position buffer : Nat}
    (hstore : (instrAt k.instrs position).op.target? = some buffer) :
    ∃ slot, Lower.IsWritten e slot ∧ (instrAt k.instrs buffer).op = .defineGlobal slot := by
  obtain ⟨lowered, g, sink, hlower, hsimplified, hlinear, -⟩ := exists_of_compile h
  obtain ⟨hlowered, hsink⟩ := lower_confined hlower
  exact linearize_confined (confined_simplified hlowered hsink hsimplified) hlinear hstore

/-- A launch of a compiled kernel changes buffers only that stand for arguments that are written. -/
theorem isWritten_of_mayWrite (h : compile e config hash = .ok k) {buffers : List BufferId}
    {id : BufferId} (hid : k.MayWrite buffers id) :
    ∃ slot, Lower.IsWritten e slot ∧ (k.slots buffers).lookup slot = some id := by
  obtain ⟨position, buffer, index, value, gate, slot, hstore, hglobal, hslot⟩ := hid
  obtain ⟨slot', hwritten, hglobal'⟩ := isWritten_of_compile h (by rw [hstore]; rfl)
  rw [hglobal, Op.defineGlobal.injEq] at hglobal'
  exact ⟨slot, hglobal' ▸ hwritten, hslot⟩

end Kernel

end LazyTensor

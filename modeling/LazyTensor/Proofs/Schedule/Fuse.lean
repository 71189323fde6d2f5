import LazyTensor.Proofs.Denotation.Run
import LazyTensor.Proofs.Schedule.Draft
import LazyTensor.Proofs.Tensor.Sound

/-!
# Fused subtrees

A subtree that is fused into a kernel computes its tensor as the layout of its visit shows it. The
statements are about the tree and the inputs of the finished kernel: every draft on the way there is
a part of them, so what was shown of a visit once stays true when it is met again.
-/

namespace LazyTensor

variable [Width]

/-- The place `i` of a tree computes the tensor `t` as the layout `l` shows it. -/
structure Shows (s : Session) (tree : Expr) (args : Nat → Int → Option Value) (t : Tensor)
    (l : Layout) (i : Nat) : Prop where
  shape_eq : (tree.node i).shape = l.shape
  dtype_eq : (tree.node i).dtype = s.dtype t
  dims_eq : (tree.elements args i).dims = dimsOf l.shape
  get_eq : ∀ coords position, InShape (dimsOf l.shape) coords → l.index coords = some position →
    (tree.elements args i).get coords = (s.elements t).flat position

section Nodes

variable {s : Session} {e e' tree : Expr} {n : ExprNode} {i : Nat}
  {args : Nat → Int → Option Value} {t : Tensor} {l : Layout}

theorem Expr.Adds.elements_eq (h : e.Adds n i e') (hordered : e'.Ordered) (hgrows : e'.Grows tree)
    (args : Nat → Int → Option Value) :
    tree.elements args i = n.elements args (tree.elements args) :=
  Expr.elements_eq (hgrows i n h.getElem?) (hordered i n h.getElem?)

theorem Expr.Adds.shows (h : e.Adds n i e') (hordered : e'.Ordered) (hgrows : e'.Grows tree)
    (hshape : n.shape = l.shape) (hdtype : n.dtype = s.dtype t)
    (hget : ∀ coords position, InShape (dimsOf l.shape) coords → l.index coords = some position →
      (n.elements args (tree.elements args)).get coords = (s.elements t).flat position) :
    Shows s tree args t l i := by
  have hnode : tree.node i = n := Expr.node_of_getElem? (hgrows i n h.getElem?)
  have helements := h.elements_eq hordered hgrows args
  refine ⟨?_, ?_, ?_, ?_⟩
  · rw [hnode, hshape]
  · rw [hnode, hdtype]
  · rw [helements, ← hshape]
    rfl
  · intro coords position hin hposition
    rw [helements]
    exact hget coords position hin hposition

end Nodes

/-! ### Nodes -/

section Operations

variable {s : Session} {lim : Limits} {e e' tree : Expr} {i x y z : Nat}
  {args : Nat → Int → Option Value} {t a b c : Tensor} {l : Layout}
  (hs : s.Sound lim) (ht : t < s.nodes.size) (hordered : e'.Ordered) (hgrows : e'.Grows tree)
include hs ht hordered hgrows

theorem Shows.const {value : Value} (hop : s.op t = .const value)
    (hadds : e.Adds ⟨.const (value.normalize (s.dtype t)) l, s.dtype t, l.shape⟩ i e') :
    Shows s tree args t l i := by
  refine hadds.shows hordered hgrows rfl rfl fun coords position hin hposition => ?_
  have hformed := (hs t ht).formed
  rw [Session.Formed, hop] at hformed
  rw [hs.flat_const ht position hop]
  simp only [ExprNode.elements, Layout.read, hposition, hformed.normalize_eq]

theorem Shows.unary {op : UnaryOp} (hop : s.op t = .unary op a) (hx : Shows s tree args a l x)
    (hadds : e.Adds ⟨.unary op x, (tree.node x).dtype, (tree.node x).shape⟩ i e') :
    Shows s tree args t l i := by
  have hformed := (hs t ht).formed
  rw [Session.Formed, hop] at hformed
  have hdtype : (tree.node x).dtype = s.dtype t := hx.dtype_eq.trans hformed.2
  refine hadds.shows hordered hgrows hx.shape_eq hdtype fun coords position hin hposition => ?_
  rw [hs.flat_unary ht position hop, ← hx.get_eq coords position hin hposition, ← hdtype]
  rfl

theorem Shows.cast (hop : s.op t = .cast a) (hx : Shows s tree args a l x)
    (hadds : e.Adds ⟨.cast x, s.dtype t, (tree.node x).shape⟩ i e') : Shows s tree args t l i := by
  refine hadds.shows hordered hgrows hx.shape_eq rfl fun coords position hin hposition => ?_
  rw [hs.flat_cast ht position hop, ← hx.get_eq coords position hin hposition]
  rfl

theorem Shows.binary {op : BinaryOp} (hop : s.op t = .binary op a b) (hx : Shows s tree args a l x)
    (hy : Shows s tree args b l y)
    (hadds : e.Adds ⟨.binary op x y, if op.isComparison then .bool else (tree.node x).dtype,
      (tree.node x).shape⟩ i e') : Shows s tree args t l i := by
  have hformed := (hs t ht).formed
  rw [Session.Formed, hop] at hformed
  have hdtype : (if op.isComparison then .bool else (tree.node x).dtype) = s.dtype t := by
    rw [hx.dtype_eq, hformed.2.2]
  refine hadds.shows hordered hgrows hx.shape_eq hdtype fun coords position hin hposition => ?_
  rw [hs.flat_binary ht position hop, ← hx.get_eq coords position hin hposition,
    ← hy.get_eq coords position hin hposition, ← hdtype]
  rfl

theorem Shows.ternary {op : TernaryOp} (hop : s.op t = .ternary op a b c)
    (hx : Shows s tree args a l x) (hy : Shows s tree args b l y) (hz : Shows s tree args c l z)
    (hadds : e.Adds ⟨.ternary op x y z, (tree.node y).dtype, (tree.node x).shape⟩ i e') :
    Shows s tree args t l i := by
  have hformed := (hs t ht).formed
  rw [Session.Formed, hop] at hformed
  have hdtype : (tree.node y).dtype = s.dtype t := hy.dtype_eq.trans hformed.2.1
  refine hadds.shows hordered hgrows hx.shape_eq hdtype fun coords position hin hposition => ?_
  rw [hs.flat_ternary ht position hop, ← hx.get_eq coords position hin hposition,
    ← hy.get_eq coords position hin hposition, ← hz.get_eq coords position hin hposition, ← hdtype]
  rfl

theorem Shows.reduce (hexact : lim.Exact) {op : ReduceOp} {axes : List Nat} {n : Int} {shape : List Int}
    (hop : s.op t = .reduce op axes a) (hl : l.Total n lim shape)
    (hcontiguous : l.isContiguous = true) (hshape : l.shape = s.shape t)
    (hx : Shows s tree args a (.ofShape (s.shape a)) x)
    (hadds : e.Adds ⟨.reduce op (Expr.sortedAxes axes) x, (tree.node x).dtype,
      Expr.reducedShape (tree.node x).shape (Expr.sortedAxes axes)⟩ i e') :
    Shows s tree args t l i := by
  have ha := hs.source_lt ht hop (.head _)
  have hnode := hs t ht
  have hoperand := hs a ha
  have hformed := hnode.formed
  rw [Session.Formed, hop] at hformed
  have haxes : ∀ k, (Expr.sortedAxes axes).contains k = axes.contains k := by
    intro k
    rw [Bool.eq_iff_iff, List.contains_iff_mem, List.contains_iff_mem, Expr.sortedAxes,
      mem_insertElems, or_iff_left List.not_mem_nil]
  have hdims : dimsOf l.shape = s.dims t := by rw [hshape]; rfl
  obtain rfl : shape = s.dims t := by rw [← hdims, hl.shape_eq, dimsOf_const]
  have hdtype : (tree.node x).dtype = s.dtype t := hx.dtype_eq.trans hformed.2
  have hreduced : Expr.reducedShape (tree.node x).shape (Expr.sortedAxes axes) = l.shape := by
    rw [hx.shape_eq, reducedShape_congr haxes, hshape, hformed.1]
    rfl
  have hdimsOperand : dimsOf (Layout.ofShape (s.shape a)).shape = s.dims a := rfl
  refine hadds.shows hordered hgrows hreduced hdtype fun coords position hin hposition => ?_
  rw [hdims] at hin
  rw [hl.index_of_contiguous hexact hcontiguous hin] at hposition
  obtain rfl := Option.some.inj hposition
  rw [hs.elements_flat ht, unravel_ravel hin, hs.get_reduce ht hop]
  simp only [ExprNode.elements, hx.dims_eq, hdimsOperand, hdtype]
  rw [fiber_congr haxes]
  refine ReduceOp.fold_congr fun c hc => ?_
  have hc : InShape (s.dims a) c :=
    inShape_of_mem_fiber (by rw [← hs.dims_reduce ht hop]; exact hin) hc
  have hindex : (Layout.ofShape (s.shape a)).index c = some (ravel (s.dims a) c) := by
    rw [hoperand.shape_eq]
    exact Layout.index_ofShape hexact hoperand.admits hc
  rw [hx.get_eq c _ hc hindex, hs.elements_flat ha, unravel_ravel hc]

end Operations

/-! ### Visits -/

/-- A visit that sees its node at every coordinate. -/
structure Visit.Sound (v : Visit) (s : Session) (lim : Limits) : Prop where
  node_lt : v.node < s.nodes.size
  total : ∃ shape, v.layout.Total (product (s.dims v.node)) lim shape

section Visits

variable {s : Session} {lim : Limits} {t : Tensor} {l : Layout} {shape : List Int}

theorem Session.Sound.total_of_view (h : s.Sound lim) (ht : t < s.nodes.size) {base : Tensor}
    {below : Layout} (hop : s.op t = .view base below) :
    base < s.nodes.size ∧ s.dtype base = s.dtype t ∧
      below.Total (product (s.dims base)) lim (s.dims t) := by
  have hformed := (h t ht).formed
  rw [Session.Formed, hop] at hformed
  have hbase := h.source_lt ht hop (.head _)
  exact ⟨hbase, hformed.2⟩

theorem Session.Sound.visit (h : s.Sound lim) (hexact : lim.Exact) (ht : t < s.nodes.size)
    (hl : l.Total (product (s.dims t)) lim shape) (inReduce : Bool) :
    (Fusion.visit s t l inReduce).Sound s lim := by
  rw [Fusion.visit]
  split
  next base below hop =>
    obtain ⟨hbase, -, htotal⟩ := h.total_of_view ht hop
    exact ⟨hbase, shape, (htotal.compose hexact hl).1⟩
  next => exact ⟨ht, shape, hl⟩

theorem Shows.of_visit (h : s.Sound lim) (hexact : lim.Exact) (ht : t < s.nodes.size)
    (hl : l.Total (product (s.dims t)) lim shape) {inReduce : Bool} {tree : Expr}
    {args : Nat → Int → Option Value} {i : Nat}
    (hshows : Shows s tree args (Fusion.visit s t l inReduce).node
      (Fusion.visit s t l inReduce).layout i) : Shows s tree args t l i := by
  rw [Fusion.visit] at hshows
  split at hshows
  next base below hop =>
    obtain ⟨hbase, hdtype, htotal⟩ := h.total_of_view ht hop
    obtain ⟨hcompose, hindex⟩ := htotal.compose hexact hl
    have hshape : (below.compose l).shape = l.shape := hcompose.shape_eq.trans hl.shape_eq.symm
    have hdims : dimsOf l.shape = shape := by rw [hl.shape_eq, dimsOf_const]
    refine ⟨hshows.shape_eq.trans hshape, hshows.dtype_eq.trans hdtype,
      hshows.dims_eq.trans (congrArg dimsOf hshape), ?_⟩
    intro coords position hin hposition
    have hin' : InShape shape coords := hdims ▸ hin
    obtain ⟨p, hp, hlow, hhigh⟩ := hl.exists_index hexact hin'
    obtain rfl : p = position := Option.some.inj (hp.symm.trans hposition)
    -- The position in the view is the one whose coordinates its own layout takes on to the base.
    obtain ⟨q, hq, hget⟩ := h.get_view hexact ht hop (inShape_unravel (h t ht).admits.dims_pos p)
    have hthrough : (below.compose l).index coords = some q := by
      rw [hindex coords hin', hposition, Option.bind_some, hq]
    rw [hshows.get_eq coords q (by rw [hshape]; exact hin) hthrough, ← hget, h.elements_flat ht]
  next => exact hshows

end Visits

/-! ### Drafts -/

/-- The buffers that a kernel may read hold the elements of their tensors. -/
structure Fusion.Ready (f : Fusion) (m : Memory) (deps : List Tensor) : Prop where
  stored : ∀ t id, t < f.session.nodes.size → f.session.storage t = some id →
    f.session.HeldIn t m id
  scheduled : ∀ t id, t ∈ deps → f.storage.lookup t = some id → f.session.HeldIn t m id

/-- A draft with a table in order, whose visits are computed at their places. -/
structure Draft.Sound (d : Draft) (s : Session) (tree : Expr) (args : Nat → Int → Option Value) :
    Prop where
  ordered : d.tree.Ordered
  not_sink : ∀ (i : Nat) n, d.tree.nodes[i]? = some n → ∀ parts, n.op ≠ .sink parts
  visited : ∀ v i, (v, i) ∈ d.visited → i < d.tree.size ∧ Shows s tree args v.node v.layout i

section Drafts

variable {s : Session} {tree tree' : Expr} {args : Nat → Int → Option Value} {d d' : Draft}
  {v : Visit} {i : Nat} {n : ExprNode}

theorem Draft.Sound.congr (h : d.Sound s tree args) (htree : d'.tree = d.tree)
    (hvisited : d'.visited = d.visited) : d'.Sound s tree args := by
  refine ⟨?_, ?_, ?_⟩
  · rw [htree]
    exact h.ordered
  · rw [htree]
    exact h.not_sink
  · rw [htree, hvisited]
    exact h.visited

theorem Draft.Sound.notes (h : d.Sound s tree args) (hnotes : d.Notes d') : d'.Sound s tree args :=
  h.congr hnotes.tree_eq hnotes.visited_eq

theorem Draft.Sound.place (h : d.Sound s tree args) (hadds : d.tree.Adds n i tree')
    (hsources : ∀ j ∈ n.op.sources, j < d.tree.size) (hsink : ∀ parts, n.op ≠ .sink parts)
    (hshows : tree'.Ordered → Shows s tree args v.node v.layout i) :
    (d.place v i tree').Sound s tree args ∧ i < (d.place v i tree').tree.size ∧
      Shows s tree args v.node v.layout i := by
  have hordered := hadds.ordered h.ordered hsources
  refine ⟨⟨hordered, ?_, ?_⟩, hadds.lt_size, hshows hordered⟩
  · intro j m hj
    rcases hadds.old_or_new j m hj with hold | ⟨-, rfl⟩
    · exact h.not_sink j m hold
    · exact hsink
  · intro w j hw
    rcases List.mem_cons.mp hw with heq | hw
    · obtain ⟨rfl, rfl⟩ := Prod.mk.inj heq
      exact ⟨hadds.lt_size, hshows hordered⟩
    · obtain ⟨hlt, hshown⟩ := h.visited w j hw
      exact ⟨hadds.grows.lt_size hlt, hshown⟩

end Drafts

/-! ### Subtrees -/

section Subtrees

variable {f : Fusion} {lim : Limits} {v : Visit} {id : BufferId} {l : Layout}

theorem Visit.Sound.operand (hv : v.Sound f.session lim) (hs : f.session.Sound lim)
    (hexact : lim.Exact) {a : Tensor} {o : TensorOp} (hop : f.session.op v.node = o)
    (ha : a ∈ o.sources) (hshape : f.session.shape a = f.session.shape v.node) :
    (Fusion.visit f.session a v.layout v.inReduce).Sound f.session lim ∧
      ∀ tree args x, Shows f.session tree args (Fusion.visit f.session a v.layout v.inReduce).node
        (Fusion.visit f.session a v.layout v.inReduce).layout x →
          Shows f.session tree args a v.layout x := by
  obtain ⟨shape, htotal⟩ := hv.total
  have hlt := hs.source_lt hv.node_lt hop ha
  rw [Session.dims, ← hshape] at htotal
  exact ⟨hs.visit hexact hlt htotal _, fun tree args x => Shows.of_visit hs hexact hlt htotal⟩

theorem Fusion.source_ok (hs : f.session.Sound lim) (h : f.source v = .ok (id, l)) :
    l = v.layout ∧ (f.session.storage v.node = some id ∨
      f.session.isStored v.node = false ∧ f.storage.lookup v.node = some id) := by
  rw [source] at h
  split at h
  next target value hop => exact absurd hop (hs.op_ne_assign v.node target value)
  next =>
    split at h
    next found hfound =>
      obtain ⟨rfl, rfl⟩ := Prod.mk.inj (Except.ok.inj h)
      refine ⟨rfl, ?_⟩
      cases hstorage : f.session.storage v.node with
      | some other =>
        rw [hstorage] at hfound
        exact .inl hfound
      | none =>
        rw [hstorage] at hfound
        exact .inr ⟨by rw [Session.isStored, hstorage]; rfl, hfound⟩
    next => cases h

variable {m : Memory} {final d d' : Draft} {i : Nat}

theorem Fusion.Ready.heldIn (hready : f.Ready m final.deps) (hs : f.session.Sound lim)
    (hv : v.Sound f.session lim) (hloaded : f.isLoaded v.node = true)
    (hsource : f.source v = .ok (id, l))
    (hdep : f.isScheduled v.node = true → v.node ∈ final.deps) : f.session.HeldIn v.node m id := by
  obtain ⟨-, hstored | ⟨hnot, hlookup⟩⟩ := source_ok hs hsource
  · exact hready.stored v.node id hv.node_lt hstored
  · refine hready.scheduled v.node id (hdep ?_) hlookup
    rw [isLoaded, hnot, Bool.false_or] at hloaded
    rw [isScheduled, hnot, hloaded]
    rfl

/-- What building a subtree leads to, by induction on what it can do: the places of all visits so far
compute their tensors, in the finished tree and from what the buffers of the kernel hold. -/
theorem Fusion.Fuses.shows (hs : f.session.Sound lim) (hexact : lim.Exact)
    (hready : f.Ready m final.deps) (h : f.Fuses d v i d') (hfinal : d'.Extends final)
    (hd : d.Sound f.session final.tree (m.slots (f.output :: final.inputs)))
    (hv : v.Sound f.session lim) :
    d'.Sound f.session final.tree (m.slots (f.output :: final.inputs)) ∧ i < d'.tree.size ∧
      Shows f.session final.tree (m.slots (f.output :: final.inputs)) v.node v.layout i := by
  induction h with
  | known hknown => exact ⟨hd, hd.visited _ _ hknown⟩
  | const hop hnotes hadds =>
    obtain ⟨shape, htotal⟩ := hv.total
    rw [htotal.unbind_eq] at hadds
    exact (hd.notes hnotes).place hadds (by rintro _ ⟨⟩) (by simp)
      fun hordered => .const hs hv.node_lt hordered hfinal.tree hop hadds
  | load hloaded hsource htakes _ hadds =>
    obtain ⟨shape, htotal⟩ := hv.total
    obtain ⟨rfl, -⟩ := Fusion.source_ok hs hsource
    rw [htotal.unbind_eq] at hadds
    have hlater := (Draft.extends_place hadds.grows).trans hfinal
    refine (hd.congr (htakes.tree_eq.trans (Fusion.noteLoad_tree ..))
      (htakes.visited_eq.trans (Fusion.noteLoad_visited ..))).place hadds (by rintro _ ⟨⟩) (by simp)
      fun hordered =>
        hadds.shows hordered hfinal.tree rfl rfl fun coords position hin hposition => ?_
    obtain ⟨b, type, -, -, -, -, hheld⟩ := hready.heldIn hs hv hloaded hsource fun hscheduled =>
      (htakes.extends.trans hlater).deps _
        ((Fusion.mem_noteLoad_deps ..).mpr (.inr ⟨rfl, hscheduled⟩))
    have hin' : InShape shape coords := by
      rw [htotal.shape_eq, dimsOf_const] at hin
      exact hin
    obtain ⟨p, hp, hlow, hhigh⟩ := htotal.exists_index hexact hin'
    obtain rfl : p = position := Option.some.inj (hp.symm.trans hposition)
    simp only [ExprNode.elements, Layout.read, hposition, Memory.slots, hlater.slot htakes.slot_eq,
      Option.bind_some]
    exact hheld p hlow hhigh
  | unary hop _ hadds ih =>
    have hlater := (Draft.extends_place hadds.grows).trans hfinal
    have hformed := (hs _ hv.node_lt).formed
    rw [Session.Formed, hop] at hformed
    obtain ⟨hw, hoperand⟩ := hv.operand hs hexact hop (.head _) hformed.1
    obtain ⟨hd₁, hx, hshows⟩ := ih hlater hd hw
    refine hd₁.place hadds (fun j hj => List.mem_singleton.mp hj ▸ hx) (by simp) fun hordered => ?_
    rw [← hlater.tree.node_eq hx] at hadds
    exact .unary hs hv.node_lt hordered hfinal.tree hop (hoperand _ _ _ hshows) hadds
  | cast hop _ hadds ih =>
    have hlater := (Draft.extends_place hadds.grows).trans hfinal
    have hformed := (hs _ hv.node_lt).formed
    rw [Session.Formed, hop] at hformed
    obtain ⟨hw, hoperand⟩ := hv.operand hs hexact hop (.head _) hformed
    obtain ⟨hd₁, hx, hshows⟩ := ih hlater hd hw
    refine hd₁.place hadds (fun j hj => List.mem_singleton.mp hj ▸ hx) (by simp) fun hordered => ?_
    rw [← hlater.tree.node_eq hx] at hadds
    exact .cast hs hv.node_lt hordered hfinal.tree hop (hoperand _ _ _ hshows) hadds
  | binary hop _ hb _ hadds iha ihb =>
    have hlater := (Draft.extends_place hadds.grows).trans hfinal
    have hformed := (hs _ hv.node_lt).formed
    rw [Session.Formed, hop] at hformed
    obtain ⟨hw, hoperand⟩ := hv.operand hs hexact hop (.head _) hformed.1.1
    obtain ⟨hw', hoperand'⟩ := hv.operand hs hexact hop (.tail _ (.head _)) hformed.1.2
    obtain ⟨hd₁, hx, hshows⟩ := iha (hb.extends.trans hlater) hd hw
    obtain ⟨hd₂, hy, hshows'⟩ := ihb hlater hd₁ hw'
    replace hx := hb.extends.tree.lt_size hx
    refine hd₂.place hadds (by simp [ExprOp.sources, hx, hy]) (by simp) fun hordered => ?_
    rw [← hlater.tree.node_eq hx] at hadds
    exact .binary hs hv.node_lt hordered hfinal.tree hop (hoperand _ _ _ hshows)
      (hoperand' _ _ _ hshows') hadds
  | ternary hop _ hb hc _ hadds iha ihb ihc =>
    have hlater := (Draft.extends_place hadds.grows).trans hfinal
    have hformed := (hs _ hv.node_lt).formed
    rw [Session.Formed, hop] at hformed
    obtain ⟨⟨hshape, hshape', hshape''⟩, -⟩ := hformed
    obtain ⟨hw, hoperand⟩ := hv.operand hs hexact hop (.head _) hshape
    obtain ⟨hw', hoperand'⟩ := hv.operand hs hexact hop (.tail _ (.head _)) hshape'
    obtain ⟨hw'', hoperand''⟩ := hv.operand hs hexact hop (.tail _ (.tail _ (.head _)))
      hshape''
    obtain ⟨hd₁, hx, hshows⟩ := iha ((hb.extends.trans hc.extends).trans hlater) hd hw
    obtain ⟨hd₂, hy, hshows'⟩ := ihb (hc.extends.trans hlater) hd₁ hw'
    obtain ⟨hd₃, hz, hshows''⟩ := ihc hlater hd₂ hw''
    replace hx := (hb.extends.trans hc.extends).tree.lt_size hx
    replace hy := hc.extends.tree.lt_size hy
    refine hd₃.place hadds (by simp [ExprOp.sources, hx, hy, hz]) (by simp) fun hordered => ?_
    rw [← hlater.tree.node_eq hx, ← hlater.tree.node_eq hy] at hadds
    exact .ternary hs hv.node_lt hordered hfinal.tree hop (hoperand _ _ _ hshows)
      (hoperand' _ _ _ hshows') (hoperand'' _ _ _ hshows'') hadds
  | reduce hop hcontiguous hshape hnotes _ hadds ih =>
    have hlater := (Draft.extends_place hadds.grows).trans hfinal
    obtain ⟨shape, htotal⟩ := hv.total
    have ha := hs.source_lt hv.node_lt hop (.head _)
    have hwhole := Layout.total_ofShape hexact (hs _ ha).admits
    rw [← (hs _ ha).shape_eq] at hwhole
    obtain ⟨hd₂, hx, hshows⟩ := ih hlater (hd.notes hnotes) (hs.visit hexact ha hwhole true)
    refine hd₂.place hadds (fun j hj => List.mem_singleton.mp hj ▸ hx) (by simp) fun hordered => ?_
    rw [← hlater.tree.node_eq hx] at hadds
    exact .reduce hs hv.node_lt hordered hfinal.tree hexact hop htotal hcontiguous hshape
      (.of_visit hs hexact ha hwhole hshows) hadds

end Subtrees

end LazyTensor

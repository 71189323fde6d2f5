import LazyTensor.Proofs.Tensor.Coherent

/-!
# The operations on tensors

Every operation adds nodes that fit, one after the other, whether it succeeds or not. Sessions that
are made by operations and by computing nodes are therefore coherent.
-/

namespace LazyTensor

/-! ### Actions that add nodes -/

structure Session.Has (s : Session) (t : Tensor) (shape : Shape) (dtype : DType) : Prop where
  lt : t < s.nodes.size
  shape_eq : s.shape t = shape
  dtype_eq : s.dtype t = dtype

theorem Session.Has.grows {s s' : Session} {t : Tensor} {shape : Shape} {dtype : DType}
    (h : s.Has t shape dtype) (hgrows : s.Grows s') : s'.Has t shape dtype :=
  ⟨hgrows.lt_size h.lt, (hgrows.shape_eq h.lt).trans h.shape_eq,
    (hgrows.dtype_eq h.lt).trans h.dtype_eq⟩

namespace TensorM

variable [Width] {α β : Type} {kinds : Movement → Prop} {s : Session}

/-- An action only adds nodes and values, and what it returns is as described. -/
def Makes (kinds : Movement → Prop) (s : Session) (act : TensorM α) (post : Session → α → Prop) :
    Prop :=
  ∀ r s', act.run.run s = (r, s') → s.Steps kinds s' ∧ ∀ a, r = .ok a → post s' a

variable {post mid : Session → α → Prop} {goal : Session → β → Prop} {act : TensorM α}
  {e : TensorError} {f : α → TensorM β}

theorem Makes.mono (h : Makes kinds s act mid)
    (hpost : ∀ s' a, s.Steps kinds s' → mid s' a → post s' a) : Makes kinds s act post := by
  intro r s' hrun
  obtain ⟨hsteps, hmid⟩ := h r s' hrun
  exact ⟨hsteps, fun a ha => hpost s' a hsteps (hmid a ha)⟩

theorem makes_pure {a : α} (h : post s a) : Makes kinds s (pure a) post := by
  intro r s' hrun
  cases hrun
  refine ⟨.refl, fun b hb => ?_⟩
  cases hb
  exact h

theorem makes_throw : Makes kinds s (throw e : TensorM α) post := by
  intro r s' hrun
  cases hrun
  exact ⟨.refl, nofun⟩

theorem makes_throw_bind : Makes kinds s (throw e >>= f) goal := by
  intro r s' hrun
  cases hrun
  exact ⟨.refl, nofun⟩

theorem makes_bind (hs : s.Coherent) (hact : Makes kinds s act mid)
    (hf : ∀ s₁ a, s.Grows s₁ → s₁.Coherent → mid s₁ a → Makes kinds s₁ (f a) goal) :
    Makes kinds s (act >>= f) goal := by
  intro r s' hrun
  rw [run_bind] at hrun
  rcases hact' : act.run.run s with ⟨e | a, s₁⟩
  · rw [hact'] at hrun
    cases hrun
    exact ⟨(hact _ _ hact').1, nofun⟩
  · rw [hact'] at hrun
    obtain ⟨hsteps, hmid⟩ := hact _ _ hact'
    obtain ⟨hsteps', hgoal⟩ := hf s₁ a hsteps.grows (hs.steps hsteps) (hmid a rfl) r s' hrun
    exact ⟨hsteps.trans hsteps', hgoal⟩

theorem makes_lift_bind {e : Except TensorError α}
    (hf : ∀ a, e = .ok a → Makes kinds s (f a) goal) :
    Makes kinds s ((liftM e : TensorM α) >>= f) goal := by
  intro r s' hrun
  cases e with
  | error e =>
    cases hrun
    exact ⟨.refl, nofun⟩
  | ok a => exact hf a rfl r s' hrun

end TensorM

namespace Tensor

open TensorM Session

variable [Width] {kinds : Movement → Prop} {s : Session} {a b c : Tensor}

/-! ### Reading -/

section Reading

variable {β : Type} {goal : Session → β → Prop}

theorem makes_get_bind {f : Session → TensorM β} (h : Makes kinds s (f s) goal) :
    Makes kinds s (get >>= f) goal := h

theorem makes_shape_bind {f : Shape → TensorM β} (h : Makes kinds s (f (s.shape a)) goal) :
    Makes kinds s (a.shape >>= f) goal := h

theorem makes_dtype_bind {f : DType → TensorM β} (h : Makes kinds s (f (s.dtype a)) goal) :
    Makes kinds s (a.dtype >>= f) goal := h

theorem makes_rank_bind {f : Nat → TensorM β} (h : Makes kinds s (f (s.shape a).length) goal) :
    Makes kinds s (a.rank >>= f) goal := h

theorem makes_require_bind {p : DType → Bool} {operation : String} {f : Unit → TensorM β}
    (h : Makes kinds s (f ()) goal) : Makes kinds s (a.require p operation >>= f) goal := by
  show Makes kinds s ((if p (s.dtype a) then pure () else throw (.unsupportedType operation _)) >>= f)
    goal
  split
  · exact h
  · exact makes_throw_bind

end Reading

/-! ### Nodes -/

theorem makes_insert {n : TensorNode} (hfits : s.Fits kinds n) (hdevice : n.device = .cpu)
    (hstorage : n.storage = none) :
    Makes kinds s (insert n) fun s' t => s'.Has t n.shape n.dtype := by
  intro r s' hrun
  cases hrun
  refine ⟨.single (.node hfits hdevice hstorage), fun t ht => ?_⟩
  cases ht
  have hself : ({ s with nodes := s.nodes.push n } : Session).node s.nodes.size = n := node_push_self
  refine ⟨?_, ?_, ?_⟩
  · rw [Array.size_push]
    exact Nat.lt_succ_self _
  · rw [Session.shape, hself]
  · rw [Session.dtype, hself]

theorem makes_ofValues (t : ScalarType) (vs : List Value) :
    Makes kinds s (ofValues t vs) fun s' a => a < s'.nodes.size := by
  intro r s' hrun
  cases hrun
  refine ⟨.single (.values t vs), fun a ha => ?_⟩
  cases ha
  rw [Array.size_push]
  exact Nat.lt_succ_self _

theorem makes_full (shape : Shape) (v : Value) (t : DType) :
    Makes kinds s (full shape v t) fun s' a => s'.Has a shape t :=
  makes_insert ⟨v, rfl⟩ rfl rfl

theorem makes_constLike (a : Tensor) (v : Value) :
    Makes kinds s (a.constLike v) fun s' t => s'.Has t (s.shape a) (s.dtype a) :=
  makes_full (s.shape a) v (s.dtype a)

theorem makes_like (hs : s.Coherent) (ha : a < s.nodes.size) {op : TensorOp} {dtype : DType}
    (hfits : s.Fits kinds ⟨op, dtype, .cpu, s.shape a, none⟩) :
    Makes kinds s (a.like op dtype) fun s' t => s'.Has t (s.shape a) dtype := by
  have hdevice := hs.device_eq a ha
  show Makes kinds s (insert ⟨op, dtype, (s.node a).device, s.shape a, none⟩) _
  rw [hdevice]
  exact makes_insert hfits rfl rfl

theorem makes_cast (hs : s.Coherent) (ha : a < s.nodes.size) (dtype : DType) :
    Makes kinds s (a.cast dtype) fun s' t => s'.Has t (s.shape a) dtype := by
  show Makes kinds s (if s.dtype a = dtype then pure a else a.like (.cast a) dtype) _
  split
  next hdtype => exact makes_pure ⟨ha, rfl, hdtype⟩
  next => exact makes_like hs ha ⟨ha, rfl⟩

/-! ### Movements -/

theorem makes_move (hs : s.Coherent) (ha : a < s.nodes.size) {m : Movement} (hm : kinds m) :
    Makes kinds s (a.move m) fun s' t =>
      ∃ l, (s.layout a).apply m = .ok l ∧ s'.Has t l.shape (s.dtype a) := by
  rw [move]
  refine makes_get_bind ?_
  split
  next => exact makes_throw
  next l hl =>
    dsimp only
    split
    next hwhole => exact makes_pure ⟨l, hl, hs.base_lt ha, hwhole.2.symm, hs.dtype_base ha⟩
    next =>
      have hdtype : (s.node (s.base a)).dtype = s.dtype a := hs.dtype_base ha
      rw [hs.device_eq _ (hs.base_lt ha), hdtype]
      have hfits : s.Fits kinds ⟨.view (s.base a) l, s.dtype a, .cpu, l.shape, none⟩ :=
        ⟨a, m, ha, hm, hl, rfl, rfl, rfl⟩
      exact (makes_insert hfits rfl rfl).mono fun s' t _ ht => ⟨l, hl, ht⟩

/-- The movements that operations make by themselves are among the given ones. -/
structure Natural (kinds : Movement → Prop) : Prop where
  reshape : ∀ shape, kinds (.reshape shape)
  expand : ∀ shape, kinds (.expand shape)
  permute : ∀ axes, kinds (.permute axes)
  flip : ∀ axes, kinds (.flip axes)

omit [Width] in
theorem natural_true : Natural fun _ => True :=
  ⟨fun _ => trivial, fun _ => trivial, fun _ => trivial, fun _ => trivial⟩

/-- An action only adds nodes and values, and what it returns is one of the tensors. -/
abbrev MakesTensor (kinds : Movement → Prop) (s : Session) (act : TensorM Tensor) : Prop :=
  Makes kinds s act fun s' t => t < s'.nodes.size

theorem makes_has {act : TensorM Tensor} {shape : Shape} {dtype : DType}
    (h : Makes kinds s act fun s' t => s'.Has t shape dtype) : MakesTensor kinds s act :=
  h.mono fun _ _ _ ht => ht.lt

variable (hkinds : Natural kinds) (hs : s.Coherent) (ha : a < s.nodes.size)
  {f : Tensor → TensorM Tensor} {name : String} {rank : Nat} {positions : List Nat}
  {act : TensorM Tensor}
include hkinds hs ha

omit hkinds in
theorem makes_ite_move {m : Movement} (hm : kinds m) {shape : Shape}
    (hshape : ∀ l, (s.layout a).apply m = .ok l → l.shape = shape) :
    Makes kinds s (if shape = s.shape a then pure a else a.move m) fun s' t =>
      s'.Has t shape (s.dtype a) := by
  split
  next hsame => exact makes_pure ⟨ha, hsame.symm, rfl⟩
  next =>
    refine (makes_move hs ha hm).mono ?_
    rintro s' t - ⟨l, hl, ht⟩
    exact hshape l hl ▸ ht

theorem makes_reshapeTo (shape : Shape) :
    Makes kinds s (a.reshapeTo shape) fun s' t => s'.Has t shape (s.dtype a) :=
  makes_ite_move hs ha (hkinds.reshape shape) fun _ => Layout.shape_reshape

theorem makes_expandTo (shape : Shape) :
    Makes kinds s (a.expandTo shape) fun s' t => s'.Has t shape (s.dtype a) :=
  makes_ite_move hs ha (hkinds.expand shape) fun _ => Layout.shape_expand

theorem makes_broadcastTo (target : Shape) :
    Makes kinds s (a.broadcastTo target) fun s' t => s'.Has t target (s.dtype a) := by
  refine makes_shape_bind ?_
  split
  next hshape => exact makes_pure ⟨ha, hshape, rfl⟩
  next =>
    dsimp only
    split
    · refine makes_bind hs (makes_reshapeTo hkinds hs ha _) fun s₁ t hgrows hs₁ ht => ?_
      have hexpand := makes_expandTo hkinds hs₁ ht.lt target
      rw [ht.dtype_eq] at hexpand
      exact hexpand
    · exact makes_throw_bind

theorem makes_castTo_bind {β : Type} {goal : Session → β → Prop} {f : Tensor → TensorM β}
    (dtype : DType) (shape : Shape)
    (hf : ∀ s₁ x, s.Grows s₁ → s₁.Coherent → s₁.Has x shape dtype → Makes kinds s₁ (f x) goal) :
    Makes kinds s (a.cast dtype >>= fun x => x.broadcastTo shape >>= f) goal := by
  refine makes_bind hs (makes_cast hs ha dtype) fun s₁ x hgrows hs₁ hx => ?_
  have hto := makes_broadcastTo hkinds hs₁ hx.lt shape
  rw [hx.dtype_eq] at hto
  exact makes_bind hs₁ hto fun s₂ y hgrows' hs₂ hy => hf s₂ y (hgrows.trans hgrows') hs₂ hy

theorem makes_broadcastPair (hb : b < s.nodes.size) :
    Makes kinds s (a.broadcastPair b) fun s' p =>
      ∃ shape, s'.Has p.1 shape (s.dtype a) ∧ s'.Has p.2 shape (s.dtype b) := by
  refine makes_shape_bind (makes_shape_bind ?_)
  split
  next hshape => exact makes_pure ⟨s.shape b, ⟨ha, hshape, rfl⟩, hb, rfl, rfl⟩
  next =>
    split
    next => exact makes_throw
    next target _ =>
      refine makes_bind hs (makes_broadcastTo hkinds hs ha target) fun s₁ l hgrows hs₁ hl => ?_
      have hb₁ := hgrows.lt_size hb
      refine makes_bind hs₁ (makes_broadcastTo hkinds hs₁ hb₁ target) fun s₂ r hgrows' _ hr => ?_
      rw [hgrows.dtype_eq hb] at hr
      exact makes_pure ⟨target, hl.grows hgrows', hr⟩

/-! ### Operations that make one tensor -/

theorem makes_reshape (dims : List Int) : MakesTensor kinds s (a.reshape dims) := by
  refine makes_get_bind (makes_lift_bind fun shape _ => ?_)
  exact makes_has (makes_reshapeTo hkinds hs ha shape)

theorem makes_permute (axes : List Int) : MakesTensor kinds s (a.permute axes) := by
  refine makes_rank_bind (makes_lift_bind fun positions _ => ?_)
  split
  · exact makes_pure ha
  · refine (makes_move hs ha (hkinds.permute positions)).mono ?_
    rintro s' t - ⟨l, -, ht⟩
    exact ht.lt

theorem makes_transpose (axis₀ axis₁ : Int) : MakesTensor kinds s (a.transpose axis₀ axis₁) := by
  refine makes_rank_bind (makes_lift_bind fun i _ => makes_lift_bind fun j _ => ?_)
  exact makes_permute hkinds hs ha _

theorem makes_expand (dims : List Int) : MakesTensor kinds s (a.expand dims) := by
  refine makes_shape_bind (makes_lift_bind fun shape _ => ?_)
  exact makes_has (makes_expandTo hkinds hs ha shape)

theorem makes_flip (axes : List Int) : MakesTensor kinds s (a.flip axes) := by
  refine makes_rank_bind (makes_lift_bind fun positions _ => ?_)
  refine (makes_move hs ha (hkinds.flip _)).mono ?_
  rintro s' t - ⟨l, -, ht⟩
  exact ht.lt

theorem makes_squeeze (axis : Option Int) : MakesTensor kinds s (a.squeeze axis) := by
  refine makes_shape_bind ?_
  cases axis with
  | none => exact makes_has (makes_reshapeTo hkinds hs ha _)
  | some axis =>
    refine makes_lift_bind fun i _ => ?_
    split
    · exact makes_has (makes_reshapeTo hkinds hs ha _)
    · exact makes_pure ha

theorem makes_unsqueeze (axis : Int) : MakesTensor kinds s (a.unsqueeze axis) := by
  refine makes_shape_bind (makes_lift_bind fun i _ => ?_)
  exact makes_has (makes_reshapeTo hkinds hs ha _)

theorem makes_flatten : MakesTensor kinds s a.flatten :=
  makes_get_bind (makes_has (makes_reshapeTo hkinds hs ha _))

omit hkinds in
theorem makes_contiguous : MakesTensor kinds s a.contiguous := by
  refine makes_dtype_bind ?_
  have hfits : s.Fits kinds ⟨.contiguous a, s.dtype a, .cpu, s.shape a, none⟩ := ⟨ha, rfl, rfl⟩
  exact makes_has (makes_like hs ha hfits)

omit hkinds in
theorem makes_assign (hb : b < s.nodes.size) : MakesTensor kinds s (a.assign b) := by
  refine makes_get_bind ?_
  split
  next hstored =>
    have hfits : s.Fits kinds ⟨.assign a b, s.dtype a, .cpu, s.shape a, none⟩ :=
      ⟨⟨ha, hb⟩, hstored, rfl, rfl⟩
    exact makes_dtype_bind (makes_has (makes_like hs ha hfits))
  next => exact makes_throw

omit hkinds in
theorem makes_unary (op : UnaryOp) : MakesTensor kinds s (a.unary op) := by
  have hfits : s.Fits kinds ⟨.unary op a, s.dtype a, .cpu, s.shape a, none⟩ := ⟨ha, rfl, rfl⟩
  exact makes_dtype_bind (makes_has (makes_like hs ha hfits))

theorem makes_binary (hb : b < s.nodes.size) (op : BinaryOp) (operation : String) :
    MakesTensor kinds s (binary op operation a b) := by
  refine makes_dtype_bind (makes_dtype_bind ?_)
  dsimp only
  generalize (s.dtype a).promote (s.dtype b) = dtype
  split
  · refine makes_bind hs (makes_cast hs ha dtype) fun s₁ x hgrows hs₁ hx => ?_
    refine makes_bind hs₁ (makes_cast hs₁ (hgrows.lt_size hb) dtype) fun s₂ y hgrows' hs₂ hy => ?_
    have hx := hx.grows hgrows'
    refine makes_bind hs₂ (makes_broadcastPair hkinds hs₂ hx.lt hy.lt) ?_
    rintro s₃ ⟨l, r⟩ - hs₃ ⟨shape, hl, hr⟩
    rw [hx.dtype_eq] at hl
    rw [hy.dtype_eq] at hr
    have hfits : s₃.Fits kinds ⟨.binary op l r, if op.isComparison then .bool else dtype, .cpu,
        s₃.shape l, none⟩ := by
      refine ⟨⟨hl.lt, hr.lt⟩, ⟨rfl, hr.shape_eq.trans hl.shape_eq.symm⟩, ?_, ?_⟩
      · rw [hl.dtype_eq, hr.dtype_eq]
      · rw [hl.dtype_eq]
    exact makes_has (makes_like hs₃ hl.lt hfits)
  · exact makes_throw_bind

theorem makes_select (hb : b < s.nodes.size) (hc : c < s.nodes.size) :
    MakesTensor kinds s (a.select b c) := by
  refine makes_shape_bind (makes_shape_bind (makes_shape_bind ?_))
  split
  next joint _ =>
    split
    next shape _ =>
      refine makes_dtype_bind (makes_dtype_bind ?_)
      dsimp only
      generalize (s.dtype a).promote (s.dtype c) = dtype
      refine makes_castTo_bind hkinds hs hb .bool shape fun s₁ x hgrows hs₁ hx => ?_
      have ha₁ := hgrows.lt_size ha
      refine makes_castTo_bind hkinds hs₁ ha₁ dtype shape fun s₂ y hgrows₂ hs₂ hy => ?_
      have hc₂ := (hgrows.trans hgrows₂).lt_size hc
      refine makes_castTo_bind hkinds hs₂ hc₂ dtype shape fun s₃ z hgrows₃ hs₃ hz => ?_
      have hx := hx.grows (hgrows₂.trans hgrows₃)
      have hy := hy.grows hgrows₃
      have hfits : s₃.Fits kinds ⟨.ternary .select x y z, dtype, .cpu, s₃.shape y, none⟩ := by
        rw [hy.shape_eq]
        exact ⟨⟨hx.lt, hy.lt, hz.lt⟩, ⟨hx.shape_eq, hy.shape_eq, hz.shape_eq⟩, hy.dtype_eq,
          hz.dtype_eq⟩
      exact makes_has (makes_like hs₃ hy.lt hfits)
    next => exact makes_throw
  next => exact makes_throw

/-! ### Composed operations -/

omit hkinds in
theorem makes_constLike_bind (v : Value)
    (hf : ∀ s' x, s'.Coherent → a < s'.nodes.size → x < s'.nodes.size → MakesTensor kinds s' (f x)) :
    MakesTensor kinds s (a.constLike v >>= f) := by
  refine makes_bind hs (makes_constLike a v) fun s₁ x hgrows hs₁ hx => ?_
  exact hf s₁ x hs₁ (hgrows.lt_size ha) hx.lt

theorem makes_not : MakesTensor kinds s a.not := by
  refine makes_bind hs (makes_cast hs ha .bool) fun s₁ x _ hs₁ hx => ?_
  exact makes_constLike_bind hs₁ hx.lt _ fun s₂ y hs₂ hx₂ hy => makes_binary hkinds hs₂ hx₂ hy _ _

theorem makes_minimum (hb : b < s.nodes.size) : MakesTensor kinds s (a.minimum b) := by
  refine makes_bind hs (makes_binary hkinds hs ha hb _ _) fun s₁ x hgrows hs₁ hx => ?_
  exact makes_select hkinds hs₁ (hgrows.lt_size ha) hx (hgrows.lt_size hb)

theorem makes_div (hb : b < s.nodes.size) : MakesTensor kinds s (a.div b) :=
  makes_dtype_bind (makes_dtype_bind (makes_binary hkinds hs ha hb _ _))

theorem makes_clamp {low high : Option Tensor} (hlow : ∀ b ∈ low, b < s.nodes.size)
    (hhigh : ∀ b ∈ high, b < s.nodes.size) : MakesTensor kinds s (a.clamp low high) := by
  cases high with
  | none =>
    cases low with
    | none => exact makes_pure ha
    | some b =>
      exact makes_bind hs (makes_binary hkinds hs ha (hlow b rfl) _ _) fun _ _ _ _ hx => makes_pure hx
  | some c =>
    have hlowered : ∀ s₁ (x : Tensor), s.Grows s₁ → s₁.Coherent → x < s₁.nodes.size →
        MakesTensor kinds s₁ (x.minimum c) := by
      intro s₁ x hgrows hs₁ hx
      exact makes_minimum hkinds hs₁ hx (hgrows.lt_size (hhigh c rfl))
    cases low with
    | none => exact hlowered s a (.refl s) hs ha
    | some b => exact makes_bind hs (makes_binary hkinds hs ha (hlow b rfl) _ _) hlowered

theorem makes_exp : MakesTensor kinds s a.exp := by
  refine makes_require_bind (makes_constLike_bind hs ha _ fun s₁ x hs₁ ha₁ hx => ?_)
  refine makes_bind hs₁ (makes_binary hkinds hs₁ ha₁ hx _ _) fun s₂ y _ hs₂ hy => ?_
  exact makes_require_bind (makes_unary hs₂ hy _)

theorem makes_log : MakesTensor kinds s a.log := by
  refine makes_bind hs (makes_require_bind (makes_unary hs ha .log2)) fun s₁ x _ hs₁ hx => ?_
  refine makes_bind hs₁ (makes_constLike a _) fun s₂ y hgrows hs₂ hy => ?_
  exact makes_binary hkinds hs₂ (hgrows.lt_size hx) hy.lt _ _

theorem makes_cos : MakesTensor kinds s a.cos := by
  refine makes_require_bind (makes_constLike_bind hs ha _ fun s₁ x hs₁ ha₁ hx => ?_)
  refine makes_bind hs₁ (makes_binary hkinds hs₁ hx ha₁ _ _) fun s₂ y _ hs₂ hy => ?_
  exact makes_require_bind (makes_unary hs₂ hy _)

omit hkinds in
theorem makes_neg : MakesTensor kinds s a.neg :=
  makes_require_bind (makes_unary hs ha _)

theorem makes_abs : MakesTensor kinds s a.abs := by
  refine makes_dtype_bind ?_
  split
  · exact makes_pure ha
  · refine makes_bind hs (makes_neg hs ha) fun s₁ x hgrows hs₁ hx => ?_
    exact makes_binary hkinds hs₁ (hgrows.lt_size ha) hx _ _

theorem makes_relu : MakesTensor kinds s a.relu :=
  makes_dtype_bind (makes_constLike_bind hs ha _ fun _ _ hs₁ ha₁ hx =>
    makes_binary hkinds hs₁ ha₁ hx _ _)

theorem makes_unaryNamed (hf : unaryNamed? name = some f) : MakesTensor kinds s (f a) := by
  have hfloat : ∀ op operation,
      MakesTensor kinds s (floatUnary op operation a) :=
    fun op _ => makes_require_bind (makes_unary hs ha op)
  unfold unaryNamed? at hf
  split at hf <;> cases hf
  · exact makes_neg hs ha
  · exact makes_not hkinds hs ha
  · exact hfloat _ _
  · exact hfloat _ _
  · exact hfloat _ _
  · exact hfloat _ _
  · exact hfloat _ _
  · exact makes_exp hkinds hs ha
  · exact makes_log hkinds hs ha
  · exact makes_cos hkinds hs ha
  · exact makes_binary hkinds hs ha ha _ _
  · exact makes_abs hkinds hs ha
  · exact makes_relu hkinds hs ha

theorem makes_binaryNamed (hb : b < s.nodes.size) {f : Tensor → Tensor → TensorM Tensor}
    (hf : binaryNamed? name = some f) : MakesTensor kinds s (f a b) := by
  have hnot : ∀ {x y : Tensor}, x < s.nodes.size → y < s.nodes.size →
      MakesTensor kinds s (x.lt y >>= not) := by
    intro x y hx hy
    refine makes_bind hs (makes_binary hkinds hs hx hy _ _) fun s₁ z _ hs₁ hz => ?_
    exact makes_not hkinds hs₁ hz
  have hplain : ∀ op operation,
      MakesTensor kinds s (binary op operation a b) :=
    makes_binary hkinds hs ha hb
  unfold binaryNamed? at hf
  split at hf <;> cases hf
  · exact hplain _ _
  · exact hplain _ _
  · exact hplain _ _
  · exact makes_div hkinds hs ha hb
  · exact hplain _ _
  · exact hplain _ _
  · exact makes_binary hkinds hs hb ha _ _
  · exact hnot hb ha
  · exact hnot ha hb
  · exact hplain _ _
  · exact hplain _ _
  · exact hplain _ _
  · exact hplain _ _
  · exact hplain _ _
  · exact hplain _ _
  · exact makes_minimum hkinds hs ha hb

theorem makes_shapeNamed {numbers : List Int} (hf : shapeNamed? name numbers = some f) :
    MakesTensor kinds s (f a) := by
  unfold shapeNamed? at hf
  split at hf <;> cases hf
  · exact makes_reshape hkinds hs ha _
  · exact makes_expand hkinds hs ha _
  · exact makes_permute hkinds hs ha _
  · exact makes_flip hkinds hs ha _
  · exact makes_transpose hkinds hs ha _ _
  · exact makes_squeeze hkinds hs ha _
  · exact makes_unsqueeze hkinds hs ha _
  · exact makes_flatten hkinds hs ha
  · exact makes_contiguous hs ha

/-! ### Reductions -/

omit [Width] hkinds hs ha in
theorem lt_of_resolveAxis {i : Nat} {axis : Int} (h : resolveAxis rank axis = .ok i) :
    i < rank := by
  unfold resolveAxis at h
  dsimp only at h
  generalize (if axis < 0 then axis + rank else axis) = position at h
  split at h
  next hrange =>
    obtain rfl := Except.ok.inj h
    omega
  next => cases h

omit [Width] hkinds hs ha in
theorem lt_of_mem_resolveEach {axes : List Int} (h : resolveEach rank axes = .ok positions) :
    ∀ i ∈ positions, i < rank := by
  intro i hi
  obtain ⟨axis, -, haxis⟩ := (exists_of_mapM_ok h).2 i hi
  exact lt_of_resolveAxis haxis

omit [Width] hkinds hs ha in
theorem lt_of_mem_resolveAxes {axes : Option (List Int)}
    (h : resolveAxes rank axes = .ok positions) : ∀ i ∈ positions, i < rank := by
  cases axes with
  | none =>
    obtain rfl := Except.ok.inj h
    exact fun i hi => List.mem_range.mp hi
  | some axes =>
    obtain ⟨each, heach, rfl⟩ := map_eq_ok h
    intro i hi
    rw [Expr.sortedAxes, mem_insertElems] at hi
    exact lt_of_mem_resolveEach heach i (hi.resolve_right List.not_mem_nil)

section

variable (axes : Option (List Int)) (keep : Bool)

theorem makes_reduce (op : ReduceOp) (dtype : Option DType) :
    MakesTensor kinds s (a.reduce op axes keep dtype) := by
  refine makes_rank_bind (makes_lift_bind fun positions hpositions => makes_dtype_bind ?_)
  refine makes_bind hs (makes_cast hs ha _) fun s₁ x _ hs₁ hx => ?_
  split
  · exact makes_pure hx.lt
  · refine makes_get_bind ?_
    have hfits : s₁.Fits kinds ⟨.reduce op positions x, s₁.dtype x, .cpu,
        Expr.reducedShape (s₁.shape x) positions, none⟩ := by
      refine ⟨hx.lt, rfl, rfl, ?_⟩
      rw [hx.shape_eq]
      exact lt_of_mem_resolveAxes hpositions
    have hinsert := makes_insert hfits rfl rfl
    rw [← hs₁.device_eq x hx.lt] at hinsert
    refine makes_bind hs₁ hinsert fun s₂ y _ hs₂ hy => ?_
    split
    · exact makes_pure hy.lt
    · refine makes_shape_bind ?_
      exact makes_has (makes_reshapeTo hkinds hs₂ hy.lt _)

theorem makes_min : MakesTensor kinds s (a.min axes keep) := by
  refine makes_require_bind (makes_bind hs (makes_neg hs ha) fun s₁ x _ hs₁ hx => ?_)
  exact makes_bind hs₁ (makes_reduce hkinds hs₁ hx axes keep .max none) fun _ _ _ => makes_neg

theorem makes_mean : MakesTensor kinds s (a.mean axes keep) := by
  refine makes_shape_bind (makes_lift_bind fun positions _ => ?_)
  split
  next count _ =>
    refine makes_dtype_bind ?_
    refine makes_bind hs (makes_reduce hkinds hs ha axes keep .sum _) fun s₁ x _ hs₁ hx => ?_
    exact makes_constLike_bind hs₁ hx _ fun _ _ hs₂ hx₂ hy => makes_div hkinds hs₂ hx₂ hy
  next => exact makes_throw

theorem makes_reduceNamed {f : Tensor → Option (List Int) → Bool → Option DType → TensorM Tensor}
    (hf : reduceNamed? name = some f) (dtype : Option DType) :
    MakesTensor kinds s (f a axes keep dtype) := by
  unfold reduceNamed? at hf
  split at hf <;> cases hf
  · exact makes_reduce hkinds hs ha axes keep .sum dtype
  · exact makes_reduce hkinds hs ha axes keep .max none
  · exact makes_min hkinds hs ha axes keep
  · exact makes_mean hkinds hs ha axes keep

end

omit hkinds in
theorem makes_ite_bind {p : Prop} [Decidable p] (hact : MakesTensor kinds s act)
    (hf : ∀ s₁ x, s.Grows s₁ → s₁.Coherent → x < s₁.nodes.size → MakesTensor kinds s₁ (f x)) :
    MakesTensor kinds s (if p then act >>= f else pure a >>= f) := by
  split
  · exact makes_bind hs hact hf
  · exact hf s a (.refl s) hs ha

theorem makes_dot (hb : b < s.nodes.size) (dtype : Option DType) :
    MakesTensor kinds s (a.dot b dtype) := by
  refine makes_shape_bind (makes_shape_bind ?_)
  dsimp only
  split
  · refine makes_ite_bind hs ha (makes_unsqueeze hkinds hs ha 0) fun s₁ rows hgrows hs₁ hrows => ?_
    have hb₁ := hgrows.lt_size hb
    refine makes_ite_bind hs₁ hb₁ (makes_unsqueeze hkinds hs₁ hb₁ 1)
      fun s₂ columns hgrows₂ hs₂ hcolumns => ?_
    have hrows₂ := hgrows₂.lt_size hrows
    refine makes_bind hs₂ (makes_unsqueeze hkinds hs₂ hrows₂ 1) fun s₃ x hgrows₃ hs₃ hx => ?_
    have hcolumns₃ := hgrows₃.lt_size hcolumns
    refine makes_bind hs₃ (makes_transpose hkinds hs₃ hcolumns₃ 0 1) fun s₄ y hgrows₄ hs₄ hy => ?_
    refine makes_bind hs₄ (makes_unsqueeze hkinds hs₄ hy 0) fun s₅ z hgrows₅ hs₅ hz => ?_
    have hx₅ := (hgrows₄.trans hgrows₅).lt_size hx
    refine makes_bind hs₅ (makes_binary hkinds hs₅ hx₅ hz .mul _) fun s₆ u _ hs₆ hu => ?_
    refine makes_bind hs₆ (makes_reduce hkinds hs₆ hu _ _ .sum _) fun s₇ v _ hs₇ hv => ?_
    refine makes_ite_bind hs₇ hv (makes_squeeze hkinds hs₇ hv _) fun s₈ w _ hs₈ hw => ?_
    split
    · exact makes_squeeze hkinds hs₈ hw _
    · exact makes_pure hw
  · exact makes_throw_bind

/-! ### Sessions that can arise -/

omit hkinds hs ha

/-- The operations that can be carried out on the tensors of a session, with the given movements. -/
inductive Call (kinds : Movement → Prop) (s : Session) : TensorM Tensor → Prop
  | values (t : ScalarType) (vs : List Value) : Call kinds s (ofValues t vs)
  | full (shape : Shape) (v : Value) (t : DType) : Call kinds s (full shape v t)
  | scalar {a : Tensor} (v : Value) : a < s.nodes.size → Call kinds s (a.scalarBeside v)
  | cast {a : Tensor} (t : DType) : a < s.nodes.size → Call kinds s (a.cast t)
  | assign {a b : Tensor} : a < s.nodes.size → b < s.nodes.size → Call kinds s (a.assign b)
  | move {a : Tensor} {m : Movement} : a < s.nodes.size → kinds m → Call kinds s (a.move m)
  | reshape {a : Tensor} (shape : Shape) : a < s.nodes.size → Call kinds s (a.reshapeTo shape)
  | broadcast {a : Tensor} (shape : Shape) : a < s.nodes.size → Call kinds s (a.broadcastTo shape)
  | shape {a : Tensor} {name : String} {numbers : List Int} {f : Tensor → TensorM Tensor} :
      a < s.nodes.size → shapeNamed? name numbers = some f → Call kinds s (f a)
  | unary {a : Tensor} {name : String} {f : Tensor → TensorM Tensor} :
      a < s.nodes.size → unaryNamed? name = some f → Call kinds s (f a)
  | binary {a b : Tensor} {name : String} {f : Tensor → Tensor → TensorM Tensor} :
      a < s.nodes.size → b < s.nodes.size → binaryNamed? name = some f → Call kinds s (f a b)
  | select {a b c : Tensor} : a < s.nodes.size → b < s.nodes.size → c < s.nodes.size →
      Call kinds s (a.select b c)
  | clamp {a : Tensor} {low high : Option Tensor} : a < s.nodes.size →
      (∀ b ∈ low, b < s.nodes.size) → (∀ b ∈ high, b < s.nodes.size) → Call kinds s (a.clamp low high)
  | reduce {a : Tensor} {name : String}
      {f : Tensor → Option (List Int) → Bool → Option DType → TensorM Tensor}
      (axes : Option (List Int)) (keep : Bool) (dtype : Option DType) :
      a < s.nodes.size → reduceNamed? name = some f → Call kinds s (f a axes keep dtype)
  | dot {a b : Tensor} (dtype : Option DType) : a < s.nodes.size → b < s.nodes.size →
      Call kinds s (a.dot b dtype)

theorem Call.makes (h : Call kinds s act) (hkinds : Natural kinds) (hs : s.Coherent) :
    MakesTensor kinds s act := by
  cases h with
  | values t vs => exact makes_ofValues t vs
  | full shape v t => exact makes_has (makes_full shape v t)
  | scalar v ha => exact makes_dtype_bind (makes_has (makes_full [] v _))
  | cast t ha => exact makes_has (makes_cast hs ha t)
  | assign ha hb => exact makes_assign hs ha hb
  | move ha hm =>
    refine (makes_move hs ha hm).mono ?_
    rintro s' t - ⟨l, -, ht⟩
    exact ht.lt
  | reshape shape ha => exact makes_has (makes_reshapeTo hkinds hs ha shape)
  | broadcast shape ha => exact makes_has (makes_broadcastTo hkinds hs ha shape)
  | shape ha hf => exact makes_shapeNamed hkinds hs ha hf
  | unary ha hf => exact makes_unaryNamed hkinds hs ha hf
  | binary ha hb hf => exact makes_binaryNamed hkinds hs ha hb hf
  | select ha hb hc => exact makes_select hkinds hs ha hb hc
  | clamp ha hlow hhigh => exact makes_clamp hkinds hs ha hlow hhigh
  | reduce axes keep dtype ha hf => exact makes_reduceNamed hkinds hs ha axes keep hf dtype
  | dot dtype ha hb => exact makes_dot hkinds hs ha hb dtype

end Tensor

namespace Session

variable [Width] {kinds : Movement → Prop} {kept : Session → Tensor → BufferId → Memory → Prop}
  {s : Session}

/-- The sessions that arise from operations on tensors, from new buffers, and from computing nodes
into buffers, which leaves memory in one of the given states. -/
inductive Built (kinds : Movement → Prop) (kept : Session → Tensor → BufferId → Memory → Prop) :
    Session → Prop
  | empty : Built kinds kept {}
  | call {s : Session} {act : TensorM Tensor} : Built kinds kept s → Tensor.Call kinds s act →
      Built kinds kept (act.run.run s).2
  | allocated {s : Session} {m : Memory} : Built kinds kept s →
      (∀ id b, s.memory.get? id = some b → m.get? id = some b) →
      Built kinds kept { s with memory := m }
  | stored {s : Session} {t : Tensor} {id : BufferId} {m : Memory} : Built kinds kept s →
      t < s.nodes.size → s.isView t = false → s.memory.buffers.size ≤ m.buffers.size →
      id < m.buffers.size → kept s t id m → Built kinds kept { s.setStorage t id with memory := m }

theorem Built.coherent (h : Built kinds kept s) (hkinds : Tensor.Natural kinds) : s.Coherent := by
  induction h with
  | empty => exact coherent_empty
  | call _ hcall ih => exact ih.steps (hcall.makes hkinds ih _ _ rfl).1
  | allocated _ hm ih =>
    refine ⟨ih.sources_lt, ih.agrees, ih.device_eq, fun t ht id hid => ?_⟩
    have hlt := ih.storage_lt t ht id hid
    exact (Array.getElem?_eq_some_iff.mp (hm id _ (Array.getElem?_eq_getElem hlt))).1
  | stored _ _ _ hsize hid _ ih => exact ih.setStorage hsize hid

end Session

end LazyTensor

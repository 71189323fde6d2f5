import LazyTensor.Expr.Build

/-!
# Building tables of subtrees

What a step of building a tree does to its table: it adds one node, unless the node is there, and
leaves every place as it was.
-/

namespace LazyTensor

universe u

/-! ### Runs that succeed -/

section Runs

variable {σ ε α β : Type u} {s s' : σ} {b : β} {f : α → StateT σ (Except ε) β}

theorem run_bind_ok {x : StateT σ (Except ε) α} (h : (x >>= f).run s = .ok (b, s')) :
    ∃ a s₁, x.run s = .ok (a, s₁) ∧ (f a).run s₁ = .ok (b, s') := by
  rw [StateT.run_bind] at h
  cases hx : x.run s with
  | error e =>
    rw [hx] at h
    cases h
  | ok r =>
    rw [hx] at h
    exact ⟨r.1, r.2, rfl, h⟩

theorem run_pure_ok {a a' : α} (h : (pure a : StateT σ (Except ε) α).run s = .ok (a', s')) :
    a' = a ∧ s' = s := by
  cases h
  exact ⟨rfl, rfl⟩

theorem run_check_ok {p : Prop} [Decidable p] {e : ε} {x : StateT σ (Except ε) β}
    (h : (if p then x else throw e >>= f).run s = .ok (b, s')) : p ∧ x.run s = .ok (b, s') := by
  by_cases hp : p
  · rw [if_pos hp] at h
    exact ⟨hp, h⟩
  · rw [if_neg hp] at h
    cases h

end Runs

/-! ### The table -/

namespace Expr

variable {e e' e'' : Expr} {n : ExprNode} {i : Nat}

def Ordered (e : Expr) : Prop :=
  ∀ (i : Nat) n, e.nodes[i]? = some n → ∀ j ∈ n.op.sources, j < i

/-- The nodes of a table stay where they are. -/
def Grows (e e' : Expr) : Prop := ∀ (i : Nat) n, e.nodes[i]? = some n → e'.nodes[i]? = some n

theorem getElem?_eq_some_node (hi : i < e.size) : e.nodes[i]? = some (e.node i) := by
  rw [node, Array.getD_eq_getD_getElem?, Array.getElem?_eq_getElem hi, Option.getD_some]

theorem node_of_getElem? (hi : e.nodes[i]? = some n) : e.node i = n := by
  rw [node, Array.getD_eq_getD_getElem?, hi, Option.getD_some]

theorem lt_size_of_getElem? (hi : e.nodes[i]? = some n) : i < e.size :=
  (Array.getElem?_eq_some_iff.mp hi).1

theorem lt_size_of_op {op : ExprOp} (h : (e.node i).op = op) (hop : op ≠ .sink []) : i < e.size := by
  apply Nat.lt_of_not_le
  intro hge
  rw [node, Array.getD_eq_getD_getElem?, Array.getElem?_eq_none hge] at h
  exact hop h.symm

theorem Grows.refl (e : Expr) : e.Grows e := fun _ _ h => h

theorem Grows.trans (h : e.Grows e') (h' : e'.Grows e'') : e.Grows e'' :=
  fun i n hi => h' i n (h i n hi)

theorem Grows.node_eq (h : e.Grows e') (hi : i < e.size) : e'.node i = e.node i :=
  node_of_getElem? (h i _ (getElem?_eq_some_node hi))

theorem Grows.lt_size (h : e.Grows e') (hi : i < e.size) : i < e'.size :=
  lt_size_of_getElem? (h i _ (getElem?_eq_some_node hi))

/-- The node `n` is added, or found, at the place `i`. -/
structure Adds (e : Expr) (n : ExprNode) (i : Nat) (e' : Expr) : Prop where
  getElem? : e'.nodes[i]? = some n
  grows : e.Grows e'
  old_or_new : ∀ (j : Nat) m, e'.nodes[j]? = some m → e.nodes[j]? = some m ∨ j = e.size ∧ m = n
  last : (∀ j : Nat, e.nodes[j]? ≠ some n) → i + 1 = e'.size
  /-- No place but `i` can be new. -/
  eq_of_size_le : ∀ j : Nat, e.size ≤ j → j < e'.size → j = i

theorem getElem?_of_findBelow {bound : Nat} (h : e.findBelow n bound = some i) :
    e.nodes[i]? = some n := by
  induction bound with
  | zero => cases h
  | succ bound ih =>
    rw [findBelow] at h
    split at h
    next hfound => exact Option.some.inj h ▸ hfound
    next => exact ih h

theorem adds_insert (e : Expr) (n : ExprNode) : e.Adds n (e.insert n).1 (e.insert n).2 := by
  rw [insert]
  cases hfind : e.findBelow n e.size with
  | some i =>
    have hi := getElem?_of_findBelow hfind
    exact ⟨hi, Grows.refl e, fun j m hj => .inl hj, fun hnew => absurd hi (hnew i),
      fun j hle hlt => absurd hlt (Nat.not_lt_of_le hle)⟩
  | none =>
    have hpush : ∀ j : Nat, (e.nodes.push n)[j]? = if j = e.size then some n else e.nodes[j]? :=
      fun j => Array.getElem?_push
    refine ⟨?_, fun j m hj => ?_, fun j m hj => ?_, fun _ => ?_, fun j hle hlt => ?_⟩
    · exact (hpush _).trans (if_pos rfl)
    · exact (hpush j).trans ((if_neg (Nat.ne_of_lt (lt_size_of_getElem? hj))).trans hj)
    · by_cases hlast : j = e.size
      · have hm : some n = some m := ((hpush j).trans (if_pos hlast)).symm.trans hj
        exact .inr ⟨hlast, (Option.some.inj hm).symm⟩
      · exact .inl (((hpush j).trans (if_neg hlast)).symm.trans hj)
    · exact (Array.size_push n).symm
    · have hlt : j < e.size + 1 := Nat.lt_of_lt_of_eq hlt (Array.size_push n)
      exact Nat.le_antisymm (Nat.le_of_lt_succ hlt) hle

variable (h : e.Adds n i e')

include h

theorem Adds.node_eq : e'.node i = n := node_of_getElem? h.getElem?

theorem Adds.lt_size : i < e'.size := lt_size_of_getElem? h.getElem?

theorem Adds.mem_nodes {m : ExprNode} : m ∈ e'.nodes ↔ m ∈ e.nodes ∨ m = n := by
  constructor
  · intro hm
    obtain ⟨j, hj⟩ := Array.mem_iff_getElem?.mp hm
    rcases h.old_or_new j m hj with hold | ⟨-, heq⟩
    · exact .inl (Array.mem_iff_getElem?.mpr ⟨j, hold⟩)
    · exact .inr heq
  · rintro (hm | rfl)
    · obtain ⟨j, hj⟩ := Array.mem_iff_getElem?.mp hm
      exact Array.mem_iff_getElem?.mpr ⟨j, h.grows j m hj⟩
    · exact Array.mem_iff_getElem?.mpr ⟨i, h.getElem?⟩

theorem Adds.ordered (hordered : e.Ordered) (hsources : ∀ j ∈ n.op.sources, j < e.size) :
    e'.Ordered := by
  intro j m hj k hk
  rcases h.old_or_new j m hj with hold | ⟨rfl, rfl⟩
  · exact hordered j m hold k hk
  · exact hsources k hk

end Expr

/-! ### Steps -/

namespace ExprM

variable {e e' : Expr} {i a b c slot : Nat} {n : ExprNode} {t : DType} {l : Layout}

theorem insert_ok (h : (insert n).run e = .ok (i, e')) : e.Adds n i e' := by
  have hpair : e.insert n = (i, e') := Except.ok.inj h
  have hadds := e.adds_insert n
  rwa [hpair] at hadds

theorem node_ok (h : (node a).run e = .ok (n, e')) : n = e.node a ∧ e' = e := by
  cases h
  exact ⟨rfl, rfl⟩

theorem load_ok (h : (load slot t l).run e = .ok (i, e')) :
    e.Adds ⟨.load slot l, t, l.shape⟩ i e' :=
  insert_ok h

theorem const_ok {v : Value} (h : (const v t l).run e = .ok (i, e')) :
    e.Adds ⟨.const (v.normalize t) l, t, l.shape⟩ i e' :=
  insert_ok h

theorem unary_ok {op : UnaryOp} (h : (unary op a).run e = .ok (i, e')) :
    e.Adds ⟨.unary op a, (e.node a).dtype, (e.node a).shape⟩ i e' := by
  obtain ⟨n, e₁, hn, h⟩ := run_bind_ok h
  obtain ⟨rfl, rfl⟩ := node_ok hn
  exact insert_ok h

theorem cast_ok (h : (cast t a).run e = .ok (i, e')) :
    e.Adds ⟨.cast a, t, (e.node a).shape⟩ i e' := by
  obtain ⟨n, e₁, hn, h⟩ := run_bind_ok h
  obtain ⟨rfl, rfl⟩ := node_ok hn
  exact insert_ok h

theorem binary_ok {op : BinaryOp} (h : (binary op a b).run e = .ok (i, e')) :
    (e.node b).shape = (e.node a).shape ∧
      e.Adds ⟨.binary op a b, if op.isComparison then .bool else (e.node a).dtype,
        (e.node a).shape⟩ i e' := by
  obtain ⟨x, e₁, hx, h⟩ := run_bind_ok h
  obtain ⟨rfl, rfl⟩ := node_ok hx
  obtain ⟨y, e₂, hy, h⟩ := run_bind_ok h
  obtain ⟨rfl, rfl⟩ := node_ok hy
  obtain ⟨hshape, h⟩ := run_check_ok h
  obtain ⟨-, h⟩ := run_check_ok h
  exact ⟨hshape.symm, insert_ok h⟩

theorem ternary_ok {op : TernaryOp} (h : (ternary op a b c).run e = .ok (i, e')) :
    ((e.node b).shape = (e.node a).shape ∧ (e.node c).shape = (e.node a).shape) ∧
      e.Adds ⟨.ternary op a b c, (e.node b).dtype, (e.node a).shape⟩ i e' := by
  obtain ⟨x, e₁, hx, h⟩ := run_bind_ok h
  obtain ⟨rfl, rfl⟩ := node_ok hx
  obtain ⟨y, e₂, hy, h⟩ := run_bind_ok h
  obtain ⟨rfl, rfl⟩ := node_ok hy
  obtain ⟨z, e₃, hz, h⟩ := run_bind_ok h
  obtain ⟨rfl, rfl⟩ := node_ok hz
  obtain ⟨hsecond, h⟩ := run_check_ok h
  obtain ⟨hthird, h⟩ := run_check_ok h
  obtain ⟨-, h⟩ := run_check_ok h
  exact ⟨⟨hsecond.symm, hthird.symm⟩, insert_ok h⟩

theorem reduce_ok {op : ReduceOp} {axes : List Nat} (h : (reduce op axes a).run e = .ok (i, e')) :
    e.Adds ⟨.reduce op (Expr.sortedAxes axes) a, (e.node a).dtype,
      Expr.reducedShape (e.node a).shape (Expr.sortedAxes axes)⟩ i e' := by
  obtain ⟨x, e₁, hx, h⟩ := run_bind_ok h
  obtain ⟨rfl, rfl⟩ := node_ok hx
  split at h
  · cases h
  · exact insert_ok h

theorem store_ok (h : (store slot l a).run e = .ok (i, e')) :
    l.shape = (e.node a).shape ∧
      e.Adds ⟨.store slot l a, (e.node a).dtype, (e.node a).shape⟩ i e' := by
  obtain ⟨x, e₁, hx, h⟩ := run_bind_ok h
  obtain ⟨rfl, rfl⟩ := node_ok hx
  obtain ⟨hshape, h⟩ := run_check_ok h
  exact ⟨hshape, insert_ok h⟩

theorem sink_ok {parts : List Nat} (h : (sink parts).run e = .ok (i, e')) :
    e.Adds ⟨.sink parts, .void, []⟩ i e' :=
  insert_ok h

end ExprM

end LazyTensor

import LazyTensor.Proofs.Simplify.Algebra
import Mathlib.Algebra.Order.Ring.Int

/-!
# Ranges hold

The value of an index expression lies in its range. Where an expression has a range nothing in it
overflows, so its value is what exact arithmetic gives.
-/

namespace LazyTensor

def InRange (p : Int × Int) (x : Int) : Prop := p.1 ≤ x ∧ x ≤ p.2

open Width (FitsWord)

theorem fitsWord_of_between {lo hi x : Int} (hlo : FitsWord lo) (hhi : FitsWord hi) (h : lo ≤ x)
    (h' : x ≤ hi) : FitsWord x :=
  ⟨hlo.1.trans h, h'.trans hhi.2⟩

theorem fitsWord_of_zero_between {x y : Int} (hx : FitsWord x)
    (h : min 0 x ≤ y ∧ y ≤ max 0 x) : FitsWord y := by
  simp only [FitsWord, Width.minWord, Width.maxWord] at hx ⊢
  omega

section Operations

variable {op : BinaryOp} {a b c : Int × Int} {x y z lo hi n : Int}

open Value

theorem eval_index_of_raw (hop : op.isComparison = false) (hz : FitsWord z)
    (hraw : rawBinary op (int x) (int y) = some (int (wrapSigned 64 z))) :
    op.eval .index (int x) (int y) = some (int z) := by
  rw [eval_index_wrap hop hraw, wrapSigned_of_fitsWord hz]

theorem eval_index_add (h : FitsWord (x + y)) :
    BinaryOp.add.eval .index (int x) (int y) = some (int (x + y)) :=
  eval_index_of_raw rfl h rfl

theorem eval_index_mul (h : FitsWord (x * y)) :
    BinaryOp.mul.eval .index (int x) (int y) = some (int (x * y)) :=
  eval_index_of_raw rfl h rfl

theorem eval_index_idiv (hy : y ≠ 0) (h : FitsWord (x.tdiv y)) :
    BinaryOp.idiv.eval .index (int x) (int y) = some (int (x.tdiv y)) :=
  eval_index_of_raw rfl h (by rw [rawBinary, idiv, if_neg hy])

theorem eval_index_mod (hy : y ≠ 0) (h : FitsWord (x.tmod y)) :
    BinaryOp.mod.eval .index (int x) (int y) = some (int (x.tmod y)) :=
  eval_index_of_raw rfl h (by rw [rawBinary, mod, if_neg hy])

theorem checkedRange_eq_some (h : checkedRange lo hi = some c) :
    (FitsWord lo ∧ FitsWord hi) ∧ c = (lo, hi) := by
  rw [checkedRange] at h
  split at h
  case isTrue hfits => exact ⟨hfits, (Option.some.inj h).symm⟩
  case isFalse => cases h

theorem mul_between (hx : InRange a x) (y : Int) :
    (a.1 * y ≤ x * y ∨ a.2 * y ≤ x * y) ∧ (x * y ≤ a.1 * y ∨ x * y ≤ a.2 * y) := by
  rcases le_total 0 y with hy | hy
  · exact ⟨.inl (Int.mul_le_mul_of_nonneg_right hx.1 hy),
      .inr (Int.mul_le_mul_of_nonneg_right hx.2 hy)⟩
  · exact ⟨.inr (Int.mul_le_mul_of_nonpos_right hx.2 hy),
      .inl (Int.mul_le_mul_of_nonpos_right hx.1 hy)⟩

theorem mul_between_corners (hx : InRange a x) (hy : InRange b y) :
    min (min (a.1 * b.1) (a.1 * b.2)) (min (a.2 * b.1) (a.2 * b.2)) ≤ x * y ∧
      x * y ≤ max (max (a.1 * b.1) (a.1 * b.2)) (max (a.2 * b.1) (a.2 * b.2)) := by
  have hx := mul_between hx y
  have hlow := mul_between hy a.1
  have hhigh := mul_between hy a.2
  simp only [mul_comm y, mul_comm b.1, mul_comm b.2] at hlow hhigh
  omega

theorem mulRangeOf_sound (h : mulRangeOf a b = some c) (hx : InRange a x) (hy : InRange b y) :
    FitsWord (x * y) ∧ InRange c (x * y) := by
  simp only [mulRangeOf, mulCorners, List.all_cons, List.all_nil, Bool.and_true, Bool.and_eq_true,
    decide_eq_true_eq, Option.ite_none_right_eq_some, Option.some.injEq, List.foldl_cons,
    List.foldl_nil] at h
  obtain ⟨hfits, rfl⟩ := h
  have hbetween := mul_between_corners hx hy
  simp only [InRange, FitsWord] at hfits ⊢
  omega

theorem tdiv_tmod_of_nonneg (hn : 0 < n) (hx : 0 ≤ x) :
    (0 ≤ x.tdiv n ∧ x.tdiv n ≤ x) ∧ 0 ≤ x.tmod n ∧ x.tmod n ≤ x := by
  have hdiv := Int.tdiv_nonneg hx hn.le
  have hmod := Int.tmod_nonneg n hx
  have heq := Int.mul_tdiv_add_tmod x n
  have hmul : x.tdiv n ≤ n * x.tdiv n := le_mul_of_one_le_left hdiv hn
  omega

theorem tdiv_tmod_between (hn : 0 < n) (x : Int) :
    (min 0 x ≤ x.tdiv n ∧ x.tdiv n ≤ max 0 x) ∧ min 0 x ≤ x.tmod n ∧ x.tmod n ≤ max 0 x := by
  rcases le_total 0 x with h | h
  · have hbounds := tdiv_tmod_of_nonneg hn h
    omega
  · have hbounds := tdiv_tmod_of_nonneg hn (Int.neg_nonneg_of_nonpos h)
    rw [Int.neg_tdiv, Int.neg_tmod] at hbounds
    omega

theorem modRange_sound (hn : 0 < n) (hx : InRange a x) : InRange (modRange a n) (x.tmod n) := by
  have hlt := Int.tmod_lt_of_pos x hn
  have hlt' := Int.tmod_lt_of_pos (-x) hn
  rw [Int.neg_tmod] at hlt'
  have hbetween := (tdiv_tmod_between hn x).2
  obtain ⟨hlo, hhi⟩ := hx
  simp only [InRange, modRange]
  split <;> dsimp only <;> omega

theorem fitsWord_add (h : binaryRange .add a b = some c) (hx : InRange a x) (hy : InRange b y) :
    FitsWord (x + y) := by
  obtain ⟨hfits, -⟩ := checkedRange_eq_some h
  exact fitsWord_of_between hfits.1 hfits.2 (add_le_add hx.1 hy.1) (add_le_add hx.2 hy.2)

theorem binaryRange_sound (h : binaryRange op a b = some c) (hx : InRange a x) (hy : InRange b y)
    (hfx : FitsWord x) (hfy : FitsWord y) :
    ∃ z, op.eval .index (int x) (int y) = some (int z) ∧ FitsWord z ∧ InRange c z := by
  have hsame : b.1 = b.2 → y = b.1 := fun hb => by
    have := hy.1
    have := hy.2
    omega
  cases op with
  | add =>
    have hz := fitsWord_add h hx hy
    obtain ⟨-, rfl⟩ := checkedRange_eq_some h
    exact ⟨_, eval_index_add hz, hz, add_le_add hx.1 hy.1, add_le_add hx.2 hy.2⟩
  | sub =>
    obtain ⟨hfits, rfl⟩ := checkedRange_eq_some h
    have hz := fitsWord_of_between hfits.1 hfits.2 (sub_le_sub hx.1 hy.2) (sub_le_sub hx.2 hy.1)
    exact ⟨_, eval_index_of_raw rfl hz rfl, hz, sub_le_sub hx.1 hy.2, sub_le_sub hx.2 hy.1⟩
  | mul =>
    obtain ⟨hfits, hz⟩ := mulRangeOf_sound h hx hy
    exact ⟨_, eval_index_mul hfits, hfits, hz⟩
  | max =>
    obtain rfl := Option.some.inj h
    have hz : FitsWord (max x y) := by
      rcases max_choice x y with h | h <;> rw [h] <;> assumption
    refine ⟨_, eval_index_of_raw rfl hz ?_, hz, max_le_max hx.1 hy.1, max_le_max hx.2 hy.2⟩
    rw [wrapSigned_of_fitsWord hz]
    rfl
  | idiv =>
    simp only [binaryRange, Option.ite_none_right_eq_some, Option.some.injEq] at h
    obtain ⟨⟨hb, hpos⟩, rfl⟩ := h
    obtain rfl := hsame hb
    have hz := fitsWord_of_zero_between hfx (tdiv_tmod_between hpos x).1
    exact ⟨_, eval_index_idiv hpos.ne' hz, hz, Int.tdiv_le_tdiv hpos hx.1,
      Int.tdiv_le_tdiv hpos hx.2⟩
  | mod =>
    simp only [binaryRange, Option.ite_none_right_eq_some, Option.some.injEq] at h
    obtain ⟨⟨hb, hpos⟩, rfl⟩ := h
    obtain rfl := hsame hb
    have hz := fitsWord_of_zero_between hfx (tdiv_tmod_between hpos x).2
    exact ⟨_, eval_index_mod hpos.ne' hz, hz, modRange_sound hpos hx⟩
  | _ => cases h

theorem fitsWord_mul (h : binaryRange .mul a b = some c) (hx : InRange a x) (hy : InRange b y) :
    FitsWord (x * y) :=
  (mulRangeOf_sound h hx hy).1

end Operations

namespace Graph

variable {S : Setting} {A : Binder → Prop} {g g' : Graph} {r a b : Ref} {env : Env} {v : Value}
  {x : Int} {op : BinaryOp} {depth : Nat} {p : Int × Int} {val : Ref → Option Value} {P : Ref → Prop}

theorem binaryRange_of_bind
    (h : ((g.rangeAt depth a).bind fun x => if a = b then binaryRange op x x else (g.rangeAt depth
      b).bind (binaryRange op x)) = some p) :
    ∃ p' q, g.rangeAt depth a = some p' ∧ g.rangeAt depth b = some q ∧
      binaryRange op p' q = some p := by
  obtain ⟨p', hp, h⟩ := Option.bind_eq_some_iff.mp h
  split at h
  case isTrue heq => exact ⟨p', p', hp, heq ▸ hp, h⟩
  case isFalse =>
    obtain ⟨q, hq, h⟩ := Option.bind_eq_some_iff.mp h
    exact ⟨p', q, hp, hq, h⟩

theorem rangeAt_binary (hop : g.op r = .binary op a b) (h : g.rangeAt depth r = some p) :
    ∃ d p' q, g.rangeAt d a = some p' ∧ g.rangeAt d b = some q ∧ binaryRange op p' q = some p := by
  cases depth with
  | zero => cases h
  | succ depth =>
    rw [rangeAt] at h
    split at h
    case isFalse => cases h
    case isTrue =>
      rw [hop] at h
      exact ⟨depth, binaryRange_of_bind h⟩

/-! ### Values in range -/

/-- A valuation follows the operations and has every variable, launch index and loop counter in its
range, as some environment has it. -/
structure Assigns (g : Graph) (val : Ref → Option Value) : Prop extends g.Follows val where
  leaf : ∀ r v, (g.op r).kind ∈ [.defineVar, .special, .loop] → val r = some v →
    ∃ env, g.evalStep (fun _ => val) env r = some v

theorem assigns_value (hg : g.WellFormed) (env : Env) : g.Assigns (g.value env) where
  toFollows := follows_value hg env
  leaf r v hkind hv := by
    refine ⟨env, ?_⟩
    rw [← hv, value_eq]
    unfold evalStep
    cases hop : g.op r <;> first | rfl | simp [hop, Op.kind] at hkind

theorem Assigns.of_grows (hval : g'.Assigns val) (hg : g.WellFormed) (hgrows : g.Grows g') :
    g.Assigns val where
  toFollows := hval.toFollows.of_grows hg hgrows
  leaf r v hkind hv := by
    have hr : r < g.size := by
      by_contra hr
      simp [op_of_ge hg (Nat.le_of_not_lt hr), Op.kind] at hkind
    obtain ⟨env, h⟩ := hval.leaf r v (hgrows.op_eq hg hr ▸ hkind) hv
    refine ⟨env, h ▸ ?_⟩
    unfold evalStep
    rw [hgrows.op_eq hg hr]
    cases hop : g.op r <;> first | rfl | simp [hop, Op.kind] at hkind

/-- Nodes whose operands are among them have the types that their operations need. -/
def Checked (g : Graph) (P : Ref → Prop) : Prop :=
  ∀ r, P r → g.Admits (g.get r) ∧ ∀ x ∈ (g.op r).operands, P x

theorem Term.checked : g.Checked (g.Term S A) := fun _ hr => ⟨hr.typed.admits, fun _ => hr.operand⟩

theorem Constructed.checked (hg : g.Constructed) : g.Checked (· < g.size) := fun _ hr =>
  ⟨hg.admits hr, fun _ hx => hg.built.sound.source_lt hr (Op.operands_subset hx)⟩

theorem Checked.binary (hP : g.Checked P) (hr : P r) (hop : g.op r = .binary op a b)
    (hdtype : g.dtype r = .index) :
    (P a ∧ g.dtype a = .index) ∧ P b ∧ g.dtype b = .index := by
  obtain ⟨hadmits, hoperand⟩ := hP r hr
  change g.Admits ⟨g.op r, g.dtype r⟩ at hadmits
  simp only [hop, Op.operands, Op.sources, List.forall_mem_cons] at hoperand
  simp only [hop, Admits, BinaryOp.resultType, hdtype] at hadmits
  obtain ⟨hsame, -, ht⟩ := hadmits
  split at ht
  case isTrue => cases ht
  case isFalse => exact ⟨⟨hoperand.1, ht.symm⟩, hoperand.2.1, hsame.trans ht.symm⟩

/-- Where a node of index type has a range, its value lies in it. -/
theorem Assigns.inRange (hval : g.Assigns val) (hP : g.Checked P) (hr : P r)
    (hdtype : g.dtype r = .index) (hrange : g.rangeAt depth r = some p) (hv : val r = some v) :
    ∃ x, v = .int x ∧ FitsWord x ∧ InRange p x := by
  induction depth generalizing r p v with
  | zero => cases hrange
  | succ depth ih =>
    rw [rangeAt, if_pos (by rw [hdtype]; rfl)] at hrange
    obtain ⟨hadmits, hoperand⟩ := hP r hr
    change g.Admits ⟨g.op r, g.dtype r⟩ at hadmits
    have hleaf := fun hkind => hval.leaf r v hkind hv
    split at hrange
    case h_1 w hop =>
      obtain rfl := Option.some.inj ((hval.const (const?_eq_some.mpr hop)).symm.trans hv)
      simp only [hop, Admits, hdtype] at hadmits
      obtain ⟨x, rfl, hx⟩ := Value.hasType_index_iff.mp (hadmits (Or.inl rfl))
      obtain rfl := Option.some.inj hrange
      exact ⟨x, rfl, hx, le_rfl, le_rfl⟩
    case h_2 w hop =>
      obtain rfl := Option.some.inj hrange
      simp only [hop, evalStep, Option.ite_none_right_eq_some, Option.some.injEq] at hleaf
      obtain ⟨env, hbounds, rfl⟩ := hleaf (by simp [Op.kind])
      exact ⟨_, rfl, hbounds.2.2, hbounds.1, hbounds.2.1⟩
    case h_3 start stop axis hop =>
      simp only [hop, Op.operands, Op.sources, List.forall_mem_cons] at hoperand
      simp only [hop, Admits] at hadmits
      simp only [Option.bind_eq_bind, Option.bind_eq_some_iff,
        Option.ite_none_right_eq_some, Option.some.injEq] at hrange
      obtain ⟨first, hfirst, past, hpast, -, rfl⟩ := hrange
      simp only [hop, evalStep, intWith, Option.bind_eq_bind, Option.bind_eq_some_iff,
        Option.ite_none_right_eq_some, Option.some.injEq] at hleaf
      obtain ⟨env, _, ⟨u, hu, hx⟩, _, ⟨w, hw, hy⟩, hk, rfl⟩ := hleaf (by simp [Op.kind])
      obtain ⟨x, rfl, hfx, hx'⟩ := ih hoperand.1 hadmits.2.1 hfirst hu
      obtain ⟨y, rfl, hfy, hy'⟩ := ih hoperand.2.1 hadmits.2.2 hpast hw
      obtain rfl := Option.some.inj hx
      obtain rfl := Option.some.inj hy
      simp only [InRange, FitsWord] at *
      exact ⟨_, rfl, by omega⟩
    case h_4 axis size hop =>
      simp only [hop, Op.operands, Op.sources, List.forall_mem_cons] at hoperand
      simp only [hop, Admits] at hadmits
      simp only [Option.bind_eq_bind, Option.bind_eq_some_iff,
        Option.ite_none_right_eq_some, Option.some.injEq] at hrange
      obtain ⟨past, hpast, -, rfl⟩ := hrange
      simp only [hop, evalStep, intWith, Option.bind_eq_bind, Option.bind_eq_some_iff,
        Option.ite_none_right_eq_some, Option.some.injEq] at hleaf
      obtain ⟨env, _, ⟨u, hu, hx⟩, hk, rfl⟩ := hleaf (by simp [Op.kind])
      obtain ⟨x, rfl, hfx, hx'⟩ := ih hoperand.1 hadmits.2 hpast hu
      obtain rfl := Option.some.inj hx
      simp only [InRange, FitsWord, Width.minWord] at *
      exact ⟨_, rfl, by omega⟩
    case h_5 op a b hop =>
      obtain ⟨p', q, hp, hq, hrange⟩ := binaryRange_of_bind hrange
      obtain ⟨⟨ha, hta⟩, hb, htb⟩ := hP.binary hr hop hdtype
      obtain ⟨u, w, hu, hw, hv⟩ := (hval.binary hop).mp hv
      obtain ⟨x, rfl, hfx, hx⟩ := ih ha hta hp hu
      obtain ⟨y, rfl, hfy, hy⟩ := ih hb htb hq hw
      obtain ⟨z, hz, hfz, hin⟩ := binaryRange_sound hrange hx hy hfx hfy
      rw [hdtype, hz] at hv
      exact ⟨z, (Option.some.inj hv).symm, hfz, hin⟩
    case h_6 => cases hrange

/-- Every value of a node of index type lies in the range of the node, whatever values in their own
ranges its variables, launch indices and loop counters have. -/
theorem value_mem_range {lo hi : Int} (hg : g.Constructed) (hr : r < g.size)
    (hdtype : g.dtype r = .index) (hrange : g.range r = some (lo, hi)) (hval : g.Assigns val)
    (hv : val r = some v) : ∃ x, v = .int x ∧ lo ≤ x ∧ x ≤ hi := by
  obtain ⟨x, rfl, -, hx⟩ := hval.inRange hg.checked hr hdtype hrange hv
  exact ⟨x, rfl, hx⟩

/-- A loop counter below four times the remainder by four of a variable of either sign. -/
def signedProduct : Graph :=
  [.symbol ⟨"i", -7, 9, none⟩, .const (.int 0) .index, .const (.int 4) .index,
    .loop 1 2 ⟨.global, 0⟩, .binary .mod 0 2, .binary .mul 3 4].foldl
    (fun g c => ((Construction.build c).run.run g).2) {}

theorem value_mem_range_signedProduct :
    signedProduct.range 5 = some (-9, 9) ∧
      signedProduct.value ({ Env.empty with var := fun _ => -7 }.setIter ⟨.global, 0⟩ 3) 5 =
        some (.int (-9)) ∧ ∃ x, Value.int (-9) = .int x ∧ -9 ≤ x ∧ x ≤ 9 := by
  have hg : signedProduct.Constructed := by
    refine .call _ (.call _ (.call _ (.call _ (.call _ (.call _ .empty ?_) ?_) ?_) ?_) ?_) ?_
    all_goals decide +kernel
  have hrange : signedProduct.range 5 = some (-9, 9) := by decide +kernel
  have heval : signedProduct.evalAt 4
      ({ Env.empty with var := fun _ => -7 }.setIter ⟨.global, 0⟩ 3) 5 = some (.int (-9)) := by
    decide +kernel
  have hv := value_eq_some.mpr (evaluates_of_evalAt heval)
  exact ⟨hrange, hv, value_mem_range hg (by decide +kernel) (by decide +kernel) hrange
    (assigns_value hg.built.sound.wellFormed _) hv⟩

theorem rangeAt_congr {r' : Ref} (h : g'.get r' = g.get r)
    (hsources : ∀ depth' < depth, ∀ s ∈ (g.op r).sources, g'.rangeAt depth' s = g.rangeAt depth' s) :
    g'.rangeAt depth r' = g.rangeAt depth r := by
  cases depth with
  | zero => rfl
  | succ depth =>
    replace hsources := hsources depth (Nat.lt_succ_self depth)
    have hop : g'.op r' = g.op r := by rw [Graph.op, h, Graph.op]
    have hdtype : g'.dtype r' = g.dtype r := by rw [Graph.dtype, h, Graph.dtype]
    rw [rangeAt, rangeAt, hop, hdtype]
    cases hr : g.op r with
    | loop start stop axis | binary op a b =>
      simp only [hr, Op.sources, List.forall_mem_cons] at hsources
      simp only [hsources.1, hsources.2.1]
    | special axis size =>
      simp only [hr, Op.sources, List.forall_mem_cons] at hsources
      simp only [hsources.1]
    | _ => rfl

theorem rangeAt_resolve (hg : g.WellFormed) (depth : Nat) (r : Ref) :
    g.rangeAt depth (g.resolve r) = g.rangeAt depth r :=
  rangeAt_congr (get_resolve hg r) fun _ _ _ _ => rfl

theorem Grows.rangeAt_eq (h : g.Grows g') (hg : g.Sound) (hr : r < g.size) (depth : Nat) :
    g'.rangeAt depth r = g.rangeAt depth r := by
  induction depth using Nat.strong_induction_on generalizing r with
  | _ depth ih =>
    exact rangeAt_congr (h.get_eq hg.wellFormed hr) fun d hd s hs => ih d hd (hg.source_lt hr hs)

end Graph

section Values

open Value

variable {t : DType} {u w c v : Value} {x y : Int}

theorem eval_lt_of_toInt? (ht : t.isInt = true) (hu : u.HasType t) (hw : w.HasType t)
    (hx : u.toInt? = some x) (hy : w.toInt? = some y) :
    BinaryOp.lt.eval .bool u w = some (bool (decide (x < y))) := by
  rcases kinds_of_isInt ht hu hw with ⟨m, n, rfl, rfl⟩ | ⟨m, n, rfl, rfl⟩
  · obtain rfl := Option.some.inj hx
    obtain rfl := Option.some.inj hy
    rfl
  · simp only [toInt?, Option.ite_none_right_eq_some, Option.some.injEq] at hx hy
    obtain ⟨-, rfl⟩ := hx
    obtain ⟨-, rfl⟩ := hy
    simp [BinaryOp.eval, BinaryOp.isComparison, rawBinary, lt]

theorem eval_of_lt_divisor (ht : t.isInt = true) (hu : u.HasType t) (hc : c.HasType t)
    (hx : u.toInt? = some x) (hy : c.toInt? = some y) (h0 : 0 ≤ x) (hlt : x < y) :
    (BinaryOp.mod.eval t u c = some v → v = u) ∧
      (BinaryOp.idiv.eval t u c = some v → v = ofZ t 0) := by
  rcases kinds_of_isInt ht hu hc with ⟨m, n, rfl, rfl⟩ | ⟨m, n, rfl, rfl⟩
  · obtain rfl := Option.some.inj hx
    obtain rfl := Option.some.inj hy
    have hne : n ≠ 0 := by omega
    have hself := (cast_word ht m).1
    rw [show ofZ t m = int m from ofZ_toZ ht hu] at hself
    simp only [BinaryOp.eval, BinaryOp.isComparison, Bool.false_eq_true, if_false, rawBinary, mod,
      idiv, if_neg hne, Option.bind_some, Int.tmod_eq_of_lt h0 hlt, Int.tdiv_eq_zero_of_lt h0 hlt,
      hself, (cast_word ht 0).1, Option.some.injEq]
    exact ⟨Eq.symm, Eq.symm⟩
  · simp only [toInt?, Option.ite_none_right_eq_some, Option.some.injEq] at hx hy
    obtain ⟨-, rfl⟩ := hx
    obtain ⟨-, rfl⟩ := hy
    have hlt : m < n := by omega
    have hself : (uint m).cast t = some (uint m) := hu
    have hzero : (uint 0).cast t = some (ofZ t 0) := (cast_word ht 0).2
    simp only [BinaryOp.eval, BinaryOp.isComparison, Bool.false_eq_true, if_false, rawBinary, mod,
      idiv, if_neg (Nat.ne_zero_of_lt hlt), Option.bind_some, Nat.mod_eq_of_lt hlt,
      Nat.div_eq_of_lt hlt, hself, hzero, Option.some.injEq]
    exact ⟨Eq.symm, Eq.symm⟩

end Values

namespace Rule

open LazyTensor.Graph Attempt

variable {S : Setting} {A : Binder → Prop} {g g' : Graph} {r : Ref} {p : Int × Int}

/-- An operand of integer type whose range is known is an index or a constant. -/
def RangesHold (g : Graph) (r : Ref) : Prop :=
  ∀ s ∈ (g.op r).operands, (g.range s).isSome → g.dtype s ≠ .index → ∃ v, g.op s = .const v

theorem inRange_operand {s : Ref} {env : Env} {v : Value} (hg : g.WellFormed) (hr : g.Term S A r)
    (hholds : RangesHold g r) (hs : s ∈ (g.op r).operands) (hp : g.range s = some p)
    (hv : g.value env s = some v) : ∃ x, v.toInt? = some x ∧ InRange p x := by
  by_cases hindex : g.dtype s = .index
  · obtain ⟨x, rfl, -, hx⟩ :=
      (assigns_value hg env).inRange Term.checked (hr.operand hs) hindex hp hv
    exact ⟨x, rfl, hx⟩
  · obtain ⟨w, hop⟩ := hholds s hs (by rw [hp]; rfl) hindex
    obtain rfl := Option.some.inj ((value_const hop).symm.trans hv)
    rw [range, maxRangeDepth, rangeAt] at hp
    split at hp
    case isFalse => cases hp
    case isTrue =>
      rw [hop] at hp
      obtain ⟨x, hx, rfl⟩ := Option.map_eq_some_iff.mp hp
      exact ⟨x, hx, le_rfl, le_rfl⟩

theorem decideLess_sound {q : Int × Int} {x y : Int} {less : Bool}
    (h : decideLess p q = some less) (hx : InRange p x) (hy : InRange q y) :
    less = decide (x < y) := by
  obtain ⟨hx1, hx2⟩ := hx
  obtain ⟨hy1, hy2⟩ := hy
  rw [decideLess] at h
  split at h
  · obtain rfl := Option.some.inj h
    exact (decide_eq_true (by omega)).symm
  · split at h
    · obtain rfl := Option.some.inj h
      exact (decide_eq_false (by omega)).symm
    · cases h

theorem isInt_of_range (h : g.range r = some p) : (g.dtype r).isInt = true := by
  rw [range, maxRangeDepth, rangeAt] at h
  split at h
  case isTrue hint => exact hint
  case isFalse => cases h

theorem replaces_of_bounds {n : Ref} (h : g.Bounds g' r n) (hg : g.WellFormed) (hgrows : g.Grows g')
    (hr : g.Term S A r) (hholds : RangesHold g r) : g.Replaces S A r n g' := by
  cases h with
  | @less a b _ less hop hless hn =>
    simp only [Option.bind_eq_bind, Option.bind_eq_some_iff] at hless
    obtain ⟨p, hp, q, hq, hless⟩ := hless
    have hparts := hr.binary hop
    have hdtype : g.dtype r = .bool := hparts.dtype
    rw [← hdtype] at hn
    refine hn.replaces hr (hdtype ▸ Or.inr rfl) fun env v hv => ?_
    obtain ⟨u, w, hu, hw, hv⟩ := (value_binary hop).mp hv
    have hin := inRange_operand hg hr hholds (by simp [hop, Op.operands, Op.sources]) hp hu
    have hin' := inRange_operand hg hr hholds (by simp [hop, Op.operands, Op.sources]) hq hw
    obtain ⟨x, hx, hin⟩ := hin
    obtain ⟨y, hy, hin'⟩ := hin'
    rw [hdtype, eval_lt_of_toInt? (isInt_of_range hp) (hparts.left.hasType hu)
      (hparts.hasType_right hw) hx hy, ← decideLess_sound hless hin hin'] at hv
    rw [hdtype, (Value.hasType_bool_iff.mpr ⟨less, rfl⟩).normalize_eq]
    exact (Option.some.inj hv).symm
  | @small op a b _ d p hop hd hp hbounds h =>
    obtain ⟨c, hc, hd⟩ := Option.bind_eq_some_iff.mp hd
    have hparts := hr.binary hop
    have hdtype := hparts.dtype_of_arithmetic (by rcases h with ⟨rfl, -⟩ | ⟨rfl, -⟩ <;> rfl)
    have hconst := always_const (const?_eq_some.mp hc)
    -- The dividend is not negative and less than the divisor.
    have hsmall : ∀ env v, g.value env r = some v → ∃ u, g.value env a = some u ∧
        op.eval (g.dtype a) u c = some v ∧ (BinaryOp.mod.eval (g.dtype a) u c = some v → v = u) ∧
          (BinaryOp.idiv.eval (g.dtype a) u c = some v → v = Value.ofZ (g.dtype a) 0) := by
      intro env v hv
      obtain ⟨u, w, hu, hw, hv⟩ := (value_binary hop).mp hv
      obtain rfl := Option.some.inj ((hconst env).symm.trans hw)
      obtain ⟨x, hx, hlo, hhi⟩ :=
        inRange_operand hg hr hholds (by simp [hop, Op.operands, Op.sources]) hp hu
      rw [hdtype] at hv
      exact ⟨u, hu, hv, eval_of_lt_divisor (isInt_of_range hp) (hparts.left.hasType hu)
        (hparts.hasType_right (hconst env)) hx hd (by omega) (by omega)⟩
    rcases h with ⟨rfl, rfl⟩ | ⟨rfl, hn⟩
    · rw [Replaces, hdtype]
      refine (hparts.left.result.grows hg hgrows).mono fun env v hv => ?_
      obtain ⟨u, hu, hv, hmod, -⟩ := hsmall env v hv
      rw [hmod hv]
      exact hu
    · refine hn.replaces hr (hdtype ▸ hparts.isPlain) fun env v hv => ?_
      obtain ⟨u, -, hv, -, hidiv⟩ := hsmall env v hv
      rw [hdtype]
      exact hidiv hv

theorem foldByRange_replaces (hg : g.Sound) (hr : g.Term S A r) (hholds : RangesHold g r) :
    Ensures (foldByRange r) g (g.Replaces S A r) :=
  (performs_foldByRange.ensures hg (hr.lt_size hg.wellFormed)).mono fun _ _ hgrows h =>
    replaces_of_bounds h hg.wellFormed hgrows hr hholds

end Rule

end LazyTensor

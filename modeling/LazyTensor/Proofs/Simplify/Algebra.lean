import LazyTensor.Proofs.Graph.Construction
import LazyTensor.Proofs.Graph.Result
import LazyTensor.Proofs.Graph.Twin
import LazyTensor.Proofs.Simplify.Uniform
import LazyTensor.Proofs.Value.Laws
import LazyTensor.Proofs.Value.Single

/-!
# Rules on arithmetic keep the value

A rule that finds a node to take the place of another gives one of the same type, with the value of
the other wherever that has one. This holds whatever values the nodes that are not operations have, as
long as those are of their types.
-/

namespace LazyTensor

namespace Graph

variable {S : Setting} {A : Binder → Prop} {g : Graph} {r a b c : Ref} {v : Value} {op : BinaryOp}

/-- A node that can take the place of `r`. -/
def Replaces (S : Setting) (A : Binder → Prop) (g : Graph) (r r' : Ref) (g' : Graph) : Prop :=
  g'.Result S A r' (g.dtype r) (g.value · r)

/-- What a well-formed binary operation reads. -/
structure BinaryParts (S : Setting) (A : Binder → Prop) (g : Graph) (r : Ref) (op : BinaryOp)
    (a b : Ref) : Prop where
  left : g.Term S A a
  right : g.Term S A b
  isPlain : (g.dtype a).IsPlain
  dtype_right : g.dtype b = g.dtype a
  accepts : op.accepts (g.dtype a) = true
  dtype : g.dtype r = op.resultType (g.dtype a)

theorem Term.binary (hr : g.Term S A r) (hop : g.op r = .binary op a b) :
    g.BinaryParts S A r op a b := by
  have htyped := hr.typed
  simp only [Typed, hop] at htyped
  exact ⟨hr.operand (by simp [hop, Op.operands, Op.sources]),
    hr.operand (by simp [hop, Op.operands, Op.sources]), htyped.1, htyped.2.1, htyped.2.2.1,
    htyped.2.2.2⟩

theorem BinaryParts.hasType_right (h : g.BinaryParts S A r op a b) {env : Env}
    (hv : g.value env b = some v) : v.HasType (g.dtype a) :=
  h.dtype_right ▸ h.right.hasType hv

theorem resultType_of_arithmetic (hop : op.isComparison = false) (t : DType) :
    op.resultType t = t := by
  rw [BinaryOp.resultType, hop, if_neg Bool.false_ne_true]

theorem BinaryParts.dtype_of_arithmetic (h : g.BinaryParts S A r op a b)
    (hop : op.isComparison = false) : g.dtype r = g.dtype a := by
  rw [h.dtype, resultType_of_arithmetic hop]

/-- A node has the same value in every environment. -/
def Always (g : Graph) (r : Ref) (v : Value) : Prop := ∀ env, g.value env r = some v

theorem always_const (hop : g.op r = .const v) : g.Always r v := fun _ => value_const hop

variable {g' : Graph} {val : Ref → Option Value} {P : Ref → Prop} {n : Ref} {t : DType}

theorem HoldsConst.replaces (h : g'.HoldsConst v (g.dtype r) n) (hr : g.Term S A r)
    (ht : (g.dtype r).IsPlain)
    (hv : ∀ env w, g.value env r = some w → w = v.normalize (g.dtype r)) : g.Replaces S A r n g' := by
  refine (result_const h ht hr.placed.int (Value.hasType_normalize ht v)).mono fun env w hw => ?_
  rw [hv env w hw]

/-- A valuation gives every operation the value that it has on those of its operands. -/
structure Follows (g : Graph) (val : Ref → Option Value) : Prop where
  resolve : ∀ r, val (g.resolve r) = val r
  operation : ∀ r, (g.op r).kind ∈ [.const, .cast, .unary, .binary, .ternary] →
    val r = g.evalStep (fun _ => val) .empty r

theorem follows_value (hg : g.WellFormed) (env : Env) : g.Follows (g.value env) where
  resolve := value_resolve hg env
  operation r hr := by
    rw [value_eq]
    unfold evalStep
    cases hop : g.op r <;> simp_all [Op.kind]

namespace Follows

theorem of_grows (hval : g'.Follows val) (hg : g.WellFormed) (hgrows : g.Grows g') :
    g.Follows val where
  resolve r := by
    by_cases hr : r < g.size
    · rw [← hgrows.resolve_eq hg hr, hval.resolve]
    · rw [resolve_of_ge hg (Nat.le_of_not_lt hr)]
  operation r hkind := by
    have hr : r < g.size := by
      by_contra hr
      simp [op_of_ge hg (Nat.le_of_not_lt hr), Op.kind] at hkind
    rw [hval.operation r (hgrows.op_eq hg hr ▸ hkind)]
    unfold evalStep
    rw [hgrows.op_eq hg hr, hgrows.dtype_eq hg hr]
    cases hop : g.op r <;> simp_all [Op.kind]

theorem const (hval : g.Follows val) (hr : g.const? r = some v) : val r = some v := by
  have hop := const?_eq_some.mp hr
  rw [hval.operation r (by simp [hop, Op.kind]), evalStep, hop]

theorem binary (hval : g.Follows val) (hop : g.op r = .binary op a b) :
    val r = some v ↔ ∃ x y, val a = some x ∧ val b = some y ∧ op.eval (g.dtype r) x y = some v := by
  rw [hval.operation r (by simp [hop, Op.kind]), evalStep, hop]
  simp only [Option.bind_eq_bind, Option.bind_eq_some_iff, exists_and_left]

theorem ternary {op : TernaryOp} {c : Ref} (hval : g.Follows val) (hop : g.op r = .ternary op a b c) :
    val r = some v ↔ ∃ x y z, val a = some x ∧ val b = some y ∧ val c = some z ∧
      op.eval (g.dtype r) x y z = some v := by
  rw [hval.operation r (by simp [hop, Op.kind]), evalStep, hop]
  simp only [Option.bind_eq_bind, Option.bind_eq_some_iff, exists_and_left]

end Follows

theorem HoldsConst.dtype_eq (h : g.HoldsConst v t r) : g.dtype r = t := Holds.dtype_eq h

theorem HoldsConst.value (h : g.HoldsConst v t r) (hval : g.Follows val) :
    val r = some (v.normalize t) :=
  hval.const (const?_eq_some.mpr (Holds.op_eq h))

theorem Applies.dtype_eq (h : g.Applies op a b r) : g.dtype r = op.resultType (g.dtype a) :=
  h.holds.dtype_eq

theorem Applies.value (h : g.Applies op a b r) (hval : g.Follows val) :
    val r = some v ↔ ∃ x y, val a = some x ∧ val b = some y ∧
      op.eval (op.resultType (g.dtype a)) x y = some v := by
  rw [hval.binary h.holds.op_eq, hval.resolve, hval.resolve, h.dtype_eq]

theorem isPlain_ite {c : Prop} [Decidable c] (ht : t.IsPlain) : (if c then .bool else t).IsPlain := by
  split
  · exact .inr rfl
  · exact ht

/-- A valuation follows the operations of given nodes and theirs, which take operands of the types
they are for, with values of the right types. -/
structure Interprets (g : Graph) (val : Ref → Option Value) (P : Ref → Prop) : Prop
    extends g.Follows val where
  lt_size : ∀ {r}, P r → r < g.size
  operand : ∀ {r x}, P r → x ∈ (g.op r).operands → P x
  admits : ∀ {r}, P r → g.Admits (g.get r)
  hasType : ∀ {r v}, P r → (g.dtype r).IsPlain → val r = some v → v.HasType (g.dtype r)

namespace Interprets

variable (h : g.Interprets val P)

include h

theorem parts (hr : P r) (hop : g.op r = .binary op a b) :
    P a ∧ P b ∧ g.dtype b = g.dtype a ∧ g.dtype r = op.resultType (g.dtype a) := by
  have hadmits : g.Admits ⟨g.op r, g.dtype r⟩ := h.admits hr
  rw [hop] at hadmits
  exact ⟨h.operand hr (by simp [hop, Op.operands, Op.sources]),
    h.operand hr (by simp [hop, Op.operands, Op.sources]), hadmits.1, hadmits.2.2⟩

theorem values (hr : P r) (hop : g.op r = .binary op a b) (ht : (g.dtype a).IsPlain)
    (hv : val r = some v) :
    ∃ x y, val a = some x ∧ val b = some y ∧ x.HasType (g.dtype a) ∧ y.HasType (g.dtype a) ∧
      op.eval (op.resultType (g.dtype a)) x y = some v := by
  obtain ⟨ha, hb, hsame, hdtype⟩ := h.parts hr hop
  obtain ⟨x, y, hx, hy, hv⟩ := (h.binary hop).mp hv
  exact ⟨x, y, hx, hy, h.hasType ha ht hx, hsame ▸ h.hasType hb (hsame ▸ ht) hy, hdtype ▸ hv⟩

theorem isPlain (hr : P r) (hplain : ∀ s ∈ (g.op r).operands, (g.dtype s).IsPlain)
    (hkind : (g.op r).kind ∈ [.unary, .binary, .ternary]) : (g.dtype r).IsPlain := by
  have hadmits : g.Admits ⟨g.op r, g.dtype r⟩ := h.admits hr
  cases hop : g.op r with
  | unary op a =>
    simp only [hop, Admits] at hadmits
    exact hadmits.1 ▸ hplain a (by simp [hop, Op.operands, Op.sources])
  | binary op a b =>
    simp only [hop, Admits] at hadmits
    rw [hadmits.2.2]
    exact isPlain_ite (hplain a (by simp [hop, Op.operands, Op.sources]))
  | ternary op a b c =>
    simp only [hop, Admits] at hadmits
    exact hadmits.1 ▸ hplain b (by simp [hop, Op.operands, Op.sources])
  | _ => simp [hop, Op.kind] at hkind

theorem normalize_eq (hr : P r) (hplain : ∀ s ∈ (g.op r).operands, (g.dtype s).IsPlain)
    (hkind : (g.op r).kind ∈ [.cast, .unary, .binary, .ternary]) (hv : val r = some v) :
    v.normalize (g.dtype r) = v := by
  rcases List.mem_cons.mp hkind with hcast | hkind
  · cases hop : g.op r with
    | cast a =>
      have ha : a ∈ (g.op r).operands := by simp [hop, Op.operands, Op.sources]
      rw [h.operation r (by simp [hop, Op.kind]), evalStep, hop] at hv
      obtain ⟨x, hx, hv⟩ := Option.bind_eq_some_iff.mp hv
      exact Value.normalize_of_cast (hplain a ha) (h.hasType (h.operand hr ha) (hplain a ha) hx) hv
    | _ => simp [hop, Op.kind] at hcast
  · exact (h.hasType hr (h.isPlain hr hplain hkind) hv).normalize_eq

theorem product {p shared x : Ref} (hp : P p) (hop : g.op p = .binary .mul a b)
    (hab : a = shared ∧ b = x ∨ b = shared ∧ a = x) (ht : (g.dtype p).IsPlain) :
    g.dtype shared = g.dtype p ∧ g.dtype x = g.dtype p ∧
      ∀ v, val p = some v → ∃ k m, val shared = some k ∧ val x = some m ∧ k.HasType (g.dtype p) ∧
        m.HasType (g.dtype p) ∧ BinaryOp.mul.eval (g.dtype p) k m = some v := by
  obtain ⟨-, -, hsame, hdtype⟩ := h.parts hp hop
  rw [resultType_of_arithmetic rfl] at hdtype
  have hvalues : ∀ v, val p = some v → _ := fun v => h.values hp hop (hdtype ▸ ht)
  rw [resultType_of_arithmetic rfl, ← hdtype] at hvalues
  rcases hab with ⟨rfl, rfl⟩ | ⟨rfl, rfl⟩
  · exact ⟨hdtype.symm, hsame.trans hdtype.symm, hvalues⟩
  · refine ⟨hsame.trans hdtype.symm, hdtype.symm, fun v hv => ?_⟩
    obtain ⟨k, m, hk, hm, hkt, hmt, hv⟩ := hvalues v hv
    refine ⟨m, k, hm, hk, hmt, hkt, ?_⟩
    rwa [BinaryOp.eval_comm rfl (hmt.isPlain ht) (hkt.isPlain ht)]

end Interprets

theorem Interprets.select {cond yes no : Ref} (h : g.Interprets val P) (hr : P r)
    (hop : g.op r = .ternary .select cond yes no)
    (hplain : ∀ s ∈ (g.op r).operands, (g.dtype s).IsPlain) :
    g.dtype yes = g.dtype r ∧ g.dtype no = g.dtype r ∧ ∀ v, val r = some v → ∃ x,
      val cond = some x ∧ val (if x.truthy then yes else no) = some v := by
  have hadmits : g.Admits ⟨g.op r, g.dtype r⟩ := h.admits hr
  simp only [hop, Admits] at hadmits
  obtain ⟨hyes, hno, -⟩ := hadmits
  refine ⟨hyes, hno, fun v hv => ?_⟩
  obtain ⟨x, y, z, hx, hy, hz, hv⟩ := (h.ternary hop).mp hv
  refine ⟨x, hx, ?_⟩
  have htype : ∀ s ∈ (g.op r).operands, ∀ u, val s = some u → g.dtype s = g.dtype r →
      u.cast (g.dtype r) = some u := fun s hs u hu ht =>
    ht ▸ h.hasType (h.operand hr hs) (hplain s hs) hu
  simp only [hop, Op.operands, Op.sources, List.forall_mem_cons] at htype
  simp only [TernaryOp.eval, Value.rawTernary, Option.bind_some] at hv
  split at hv
  · case isTrue hxt => rw [if_pos hxt, hy, ← htype.2.1 y hy hyes, hv]
  · case isFalse hxt => rw [if_neg hxt, hz, ← htype.2.2.1 z hz hno, hv]

theorem Reduces.sound (hred : g.Reduces g' r n) (hg : g.WellFormed) (hgrows : g.Grows g')
    (hval' : g'.Follows val) (h : g.Interprets val P) (hr : P r)
    (hplain : ∀ s ∈ (g.op r).operands, (g.dtype s).IsPlain) :
    g'.dtype n = g.dtype r ∧ ∀ v, val r = some v → val n = some v := by
  have hval := h.toFollows
  have hleft : ∀ {op a b}, g.op r = .binary op a b → (g.dtype a).IsPlain := fun hop =>
    hplain _ (by simp [hop, Op.operands, Op.sources])
  have hold : ∀ {s}, P s → g'.dtype s = g.dtype s := fun hs => hgrows.dtype_eq hg (h.lt_size hs)
  cases hred with
  | fold hkind hw hn =>
    refine ⟨hn.dtype_eq, fun v hv => ?_⟩
    have hvalue := evalStep_mono (fun _ s u hu => hval.const hu) hw
    rw [← hval.operation r (List.mem_cons_of_mem _ hkind)] at hvalue
    obtain rfl := Option.some.inj (hvalue.symm.trans hv)
    rw [hn.value hval', h.normalize_eq hr hplain hkind hvalue]
  | swap hop hswap happlies =>
    obtain ⟨-, hb, hsame, hdtype⟩ := h.parts hr hop
    rw [← hold hb] at hsame
    refine ⟨by rw [happlies.dtype_eq, hsame, hdtype], fun v hv => ?_⟩
    obtain ⟨x, y, hx, hy, hxt, hyt, hv⟩ := h.values hr hop (hleft hop) hv
    refine (happlies.value hval').mpr ⟨y, x, hy, hx, ?_⟩
    rw [hsame, BinaryOp.eval_comm hswap.1 (hyt.isPlain (hleft hop)) (hxt.isPlain (hleft hop))]
    exact hv
  | negate hop hb hint hc happlies =>
    obtain ⟨ha, -, -, hdtype⟩ := h.parts hr hop
    rw [← hold ha] at hdtype
    refine ⟨happlies.dtype_eq.trans hdtype.symm, fun v hv => ?_⟩
    obtain ⟨u, w, hu, hw, hut, hwt, hv⟩ := h.values hr hop (hleft hop) hv
    obtain rfl := Option.some.inj ((hval.const hb).symm.trans hw)
    refine (happlies.value hval').mpr ⟨u, _, hu, hc.value hval', ?_⟩
    rw [hdtype, hold ha] at hint ⊢
    exact (eval_sub_eq_add_neg hint.1 hut hwt).symm.trans hv
  | @identity op a b c hop hb hid =>
    obtain ⟨ha, -, -, hdtype⟩ := h.parts hr hop
    have harith : op.isComparison = false := by cases op <;> first | rfl | cases hid
    rw [resultType_of_arithmetic harith] at hdtype
    refine ⟨(hold ha).trans hdtype.symm, fun v hv => ?_⟩
    obtain ⟨x, y, hx, hy, hxt, hyt, hv⟩ := h.values hr hop (hleft hop) hv
    obtain rfl := Option.some.inj ((hval.const hb).symm.trans hy)
    rw [resultType_of_arithmetic harith] at hv
    rw [eval_rightIdentity (hleft hop) hxt hyt hid hv]
    exact hx
  | @zero op a b _ hop hzero hn =>
    refine ⟨hn.dtype_eq, fun v hv => ?_⟩
    obtain ⟨-, -, -, hdtype⟩ := h.parts hr hop
    obtain ⟨x, y, hx, hy, hxt, hyt, hv⟩ := h.values hr hop (hleft hop) hv
    have harith : op.isComparison = false := by
      rcases hzero with ⟨c, -, hc⟩ | ⟨-, hc⟩ <;> cases op <;> first | rfl | cases hc
    rw [resultType_of_arithmetic harith] at hdtype hv
    rw [hn.value hval', hdtype, Option.some.injEq]
    rcases hzero with ⟨c, hc, hzero⟩ | ⟨rfl, hzero⟩
    · obtain rfl := Option.some.inj ((hval.const hc).symm.trans hy)
      exact (eval_annihilates (hleft hop) hxt hyt hzero hv).symm
    · obtain rfl := Option.some.inj (hx.symm.trans hy)
      exact (eval_cancelsItself (hleft hop) hxt hzero hv).symm
  | @select cond yes no _ hop hn =>
    obtain ⟨hyes, hno, hvalue⟩ := h.select hr hop hplain
    rw [← hold (h.operand hr (by simp [hop, Op.operands, Op.sources]))] at hyes hno
    rcases hn with ⟨rfl, rfl⟩ | ⟨c, hc, rfl⟩
    · refine ⟨hyes, fun v hv => ?_⟩
      obtain ⟨x, -, hv⟩ := hvalue v hv
      rwa [ite_self] at hv
    · refine ⟨by split <;> assumption, fun v hv => ?_⟩
      obtain ⟨x, hx, hv⟩ := hvalue v hv
      rwa [← Option.some.inj ((hval.const hc).symm.trans hx)] at hv
  | @regroup op a b x c k _ w hop hinner hassoc hint hw hk happlies =>
    obtain ⟨ha, -, -, hdtype⟩ := h.parts hr hop
    obtain ⟨hx, -, -, hdtype'⟩ := h.parts ha hinner
    have harith : op.isComparison = false := by rcases hassoc with rfl | rfl <;> rfl
    rw [resultType_of_arithmetic harith] at hdtype hdtype'
    refine ⟨by rw [happlies.dtype_eq, resultType_of_arithmetic harith, hold hx, hdtype, hdtype'],
      fun z hz => ?_⟩
    simp only [Option.bind_eq_bind, Option.bind_eq_some_iff] at hw
    obtain ⟨u, hu, v, hv, hw⟩ := hw
    obtain ⟨p, q, hp, hq, hpt, hqt, hz⟩ := h.values hr hop (hleft hop) hz
    obtain ⟨s, t, hs, ht, hst, htt, hp⟩ := h.values ha hinner (hdtype' ▸ hleft hop) hp
    obtain rfl := Option.some.inj ((hval.const hu).symm.trans ht)
    obtain rfl := Option.some.inj ((hval.const hv).symm.trans hq)
    refine (happlies.value hval').mpr ⟨s, _, hs, hk.value hval', ?_⟩
    rw [resultType_of_arithmetic harith] at hp hz ⊢
    rw [hold hx]
    rw [← hdtype', ← hdtype] at hst htt hp ⊢
    rw [← hdtype] at hqt hz
    rw [(op.hasType_eval (.inl hint) harith hw).normalize_eq]
    exact eval_assoc hint hst htt hqt hp hz hw hassoc
  | factor hop hp hq hcommon hsum happlies =>
    obtain ⟨hab, hcd⟩ := Rule.commonFactor?_eq_some hcommon
    obtain ⟨hPp, hPq, hsame, hdtype⟩ := h.parts hr hop
    obtain ⟨ha, hb, -⟩ := h.parts hPp hp
    obtain ⟨hs, hx, -⟩ := Rule.forall_commonFactor? (Q := P) hcommon ⟨ha, hb⟩
      ⟨(h.parts hPq hq).1, (h.parts hPq hq).2.1⟩
    obtain ⟨hst, hxt, hvalue⟩ := h.product hPp hp hab (hleft hop)
    obtain ⟨-, -, hvalue'⟩ := h.product hPq hq hcd (hsame ▸ hleft hop)
    rw [← hold hs] at hst
    rw [← hold hx] at hxt
    refine ⟨by rw [happlies.dtype_eq, hst, hdtype]; rfl, fun v hv => ?_⟩
    obtain ⟨u, w, hu, hw, -, -, hv⟩ := h.values hr hop (hleft hop) hv
    obtain ⟨k, m, hk, hm, hkt, hmt, hu⟩ := hvalue u hu
    obtain ⟨k', l, hk', hl, -, hlt, hw⟩ := hvalue' w hw
    obtain rfl := Option.some.inj (hk.symm.trans hk')
    rw [hsame] at hlt hw
    obtain ⟨z, hz, hv⟩ := eval_factor (hleft hop) hkt hmt hlt hu hw hv
    refine (happlies.value hval').mpr ⟨k, z, hk, (hsum.value hval').mpr ⟨m, l, hm, hl, ?_⟩, ?_⟩
    · rwa [hxt]
    · rwa [hst]

/-! ### Well-formed expressions -/

theorem Typed.admits (h : g.Typed r) : g.Admits (g.get r) := by
  change g.Admits ⟨g.op r, g.dtype r⟩
  cases hop : g.op r <;> simp_all [Typed, Admits]

theorem Typed.isPlain_operation (h : g.Typed r)
    (hkind : (g.op r).kind ∈ [.cast, .unary, .binary, .ternary]) :
    (g.dtype r).IsPlain ∧ ∀ s ∈ (g.op r).operands, (g.dtype s).IsPlain := by
  cases hop : g.op r with
  | cast | unary => simp_all [Typed, Op.operands, Op.sources]
  | binary op a b =>
    simp only [Typed, hop] at h
    simp [h, BinaryOp.resultType, Op.operands, Op.sources, isPlain_ite]
  | ternary op a b c =>
    simp only [Typed, hop] at h
    simp [h, Op.operands, Op.sources, isPlain_ite]
  | _ => simp [hop, Op.kind] at hkind

theorem Term.interprets (hg : g.WellFormed) (hgrows : g.Grows g') (S : Setting) (A : Binder → Prop)
    (env : Env) : g.Interprets (g'.value env) (g.Term S A) where
  toFollows := (follows_value hgrows.wellFormed env).of_grows hg hgrows
  lt_size hs := hs.lt_size hg
  operand hs hx := hs.operand hx
  admits hs := hs.typed.admits
  hasType hs _ hv := hs.hasType (hgrows.value_eq hg hs env ▸ hv)

theorem Applies.term (h : g.Applies op a b r) (hg : g.WellFormed) (ha : g.Term S A a)
    (hb : g.Term S A b) (ht : (g.dtype a).IsPlain) : g.Term S A r :=
  (result_binary (ha.result.resolve hg) (h.same ▸ hb.result.resolve hg) h.holds ht h.accepts).term

theorem HoldsConst.term (h : g.HoldsConst v t r) (ht : t.IsPlain) (hint : t.isInt = true → S.ints t) :
    g.Term S A r :=
  (result_const h ht hint (Value.hasType_normalize ht v)).term

theorem Reduces.term (h : g.Reduces g' r n) (hg : g.WellFormed) (hgrows : g.Grows g')
    (hr : g.Term S A r) : g'.Term S A n := by
  have hint := hr.placed.int
  have ht := (hr.typed.isPlain_operation h.kind).1
  have hold : ∀ {s}, g.Term S A s → (g.dtype s).IsPlain → g'.Term S A s ∧ (g'.dtype s).IsPlain :=
    fun hs ht => ⟨hgrows.term hg hs, hgrows.dtype_eq hg (hs.lt_size hg) ▸ ht⟩
  have hparts : ∀ {p op a b}, g.Term S A p → g.op p = .binary op a b →
      (g'.Term S A a ∧ (g'.dtype a).IsPlain) ∧ g'.Term S A b ∧ (g'.dtype b).IsPlain := fun hp hop =>
    have h := hp.binary hop
    ⟨hold h.left h.isPlain, hold h.right (h.dtype_right ▸ h.isPlain)⟩
  have hadd : ∀ {op a b n}, g'.Applies op a b n → g'.Term S A a ∧ (g'.dtype a).IsPlain →
      g'.Term S A b → g'.Term S A n := fun happlies ha hb =>
    happlies.term hgrows.wellFormed ha.1 hb ha.2
  cases h with
  | fold _ _ hn | zero _ _ hn => exact hn.term ht hint
  | swap hop _ happlies => exact hadd happlies (hparts hr hop).2 (hparts hr hop).1.1
  | negate hop _ _ hc happlies => exact hadd happlies (hparts hr hop).1 (hc.term ht hint)
  | identity hop => exact (hparts hr hop).1.1
  | select hop hn =>
    rcases hn with ⟨-, rfl⟩ | ⟨c, -, rfl⟩
    · exact hgrows.term hg (hr.operand (by simp [hop, Op.operands, Op.sources]))
    · split <;> exact hgrows.term hg (hr.operand (by simp [hop, Op.operands, Op.sources]))
  | regroup hop hinner _ _ _ hk happlies =>
    exact hadd happlies (hparts (hr.binary hop).left hinner).1 (hk.term ht hint)
  | factor hop hp hq hcommon hsum happlies =>
    obtain ⟨hs, hx, hy⟩ := Rule.forall_commonFactor?
      (Q := fun s => g'.Term S A s ∧ (g'.dtype s).IsPlain) hcommon
      (hparts (hr.binary hop).left hp) (hparts (hr.binary hop).right hq)
    exact hadd happlies hs (hadd hsum hx hy.1)

end Graph

namespace Rule

open LazyTensor.Graph Attempt

variable {S : Setting} {A : Binder → Prop} {g : Graph} {r : Ref} {rule : Rule}

theorem Performs.ensures {P : Graph → Graph → Ref → Ref → Prop} {apply : Ref → Attempt Ref}
    (h : Performs P apply) (hg : g.Sound) (hr : r < g.size) :
    Ensures (apply r) g fun n g' => P g g' r n :=
  (h (C := .nodes) ⟨rfl, hg⟩ ⟨rfl, hr⟩).ensures

theorem ensures_reduces (hg : g.Sound) (hr : r < g.size) (hrule : rule ∈ RuleTable.algebraicRules)
    (rs : Readers) : Ensures (rule.apply rs r) g fun n g' => g.Reduces g' r n := by
  obtain ⟨apply, happly, hreducing⟩ := reducing_algebraicRules hrule
  rw [happly]
  exact Performs.ensures hreducing hg hr

theorem algebraic_replaces (hg : g.Sound) (hr : g.Term S A r)
    (hrule : rule ∈ RuleTable.algebraicRules) (rs : Readers) :
    Ensures (rule.apply rs r) g (g.Replaces S A r) := by
  have hwf := hg.wellFormed
  refine (ensures_reduces hg (hr.lt_size hwf) hrule rs).mono fun n g' hgrows hred => ?_
  have hsound := fun env => hred.sound hwf hgrows (follows_value hgrows.wellFormed env)
    (Term.interprets hwf hgrows S A env) hr (hr.typed.isPlain_operation hred.kind).2
  refine ⟨hred.term hwf hgrows hr, (hsound .empty).1, fun env v hv => ?_⟩
  exact (hsound env).2 v (by rwa [hgrows.value_eq hwf hr])

end Rule

/-! ### Constructed graphs -/

namespace Graph

variable {g g' : Graph} {val : Ref → Option Value}

/-- What has no operands of its own, as far as arithmetic goes, has values of its type. -/
def Normalized (g : Graph) (val : Ref → Option Value) : Prop :=
  ∀ r v, (g.op r).kind ∉ [.const, .cast, .unary, .binary, .ternary] → val r = some v →
    v.normalize (g.dtype r) = v

theorem Constructed.interprets (hg : g.Constructed) (hgrows : g.Grows g') (hval : g'.Follows val)
    (hleaf : g'.Normalized val) : g.Interprets val (· < g.size) := by
  have hwf := hg.built.sound.wellFormed
  have hold := hval.of_grows hwf hgrows
  refine ⟨hold, id, fun hr hx => hg.built.sound.source_lt hr (Op.operands_subset hx), hg.admits, ?_⟩
  intro r v hr ht hv
  have hadmits : g.Admits ⟨g.op r, g.dtype r⟩ := hg.admits hr
  by_cases hkind : (g.op r).kind ∈ [.const, .cast, .unary, .binary, .ternary]
  · rw [hold.operation r hkind] at hv
    refine hasType_of_evalStep ht hkind (fun w hop => ?_) (fun op a b hop hcmp => ?_) hv
    · rw [hop] at hadmits
      exact hadmits ht
    · rw [hop] at hadmits
      exact hadmits.2.2.trans (if_pos hcmp)
  · have hnormal := hleaf r v (hgrows.op_eq hwf hr ▸ hkind) hv
    rw [hgrows.dtype_eq hwf hr] at hnormal
    exact hnormal ▸ Value.hasType_normalize ht v

end Graph

namespace Rule

open LazyTensor.Graph Attempt

/-- On integers of every width and sign and on truth values, a rule on arithmetic leads to a node of
the same type that has the value of the old one, whatever values of their types the other nodes
have. -/
theorem algebraic_sound {g g' : Graph} {r n : Ref} {rule : Rule} {val : Ref → Option Value}
    (hg : g.Constructed) (hr : r < g.size) (hrule : rule ∈ RuleTable.algebraicRules) (rs : Readers)
    (hplain : ∀ s ∈ (g.op r).operands, (g.dtype s).IsPlain)
    (hrun : (rule.apply rs r).run.run g = (some n, g')) (hval : g'.Follows val)
    (hleaf : g'.Normalized val) :
    g'.dtype n = g.dtype r ∧ ∀ v, val r = some v → val n = some v := by
  have hsound := hg.built.sound
  obtain ⟨hgrows, hred⟩ := ensures_reduces hsound hr hrule rs
  rw [hrun] at hgrows hred
  exact (hred n rfl).sound hsound.wellFormed hgrows hval (hg.interprets hgrows hval hleaf) hr hplain

/-- A variable in eight bits with one hundred added to it twice, and then with the sum of both. -/
def narrowSum (calls : Nat) : Graph :=
  ([.symbol ⟨"i", 0, 9, none⟩, .cast 0 (.scalar .int8), .const (.int 100) (.scalar .int8),
    .binary .add 1 2, .binary .add 3 2, .const (.int 200) (.scalar .int8),
    .binary .add 1 5].take calls).foldl (fun g c => ((Construction.build c).run.run g).2) {}

theorem constructed_narrowSum : (narrowSum 5).Constructed ∧ (narrowSum 7).Constructed := by
  have hsum : (narrowSum 5).Constructed := by
    refine .call _ (.call _ (.call _ (.call _ (.call _ .empty ?_) ?_) ?_) ?_) ?_
    all_goals decide +kernel
  exact ⟨hsum, .call _ (.call _ hsum (by decide +kernel)) (by decide +kernel)⟩

theorem algebraic_sound_narrowSum :
    (combineConsts 4).run.run (narrowSum 5) = (some 6, narrowSum 7) ∧
      (narrowSum 7).value { Env.empty with var := fun _ => 5 } 6 = some (.int (-51)) := by
  obtain ⟨hg, hg'⟩ := constructed_narrowSum
  have hrun : (combineConsts 4).run.run (narrowSum 5) = (some 6, narrowSum 7) :=
    Prod.ext (by decide +kernel) (by decide +kernel)
  have hrule : (⟨"combine_consts", [.binary], fun _ => combineConsts⟩ : Rule) ∈
      RuleTable.algebraicRules := by simp [RuleTable.algebraicRules, RuleTable.symbolicRules]
  have hwf := hg'.built.sound.wellFormed
  have hvalue : ∀ r v, (narrowSum 7).evalAt 4 { Env.empty with var := fun _ => 5 } r = some v →
      (narrowSum 7).value { Env.empty with var := fun _ => 5 } r = some v := fun r v hv =>
    value_eq_some.mpr (evaluates_of_evalAt hv)
  refine ⟨hrun, (algebraic_sound hg (by decide +kernel) hrule [] (by decide +kernel) hrun
    (follows_value hwf _) ?_).2 _ (hvalue 4 _ (by decide +kernel))⟩
  intro r v hkind hv
  by_cases hr : r < 7
  · have hvar : ∀ r < 7, ((narrowSum 7).op r).kind ∉ [.const, .cast, .unary, .binary, .ternary] →
        r = 0 := by decide +kernel
    obtain rfl := hvar r hr hkind
    obtain rfl := Option.some.inj ((hvalue 0 (.int 5) (by decide +kernel)).symm.trans hv)
    decide +kernel
  · have hop := op_of_ge (r := r) hwf (Nat.le_of_not_lt hr)
    rw [value_eq, evalStep, hop] at hv
    cases hv

end Rule

end LazyTensor

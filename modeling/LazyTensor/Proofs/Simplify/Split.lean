import LazyTensor.Proofs.Simplify.Range

/-!
# Splitting by a divisor keeps the value

The addends of a sum with a range add up exactly. Those that the divisor divides make the quotient,
and the others make the remainder because their sum lies below the divisor.
-/

namespace LazyTensor

open Width (FitsWord)

theorem quotient_remainder {x n m o c : Int} (hn : 0 < n) (hx : 0 ≤ x) (heq : x = c + n * m + o)
    (hnonneg : 0 ≤ o + c % n) (hlt : o + c % n < n) :
    m + c / n = x.tdiv n ∧ o + c % n = x.tmod n := by
  rw [Int.tdiv_eq_ediv_of_nonneg hx, Int.tmod_eq_emod_of_nonneg hx]
  have hsum : o + c % n + n * (m + c / n) = x := by
    have hc := Int.emod_add_mul_ediv c n
    rw [mul_add]
    omega
  obtain ⟨hdiv, hmod⟩ := (Int.ediv_emod_unique hn).mpr ⟨hsum, hnonneg, hlt⟩
  exact ⟨hdiv.symm, hmod.symm⟩

theorem fitsWord_parts {n c : Int} (hn : 0 < n) (hfits : FitsWord n) (hc : FitsWord c) :
    FitsWord (c % n) ∧ FitsWord (c / n) := by
  have hnonneg := Int.emod_nonneg c hn.ne'
  have hlt := Int.emod_lt_of_pos c hn
  refine ⟨?_, fitsWord_of_zero_between hc ?_⟩
  · simp only [FitsWord, Width.minWord, Width.maxWord] at hfits ⊢
    omega
  · rcases le_total 0 c with h | h
    · have hnonneg := Int.ediv_nonneg h hn.le
      have hle := Int.ediv_le_self n h
      omega
    · have hneg := Int.ediv_nonpos_of_nonpos_of_neg h hn
      have hle : c ≤ c / n :=
        Int.le_ediv_of_mul_le hn (by simpa using Int.mul_le_mul_of_nonpos_left h hn)
      omega

namespace Graph

variable {S : Setting} {A : Binder → Prop} {g g' : Graph} {r s t : Ref} {x y z n : Int}
  {op : BinaryOp} {φ : Int → Int → Int} {val : Ref → Option Value} {P : Ref → Prop}

/-- A node adds up to `x` at the width of a word, and exactly if it has a range. -/
structure SumOf (g : Graph) (val : Ref → Option Value) (s : Ref) (x : Int) : Prop where
  dtype : g.dtype s = .index
  value : val s = some (.int (wrapSigned 64 x))
  inRange : ∀ depth p, g.rangeAt depth s = some p → FitsWord x ∧ InRange p x

theorem SumOf.grows (hs : g.SumOf val s x) (hg : g.Sound) (hgrows : g.Grows g')
    (hlt : s < g.size) : g'.SumOf val s x where
  dtype := (hgrows.dtype_eq hg.wellFormed hlt).trans hs.dtype
  value := hs.value
  inRange depth p hp := hs.inRange depth p (by rwa [← hgrows.rangeAt_eq hg hlt])

theorem eval_wrapped
    (heval : ∀ {x y : Value}, x.HasType .index → y.HasType .index → op.eval .index x y = some (.ofZ
      .index (φ x.toZ y.toZ)))
    (hcongr : ∀ {x x' y y' : Int}, x ≡ x' [ZMOD 2 ^ 64] → y ≡ y' [ZMOD 2 ^ 64] → φ x y ≡ φ x' y'
      [ZMOD 2 ^ 64]) (x y : Int) :
    op.eval .index (.int (wrapSigned 64 x)) (.int (wrapSigned 64 y)) =
      some (.int (wrapSigned 64 (φ x y))) := by
  have htype : ∀ x, (Value.int (wrapSigned 64 x)).HasType .index := fun x =>
    Value.hasType_index_iff.mpr ⟨_, rfl, fitsWord_wrapSigned x⟩
  rw [heval (htype x) (htype y), Option.some.injEq]
  exact congrArg Value.int
    (wrapSigned_congr (hcongr (wrapSigned_modEq 64 x) (wrapSigned_modEq 64 y)))

/-- An operation that acts on residues and whose range rules out overflow combines sums. -/
theorem SumOf.combine (hop : op.isComparison = false)
    (heval : ∀ x y : Int, op.eval .index (.int (wrapSigned 64 x)) (.int (wrapSigned 64 y)) = some
      (.int (wrapSigned 64 (φ x y))))
    (hfits : ∀ {p q c : Int × Int} {x y : Int}, binaryRange op p q = some c → InRange p x → InRange
      q y → FitsWord (φ x y)) (hval : g.Follows val) (hg : g.WellFormed) (hs : g.SumOf val s x)
    (ht : g.SumOf val t y) (happlies : g.Applies op s t r) : g.SumOf val r (φ x y) where
  dtype := by rw [happlies.dtype_eq, resultType_of_arithmetic hop, hs.dtype]
  value := by
    refine (happlies.value hval).mpr ⟨_, _, hs.value, ht.value, ?_⟩
    rw [resultType_of_arithmetic hop, hs.dtype, heval]
  inRange depth p hp := by
    obtain ⟨d, p', q, hp', hq, hrange⟩ := rangeAt_binary happlies.holds.op_eq hp
    rw [rangeAt_resolve hg] at hp' hq
    obtain ⟨hfx, hx⟩ := hs.inRange d p' hp'
    obtain ⟨hfy, hy⟩ := ht.inRange d q hq
    have hfits := hfits hrange hx hy
    obtain ⟨w, hw, -, hin⟩ := binaryRange_sound hrange hx hy hfx hfy
    have heval := heval x y
    rw [wrapSigned_of_fitsWord hfx, wrapSigned_of_fitsWord hfy, wrapSigned_of_fitsWord hfits, hw,
      Option.some.injEq, Value.int.injEq] at heval
    exact ⟨hfits, heval ▸ hin⟩

theorem SumOf.add (hval : g.Follows val) (hg : g.WellFormed) (hs : g.SumOf val s x)
    (ht : g.SumOf val t y) (happlies : g.Applies .add s t r) : g.SumOf val r (x + y) :=
  SumOf.combine rfl (eval_wrapped (Value.eval_add rfl) Int.ModEq.add) fitsWord_add hval hg hs ht
    happlies

theorem HoldsConst.sumOf (hr : g.HoldsConst (.int x) .index r) (hval : g.Follows val)
    (hx : FitsWord x) : g.SumOf val r x where
  dtype := hr.dtype_eq
  value := hr.value hval
  inRange depth p hp := by
    cases depth with
    | zero => cases hp
    | succ depth =>
      have hop : g.op r = .const (.int (wrapSigned 64 x)) := Holds.op_eq hr
      rw [rangeAt, if_pos (by rw [hr.dtype_eq]; rfl), hop, wrapSigned_of_fitsWord hx] at hp
      exact ⟨hx, Option.some.inj hp ▸ ⟨le_rfl, le_rfl⟩⟩

section Totals

variable {α : Type} {R : Graph → α → Ref → Prop} {xs : List α} {F : α → Int} {o : Option Ref}
  {Q : Ref → Int → Prop} {m : Ref × Int}

/-- What additions and constants keep holds of the whole sum. -/
theorem Adds.fold (hadd : ∀ {s t r x y}, Q s x → Q t y → g.Applies .add s t r → Q r (x + y))
    (h : Adds R g xs o) (hR : ∀ x ∈ xs, ∀ r, R g x r → Q r (F x)) : ∀ s ∈ o, Q s (xs.map F).sum := by
  induction h with
  | nil => exact nofun
  | @single x r h =>
    rintro _ ⟨⟩
    simpa using hR x (by simp) r h
  | @snoc xs x s r n _ h hlast ih =>
    rintro _ ⟨⟩
    rw [List.forall_mem_append, List.forall_mem_singleton] at hR
    simpa using hadd (ih hR.1 s rfl) (hR.2 r h) hlast

theorem Totals.fold {n : Ref}
    (hadd : ∀ {s t r x y}, Q s x → Q t y → g.Applies .add s t r → Q r (x + y))
    (hconst : ∀ {c}, g.HoldsConst (.int z) .index c → Q c z) (h : Totals R g xs z .index n)
    (hR : ∀ x ∈ xs, ∀ r, R g x r → Q r (F x)) : Q n ((xs.map F).sum + z) := by
  rcases h with ⟨rfl, hn⟩ | ⟨s, hs, ⟨rfl, rfl⟩ | ⟨c, hc, happlies⟩⟩
  · simpa using hconst hn
  · simpa using hs.fold hadd hR n rfl
  · exact hadd (hs.fold hadd hR s rfl) (hconst hc) happlies

theorem Scales.sumOf (h : Scales .index g m r) (hval : g.Follows val) (hg : g.WellFormed)
    (hx : g.SumOf val m.1 x) (hk : FitsWord m.2) : g.SumOf val r (x * m.2) := by
  rcases h with ⟨hone, rfl⟩ | ⟨-, c, hc, happlies⟩
  · rwa [hone, mul_one]
  · exact SumOf.combine rfl (eval_wrapped (Value.eval_mul rfl) Int.ModEq.mul) fitsWord_mul hval hg
      hx (hc.sumOf hval hk) happlies

end Totals

/-! ### Addends -/

/-- The integer that a valuation gives a node. -/
def num (val : Ref → Option Value) (r : Ref) : Int := ((val r).bind Value.toInt?).getD 0

theorem forall_mem_addendsAt {Q : Ref → Prop} (depth : Nat)
    (hQ : ∀ {r op a b}, Q r → g.op r = .binary op a b → Q a ∧ Q b) (hr : Q r) :
    ∀ t ∈ g.addendsAt depth r, Q t := by
  induction depth generalizing r with
  | zero => simpa [addendsAt] using hr
  | succ depth ih =>
    rw [addendsAt]
    split
    case h_1 a b hop =>
      obtain ⟨ha, hb⟩ := hQ hr hop
      exact List.forall_mem_append.mpr ⟨ih ha, ih hb⟩
    case h_2 => simpa using hr

/-- What is known of the addends of a sum with a range. -/
structure Addend (g : Graph) (val : Ref → Option Value) (P : Ref → Prop) (t : Ref) : Prop where
  holds : P t
  dtype : g.dtype t = .index
  ranged : ∃ depth p, g.rangeAt depth t = some p
  value : val t = some (.int (num val t))

section Addends

variable {a b : Ref} {depth : Nat} {p : Int × Int} {v : Value} (hval : g.Assigns val)
  (hP : g.Checked P)
include hval hP

theorem Assigns.addend (hr : P r) (hdtype : g.dtype r = .index) (hp : g.rangeAt depth r = some p)
    (hv : val r = some v) : g.Addend val P r := by
  obtain ⟨x, rfl, -⟩ := hval.inRange hP hr hdtype hp hv
  refine ⟨hr, hdtype, ⟨depth, p, hp⟩, ?_⟩
  rw [num, hv]
  rfl

variable (hr : g.Addend val P r)

include hr

theorem Addend.inRange (hp : g.rangeAt depth r = some p) :
    FitsWord (num val r) ∧ InRange p (num val r) := by
  obtain ⟨x, hx, hfits, hin⟩ := hval.inRange hP hr.holds hr.dtype hp hr.value
  obtain rfl := Value.int.inj hx
  exact ⟨hfits, hin⟩

theorem Addend.sumOf : g.SumOf val r (num val r) where
  dtype := hr.dtype
  value := by
    obtain ⟨d, p, hp⟩ := hr.ranged
    rw [wrapSigned_of_fitsWord (hr.inRange hval hP hp).1, hr.value]
  inRange d p hp := hr.inRange hval hP hp

theorem Addend.binary (hop : g.op r = .binary op a b) :
    g.Addend val P a ∧ g.Addend val P b ∧ ∃ p q c, binaryRange op p q = some c ∧
      InRange p (num val a) ∧ InRange q (num val b) ∧
      op.eval .index (.int (num val a)) (.int (num val b)) = some (.int (num val r)) := by
  obtain ⟨d, p, hp⟩ := hr.ranged
  obtain ⟨d', p', q, hp', hq, hrange⟩ := rangeAt_binary hop hp
  obtain ⟨⟨ha, hta⟩, hb, htb⟩ := hP.binary hr.holds hop hr.dtype
  obtain ⟨u, w, hu, hw, hv⟩ := (hval.binary hop).mp hr.value
  have ha := hval.addend hP ha hta hp' hu
  have hb := hval.addend hP hb htb hq hw
  obtain rfl := Option.some.inj (ha.value.symm.trans hu)
  obtain rfl := Option.some.inj (hb.value.symm.trans hw)
  exact ⟨ha, hb, p', q, p, hrange, (ha.inRange hval hP hp').2, (hb.inRange hval hP hq).2,
    hr.dtype ▸ hv⟩

theorem Addend.sum_addendsAt (depth : Nat) :
    ((g.addendsAt depth r).map (num val)).sum = num val r := by
  induction depth generalizing r with
  | zero => simp [addendsAt]
  | succ depth ih =>
    rw [addendsAt]
    split
    case h_2 => simp
    case h_1 a b hop =>
      obtain ⟨ha, hb, p, q, c, hrange, hx, hy, heval⟩ := hr.binary hval hP hop
      rw [eval_index_add (fitsWord_add hrange hx hy), Option.some.injEq, Value.int.injEq] at heval
      rw [List.map_append, List.sum_append, ih ha, ih hb, heval]

end Addends

end Graph

namespace Addends

open LazyTensor.Graph

variable {g : Graph} {val : Ref → Option Value} {P : Ref → Prop} {t : Ref} {n sum c : Int}
  {v : Value} {vs : List Value}

def share (val : Ref → Option Value) (m : Ref × Int) : Int := num val m.1 * m.2

theorem multiple?_eq_some {x : Ref} {k : Int} (h : multiple? g n t = some (x, k)) :
    ∃ c v, g.op t = .binary .mul x c ∧ g.const? c = some v ∧ v.toInt? = some (n * k) := by
  obtain ⟨⟨x', k'⟩, hproduct, h⟩ := Option.bind_eq_some_iff.mp h
  simp only [Option.ite_none_right_eq_some, Option.some.injEq, Prod.mk.injEq] at h
  obtain ⟨hmod, rfl, rfl⟩ := h
  rw [product?] at hproduct
  split at hproduct
  case h_2 => cases hproduct
  case h_1 x c hop =>
    obtain ⟨k, hk, hpair⟩ := Option.map_eq_some_iff.mp hproduct
    obtain ⟨v, hv, hk⟩ := Option.bind_eq_some_iff.mp hk
    obtain ⟨rfl, rfl⟩ := Prod.mk.inj hpair
    refine ⟨c, v, hop, hv, ?_⟩
    rw [hk, Int.mul_tdiv_cancel_of_tmod_eq_zero hmod]

theorem forall_mem_ofNode {Q : Ref → Prop} {a : Ref} {s : Addends}
    (hQ : ∀ {r op a b}, Q r → g.op r = .binary op a b → Q a ∧ Q b) (ha : Q a)
    (h : ofNode g n a = some s) : (∀ t ∈ s.others, Q t) ∧ ∀ m ∈ s.multiples, Q m.1 := by
  simp only [ofNode, Option.bind_eq_bind, Option.bind_eq_some_iff] at h
  obtain ⟨c, hc, h⟩ := h
  obtain rfl := Option.some.inj h
  have hterms := forall_mem_addendsAt g.size hQ ha
  refine ⟨fun t ht => hterms t (List.mem_filter.mp ht).1, fun m hm => ?_⟩
  obtain ⟨t, ht, hm⟩ := List.mem_filterMap.mp hm
  obtain ⟨c, v, hop, -⟩ := multiple?_eq_some hm
  exact (hQ (hterms t ht) hop).1

theorem multiple?_of_const (h : g.const? t = some v) : multiple? g n t = none := by
  rw [multiple?, product?, const?_eq_some.mp h]
  rfl

theorem sumConsts_cons (h : sumConsts sum (v :: vs) = some c) :
    ∃ k, v.toInt? = some k ∧ FitsWord (sum + k) ∧ sumConsts (sum + k) vs = some c := by
  rw [sumConsts, Option.bind_eq_bind, Option.bind_eq_some_iff] at h
  obtain ⟨k, hk, h⟩ := h
  exact ⟨k, hk, Option.ite_none_right_eq_some.mp h⟩

theorem fitsWord_sumConsts (hsum : FitsWord sum) (h : sumConsts sum vs = some c) : FitsWord c := by
  induction vs generalizing sum with
  | nil => exact Option.some.inj h ▸ hsum
  | cons v vs ih =>
    obtain ⟨k, -, hfits, h⟩ := sumConsts_cons h
    exact ih hfits h

section Sorted

variable (hval : g.Assigns val) (hP : g.Checked P)
include hval hP

theorem share_of_multiple? (ht : g.Addend val P t) {m : Ref × Int} (h : multiple? g n t = some m) :
    FitsWord (n * m.2) ∧ num val t = n * share val m := by
  obtain ⟨x, k⟩ := m
  obtain ⟨c, v, hop, hc, hv⟩ := multiple?_eq_some h
  obtain ⟨-, hk, p, q, _, hrange, hinx, hiny, heval⟩ := ht.binary hval hP hop
  obtain ⟨d, r, hr⟩ := hk.ranged
  obtain rfl := Option.some.inj ((hval.const hc).symm.trans hk.value)
  obtain hv : num val c = n * k := Option.some.inj hv
  rw [eval_index_mul (fitsWord_mul hrange hinx hiny), Option.some.injEq, Value.int.injEq] at heval
  refine ⟨hv ▸ (hk.inRange hval hP hr).1, ?_⟩
  rw [← heval, hv, share, mul_left_comm]

theorem sum_sorted {ts : List Ref} (hts : ∀ t ∈ ts, g.Addend val P t)
    (hconst : sumConsts sum (ts.filterMap g.const?) = some c) :
    sum + (ts.map (num val)).sum = c + n * ((ts.filterMap (multiple? g n)).map (share val)).sum +
      ((ts.filter (isOther g n)).map (num val)).sum := by
  induction ts generalizing sum with
  | nil =>
    obtain rfl := Option.some.inj hconst
    simp
  | cons t ts ih =>
    obtain ⟨ht, hrest⟩ := List.forall_mem_cons.mp hts
    rw [List.map_cons, List.sum_cons, ← add_assoc]
    cases hv : g.const? t with
    | some v =>
      rw [List.filterMap_cons_some hv] at hconst
      obtain ⟨k, hk, -, hconst⟩ := sumConsts_cons hconst
      obtain rfl := Option.some.inj ((hval.const hv).symm.trans ht.value)
      obtain rfl := Option.some.inj hk
      rw [ih hrest hconst, List.filterMap_cons_none (multiple?_of_const hv),
        List.filter_cons_of_neg (by simp [isOther, hv])]
    | none =>
      rw [List.filterMap_cons_none hv] at hconst
      have ih := ih hrest hconst
      cases hmultiple : multiple? g n t with
      | some m =>
        obtain ⟨-, hshare⟩ := share_of_multiple? hval hP ht hmultiple
        rw [List.filterMap_cons_some hmultiple,
          List.filter_cons_of_neg (by simp [isOther, hmultiple]), List.map_cons, List.sum_cons,
          mul_add, ← hshare]
        omega
      | none =>
        rw [List.filterMap_cons_none hmultiple,
          List.filter_cons_of_pos (by simp [isOther, hv, hmultiple]), List.map_cons, List.sum_cons]
        omega

/-- The parts that a divisor makes of a sum with a range. -/
structure Sorted (g : Graph) (val : Ref → Option Value) (P : Ref → Prop) (a : Ref) (n : Int)
    (s : Addends) : Prop where
  others : ∀ t ∈ s.others, g.Addend val P t
  multiples : ∀ m ∈ s.multiples, g.Addend val P m.1 ∧ FitsWord m.2
  constant : FitsWord s.constant
  total : num val a = s.constant + n * (s.multiples.map (share val)).sum +
    (s.others.map (num val)).sum

theorem sorted_ofNode {a : Ref} {s : Addends} (ha : g.Addend val P a) (hn : 0 < n)
    (h : ofNode g n a = some s) : Sorted g val P a n s := by
  have hparts := fun {r op a b} (hr : g.Addend val P r) (hop : g.op r = .binary op a b) =>
    (hr.binary hval hP hop).imp_right And.left
  obtain ⟨hothers, hmultiples⟩ := forall_mem_ofNode hparts ha h
  simp only [ofNode, Option.bind_eq_bind, Option.bind_eq_some_iff] at h
  obtain ⟨c, hc, h⟩ := h
  obtain rfl := Option.some.inj h
  have hterms := forall_mem_addendsAt g.size hparts ha
  refine ⟨hothers, fun m hm => ⟨hmultiples m hm, ?_⟩, fitsWord_sumConsts (by decide) hc, ?_⟩
  · obtain ⟨t, ht, hm⟩ := List.mem_filterMap.mp hm
    have hfits := (share_of_multiple? hval hP (hterms t ht) hm).1
    have hbetween := (tdiv_tmod_between hn (n * m.2)).1
    rw [Int.mul_tdiv_cancel_left _ hn.ne'] at hbetween
    exact fitsWord_of_zero_between hfits hbetween
  · simpa [Graph.addends, ha.sum_addendsAt hval hP] using sum_sorted hval hP hterms hc

end Sorted

end Addends

namespace Graph

variable {S : Setting} {A : Binder → Prop} {g g' mid : Graph} {a q r : Ref} {n : Int} {s : Addends}
  {val : Ref → Option Value} {P : Ref → Prop} {v : Value}

/-- The two parts are the quotient and the remainder because the second is in range. -/
theorem Splits.sound (h : Splits g mid g' a n s q r) (hg : g.Sound) (hval : g'.Assigns val)
    (hP : g.Checked P) (hlt : ∀ r, P r → r < g.size) (ha : P a) (hdtype : g.dtype a = .index)
    (hn : 0 < n) (hfits : FitsWord n) (hv : val a = some v) :
    ∃ x, v = .int x ∧ 0 ≤ x ∧ val q = some (.int (x.tdiv n)) ∧ val r = some (.int (x.tmod n)) := by
  have hmid := hval.toFollows.of_grows h.before.wellFormed h.after
  have hgrows := h.before.trans h.after
  replace hval' := hval.of_grows hg.wellFormed hgrows
  obtain ⟨p, hp, hlo⟩ := h.range
  have ha := hval'.addend hP ha hdtype hp hv
  obtain rfl := Option.some.inj (ha.value.symm.trans hv)
  obtain ⟨hfx, hx, -⟩ := ha.inRange hval' hP hp
  have hsorted := Addends.sorted_ofNode hval' hP ha hn h.sorted
  obtain ⟨hrest, hwhole⟩ := fitsWord_parts hn hfits hsorted.constant
  have hsum := h.remainder
  have hquot := h.quotient
  rw [hdtype] at hsum hquot
  replace hsum := hsum.fold (Q := mid.SumOf val) (F := num val)
    (SumOf.add hmid h.before.wellFormed) (fun hc => hc.sumOf hmid hrest) fun t ht r hr => by
      rw [hr]
      have ht := hsorted.others t ht
      exact (ht.sumOf hval' hP).grows hg h.before (hlt t ht.holds)
  replace hquot := hquot.fold (Q := g'.SumOf val) (F := Addends.share val)
    (SumOf.add hval.toFollows h.after.wellFormed) (fun hc => hc.sumOf hval.toFollows hwhole)
    fun m hm r hr => by
      obtain ⟨hx, hk⟩ := hsorted.multiples m hm
      exact hr.sumOf hval.toFollows h.after.wellFormed
        ((hx.sumOf hval' hP).grows hg hgrows (hlt _ hx.holds)) hk
  obtain ⟨p', hp', hlo', hhi'⟩ := h.bounded
  obtain ⟨-, hly, hyh⟩ := hsum.inRange _ p' hp'
  obtain ⟨hdiv, hmod⟩ :=
    quotient_remainder hn (hlo.trans hx) hsorted.total (hlo'.trans hly) (hyh.trans_lt hhi')
  have hbetween := tdiv_tmod_between hn (num val a)
  refine ⟨_, rfl, hlo.trans hx, ?_, ?_⟩
  · rw [hquot.value, hdiv, wrapSigned_of_fitsWord (fitsWord_of_zero_between hfx hbetween.1)]
  · rw [hsum.value, hmod, wrapSigned_of_fitsWord (fitsWord_of_zero_between hfx hbetween.2)]

def IndexTerm (g : Graph) (S : Setting) (A : Binder → Prop) (r : Ref) : Prop :=
  g.Term S A r ∧ g.dtype r = .index

theorem IndexTerm.grows (h : g.IndexTerm S A r) (hg : g.WellFormed) (hgrows : g.Grows g') :
    g'.IndexTerm S A r :=
  ⟨hgrows.term hg h.1, (hgrows.dtype_eq hg (h.1.lt_size hg)).trans h.2⟩

theorem Applies.indexTerm {op : BinaryOp} {s t : Ref} (h : g.Applies op s t r)
    (hop : op.isComparison = false) (hg : g.WellFormed) (hs : g.IndexTerm S A s)
    (ht : g.IndexTerm S A t) : g.IndexTerm S A r :=
  ⟨h.term hg hs.1 ht.1 (hs.2 ▸ .inl rfl), by rw [h.dtype_eq, resultType_of_arithmetic hop, hs.2]⟩

theorem Splits.indexTerm (h : Splits g mid g' a n s q r) (hg : g.WellFormed)
    (ha : g.IndexTerm S A a) : g'.IndexTerm S A q ∧ g'.IndexTerm S A r := by
  have hindex := fun _ : DType.index.isInt = true => (ha.2 ▸ ha.1.result).int rfl
  have hconst : ∀ {g : Graph} {x c}, g.HoldsConst x .index c → g.IndexTerm S A c :=
    fun hc => ⟨hc.term (.inl rfl) hindex, hc.dtype_eq⟩
  obtain ⟨hothers, hmultiples⟩ := Addends.forall_mem_ofNode (Q := g.IndexTerm S A)
    (fun hr hop => Term.checked.binary hr.1 hop hr.2) ha h.sorted
  have hsum := h.remainder
  have hquot := h.quotient
  rw [ha.2] at hsum hquot
  constructor
  · refine hquot.fold (Q := fun r _ => g'.IndexTerm S A r) (F := fun _ => 0)
      (fun hs ht h' => h'.indexTerm rfl h.after.wellFormed hs ht) hconst fun m hm r hr => ?_
    have hx := (hmultiples m hm).grows hg (h.before.trans h.after)
    rcases hr with ⟨-, rfl⟩ | ⟨-, c, hc, happlies⟩
    · exact hx
    · exact happlies.indexTerm rfl h.after.wellFormed hx (hconst hc)
  · refine .grows ?_ h.before.wellFormed h.after
    refine hsum.fold (Q := fun r _ => mid.IndexTerm S A r) (F := fun _ => 0)
      (fun hs ht h' => h'.indexTerm rfl h.before.wellFormed hs ht) hconst fun t ht r hr => ?_
    exact hr ▸ (hothers t ht).grows hg h.before

end Graph

namespace Rule

open LazyTensor.Graph Attempt

variable {S : Setting} {A : Binder → Prop} {g g' : Graph} {r n : Ref}

theorem replaces_of_divides (h : g.Divides g' r n) (hg : g.Sound) (hr : g.Term S A r) :
    g.Replaces S A r n g' := by
  obtain @⟨op, a, b, q, m, d, mid, s, hop, h, hd, hpos, hdtype, hsplits⟩ := h
  obtain ⟨c, hc, hd⟩ := Option.bind_eq_some_iff.mp hd
  obtain ⟨⟨ha, hta⟩, hb, htb⟩ := Term.checked.binary hr hop hdtype
  have hconst := always_const (const?_eq_some.mp hc)
  obtain ⟨d', rfl, hfits⟩ := Value.hasType_index_iff.mp (htb ▸ hb.hasType (hconst .empty))
  obtain rfl := Option.some.inj hd
  have hgrows := hsplits.before.trans hsplits.after
  obtain ⟨hquot, hrem⟩ := hsplits.indexTerm hg.wellFormed ⟨ha, hta⟩
  have hvalue : ∀ env v, g.value env r = some v → ∃ x, op.eval .index (.int x) (.int d') = some v ∧
      FitsWord x ∧ g'.value env q = some (.int (x.tdiv d')) ∧
      g'.value env m = some (.int (x.tmod d')) := by
    intro env v hv
    obtain ⟨u, w, hu, hw, hv⟩ := (value_binary hop).mp hv
    obtain rfl := Option.some.inj ((hconst env).symm.trans hw)
    obtain ⟨x, rfl, -, hparts⟩ := hsplits.sound hg (assigns_value hgrows.wellFormed env) Term.checked
      (fun _ hr => hr.lt_size hg.wellFormed) ha hta hpos hfits (hgrows.value_eq hg.wellFormed ha env ▸ hu)
    obtain ⟨_, hx, hfx⟩ := Value.hasType_index_iff.mp (hta ▸ ha.hasType hu)
    exact ⟨x, hdtype ▸ hv, Value.int.inj hx ▸ hfx, hparts⟩
  rw [Replaces, hdtype]
  rcases h with rfl | rfl
  · refine ⟨hrem.1, hrem.2, fun env v hv => ?_⟩
    obtain ⟨x, hv, hfx, -, hm⟩ := hvalue env v hv
    rw [eval_index_mod hpos.ne'
      (fitsWord_of_zero_between hfx (tdiv_tmod_between hpos x).2)] at hv
    exact hm.trans hv
  · refine ⟨hquot.1, hquot.2, fun env v hv => ?_⟩
    obtain ⟨x, hv, hfx, hq, -⟩ := hvalue env v hv
    rw [eval_index_idiv hpos.ne'
      (fitsWord_of_zero_between hfx (tdiv_tmod_between hpos x).1)] at hv
    exact hq.trans hv

theorem splitDivision_replaces (hg : g.Sound) (hr : g.Term S A r) :
    Ensures (splitDivision r) g (g.Replaces S A r) :=
  (performs_splitDivision.ensures hg (hr.lt_size hg.wellFormed)).mono fun _ _ _ h =>
    replaces_of_divides h hg hr

theorem ensures_splits (hg : g.Sound) {a : Ref} (ha : a < g.size) (d : Int) :
    Ensures (Attempt.split a d) g fun x g' => ∃ mid s, g.Splits mid g' a d s x.1 x.2 :=
  (agree_split (C := .nodes) ⟨rfl, hg⟩ d ⟨rfl, ha⟩).ensures

/-- A node that is split by a positive word is the sum of the divisor times the quotient and of the
remainder, which are the exact ones, whatever values in their ranges the variables, launch indices
and loop counters have. -/
theorem split_divides {a q : Ref} {d : Int} {val : Ref → Option Value} {v : Value}
    (hg : g.Constructed) (ha : a < g.size) (hdtype : g.dtype a = .index) (hd : 0 < d)
    (hfits : FitsWord d) (hrun : (Attempt.split a d).run.run g = (some (q, r), g'))
    (hval : g'.Assigns val) (hv : val a = some v) :
    ∃ x y z, v = .int x ∧ val q = some (.int y) ∧ val r = some (.int z) ∧
      (x = y * d + z ∧ 0 ≤ z ∧ z < d) ∧ y = x.tdiv d ∧ z = x.tmod d := by
  have hsound := hg.built.sound
  obtain ⟨-, hsplits⟩ := ensures_splits hsound ha d
  rw [hrun] at hsplits
  obtain ⟨mid, s, hsplits⟩ := hsplits _ rfl
  obtain ⟨x, rfl, hx, hq, hr⟩ :=
    hsplits.sound hsound hval hg.checked (fun _ => id) ha hdtype hd hfits hv
  refine ⟨x, _, _, rfl, hq, hr, ⟨?_, Int.tmod_nonneg d hx, Int.tmod_lt_of_pos x hd⟩, rfl, rfl⟩
  rw [mul_comm, Int.mul_tdiv_add_tmod]

/-- Six times a loop counter from one and a variable, less five. -/
def shiftedCoordinates : Graph :=
  [.symbol ⟨"i", 0, 4, none⟩, .const (.int 1) .index, .const (.int 4) .index,
    .loop 1 2 ⟨.global, 0⟩, .const (.int 6) .index, .binary .mul 3 4, .binary .add 5 0,
    .const (.int (-5)) .index, .binary .add 6 7].foldl
    (fun g c => ((Construction.build c).run.run g).2) {}

theorem split_divides_shiftedCoordinates :
    ((Attempt.split 8 6).run.run shiftedCoordinates).1 = some (11, 9) ∧
      ∃ x y z, Value.int 15 = .int x ∧ (x = y * 6 + z ∧ 0 ≤ z ∧ z < 6) ∧
        y = x.tdiv 6 ∧ z = x.tmod 6 := by
  have hg : shiftedCoordinates.Constructed := by
    refine .call _ (.call _ (.call _ (.call _ (.call _ (.call _ (.call _ (.call _ (.call _ .empty
      ?_) ?_) ?_) ?_) ?_) ?_) ?_) ?_) ?_
    all_goals decide +kernel
  have hpair : ((Attempt.split 8 6).run.run shiftedCoordinates).1 = some (11, 9) := by
    decide +kernel
  have hrun : (Attempt.split 8 6).run.run shiftedCoordinates =
      (some (11, 9), ((Attempt.split 8 6).run.run shiftedCoordinates).2) := by
    rw [← hpair, Prod.mk.eta]
  have hgrows := (ensures_splits hg.built.sound (by decide +kernel : 8 < _) 6).1
  have hv : ((Attempt.split 8 6).run.run shiftedCoordinates).2.evalAt 5
      ({ Env.empty with var := fun _ => 2 }.setIter ⟨.global, 0⟩ 2) 8 = some (.int 15) := by
    decide +kernel
  obtain ⟨x, y, z, hx, -, -, hdivides⟩ := split_divides hg (by decide +kernel) (by decide +kernel)
    (by decide) (by decide) hrun (assigns_value hgrows.wellFormed _)
    (value_eq_some.mpr (evaluates_of_evalAt hv))
  exact ⟨hpair, x, y, z, hx, hdivides⟩

end Rule

end LazyTensor

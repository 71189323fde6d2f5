import LazyTensor.Proofs.Graph.Correspondence
import LazyTensor.Proofs.Simplify.Reduction

/-!
# Rules look at structure only

On corresponding nodes a rule finds corresponding nodes or, on both, nothing. Overwriting a loop is
left out: what is compared is the new loop that hoisting plans.
-/

namespace LazyTensor

variable {C : Correspondence} {g h : Graph} {r r' a a' b b' : Ref}

namespace Build

variable (hC : C.Over g h)

include hC

theorem agree_binary (op : BinaryOp) (ha : C.Rel g h a a') (hb : C.Rel g h b b') :
    Agree C (binary op a b) (binary op a' b') g h C.Related := by
  refine (agree_dtypeOf hC ha).bind ?_
  rintro _ _ _ _ - ⟨⟨rfl, rfl⟩, rfl, rfl⟩
  refine (agree_dtypeOf hC hb).bind ?_
  rintro _ _ _ _ - ⟨⟨rfl, rfl⟩, rfl, rfl⟩
  refine agree_check hC fun _ => agree_check hC fun _ => ?_
  exact agree_insert hC (.binary op ha hb) nofun

theorem agree_expectIndex (ha : C.Rel g h a a') :
    Agree C (expectIndex a) (expectIndex a') g h fun _ _ g' h' => g' = g ∧ h' = h := by
  refine (agree_dtypeOf hC ha).bind ?_
  rintro t _ _ _ - ⟨⟨rfl, rfl⟩, -, rfl⟩
  exact agree_check (f := pure) (k := pure) hC fun _ => agree_pure hC ⟨rfl, rfl⟩

theorem agree_expectPointer (ha : C.Rel g h a a') (what : String) :
    Agree C (expectPointer a what) (expectPointer a' what) g h fun t u g' h' =>
      (g' = g ∧ h' = h) ∧ u = t := by
  refine (agree_dtypeOf hC ha).bind ?_
  rintro _ t _ _ - ⟨⟨rfl, rfl⟩, -, rfl⟩
  cases t.pointee? with
  | none => exact agree_throw hC
  | some base => exact agree_pure hC ⟨⟨rfl, rfl⟩, rfl⟩

theorem agree_load (ha : C.Rel g h a a') (hb : C.Rel g h b b') :
    Agree C (load a b none) (load a' b' none) g h C.Related := by
  refine (agree_expectPointer hC ha _).bind ?_
  rintro t _ _ _ - ⟨⟨rfl, rfl⟩, rfl⟩
  refine (agree_expectIndex hC hb).bind ?_
  rintro _ _ _ _ - ⟨rfl, rfl⟩
  exact agree_insert hC (.load ha hb) nofun

theorem agree_expectSame (op : String) (t u : DType) :
    Agree C (expectSame op t u) (expectSame op t u) g h fun _ _ g' h' => g' = g ∧ h' = h :=
  agree_check (f := pure) (k := pure) hC fun _ => agree_pure hC ⟨rfl, rfl⟩

theorem agree_expectBool (ha : C.Rel g h a a') :
    Agree C (expectBool a) (expectBool a') g h fun _ _ g' h' => g' = g ∧ h' = h := by
  refine (agree_dtypeOf hC ha).bind ?_
  rintro t _ _ _ - ⟨⟨rfl, rfl⟩, -, rfl⟩
  exact agree_check (f := pure) (k := pure) hC fun _ => agree_pure hC ⟨rfl, rfl⟩

theorem agree_store {v v' : Ref} {gate gate' : Option Ref} (ha : C.Rel g h a a')
    (hw : C.Writable g a) (hb : C.Rel g h b b') (hv : C.Rel g h v v')
    (hgate : Option.Rel (C.Rel g h) gate gate') :
    Agree C (store a b v gate) (store a' b' v' gate') g h C.Related := by
  have htarget : ∀ c, some a = some c → C.Writable g c := fun c hc => Option.some.inj hc ▸ hw
  refine (agree_expectPointer hC ha _).bind ?_
  rintro t _ _ _ - ⟨⟨rfl, rfl⟩, rfl⟩
  refine (agree_expectIndex hC hb).bind ?_
  rintro _ _ _ _ - ⟨rfl, rfl⟩
  refine (agree_dtypeOf hC hv).bind ?_
  rintro u _ _ _ - ⟨⟨rfl, rfl⟩, -, rfl⟩
  refine (agree_expectSame hC _ _ _).bind ?_
  rintro _ _ _ _ - ⟨rfl, rfl⟩
  cases hgate with
  | none => exact agree_insert hC (.store ha hb hv) htarget
  | some hg =>
    refine (agree_expectBool hC hg).bind ?_
    rintro _ _ _ _ - ⟨rfl, rfl⟩
    exact agree_insert hC (.gatedStore ha hb hv hg) htarget

end Build

namespace Attempt

theorem agree_binary (hC : C.Over g h) (op : BinaryOp) (ha : C.Rel g h a a')
    (hb : C.Rel g h b b') :
    Agree C (Build.toAttempt (Build.binary op a b)) (Build.toAttempt (Build.binary op a' b')) g h
      C.Related :=
  Build.agree_binary hC op ha hb

end Attempt

namespace Rule

open Attempt Correspondence

/-- A rule that finds corresponding nodes for corresponding ones. -/
def Uniform (apply : Ref → Attempt Ref) : Prop :=
  ∀ {C : Correspondence} {g h : Graph} {r r' : Ref}, C.Over g h → C.Rel g h r r' →
    Agree C (apply r) (apply r') g h C.Related

/-! ### Arithmetic -/

/-- A rule that finds corresponding nodes for corresponding ones and does what is described. -/
def Performs (P : Graph → Graph → Ref → Ref → Prop) (apply : Ref → Attempt Ref) : Prop :=
  ∀ {C : Correspondence} {g h : Graph} {r r' : Ref}, C.Over g h → C.Rel g h r r' →
    Agree C (apply r) (apply r') g h fun n n' g' h' => C.Rel g' h' n n' ∧ P g g' r n

def Reducing : (Ref → Attempt Ref) → Prop := Performs Graph.Reduces

theorem Performs.uniform {P : Graph → Graph → Ref → Ref → Prop} {apply : Ref → Attempt Ref}
    (h : Performs P apply) : Uniform apply :=
  fun hC hr => (h hC hr).mono fun _ _ _ _ _ hn => hn.1

theorem agree_holdsConst (hC : C.Over g h) (v : Value) (t : DType) :
    Agree C (Build.const v t : Attempt Ref) (Build.const v t : Attempt Ref) g h fun n n' g' h' =>
      C.Rel g' h' n n' ∧ g'.HoldsConst v t n :=
  (agree_const hC v t).and_left (ensures_const (C.sound hC).1.wellFormed v t)

theorem agree_applies (hC : C.Over g h) (op : BinaryOp) (ha : C.Rel g h a a')
    (hb : C.Rel g h b b') :
    Agree C (Build.toAttempt (Build.binary op a b)) (Build.toAttempt (Build.binary op a' b')) g h
      fun n n' g' h' => C.Rel g' h' n n' ∧ g'.Applies op a b n :=
  (agree_binary hC op ha hb).and_left (ensures_toAttempt
    (Build.ensures_applies (C.sound hC).1.wellFormed op (C.lt_size hC ha).1 (C.lt_size hC hb).1))

theorem agree_folded (hC : C.Over g h) (o : Option Value) (t : DType) :
    Agree C (folded o t) (folded o t) g h fun n n' g' h' =>
      C.Rel g' h' n n' ∧ ∃ v, o = some v ∧ g'.HoldsConst v t n :=
  agree_ofOption hC fun v hv =>
    (agree_holdsConst hC v t).mono fun _ _ _ _ _ hn => ⟨hn.1, v, hv, hn.2⟩

theorem agree_fold (hC : C.Over g h) (hkind : (g.op r).kind ∈ [.cast, .unary, .binary, .ternary])
    {o : Option Value} (ho : g.evalStep (fun _ => g.const?) .empty r = o) :
    Agree C (folded o (g.dtype r)) (folded o (g.dtype r)) g h fun n n' g' h' =>
      C.Rel g' h' n n' ∧ g.Reduces g' r n := by
  refine (agree_folded hC _ _).mono ?_
  rintro n n' g' h' - ⟨hn, v, hv, hholds⟩
  exact ⟨hn, .fold hkind (ho.trans hv) hholds⟩

theorem reducing_foldUnary : Reducing foldUnary := by
  intro C g h r r' hC hr
  refine agree_get ?_
  have hmatch := C.op hC hr
  generalize hop : g.op r = o, h.op r' = p at hmatch
  cases hmatch with
  | unary op ha =>
    simp only [← C.const? hC ha, ← C.dtype hC hr]
    exact agree_fold hC (by simp [hop, Op.kind]) (by rw [Graph.evalStep, hop]; rfl)
  | _ => exact agree_failure hC

theorem reducing_foldBinary : Reducing foldBinary := by
  intro C g h r r' hC hr
  refine agree_get ?_
  have hmatch := C.op hC hr
  generalize hop : g.op r = o, h.op r' = p at hmatch
  cases hmatch with
  | binary op ha hb =>
    simp only [← C.const? hC ha, ← C.const? hC hb, ← C.dtype hC hr]
    exact agree_fold hC (by simp [hop, Op.kind]) (by rw [Graph.evalStep, hop])
  | _ => exact agree_failure hC

theorem reducing_foldTernary : Reducing foldTernary := by
  intro C g h r r' hC hr
  refine agree_get ?_
  have hmatch := C.op hC hr
  generalize hop : g.op r = o, h.op r' = p at hmatch
  cases hmatch with
  | ternary op ha hb hc =>
    simp only [← C.const? hC ha, ← C.const? hC hb, ← C.const? hC hc, ← C.dtype hC hr]
    exact agree_fold hC (by simp [hop, Op.kind]) (by rw [Graph.evalStep, hop])
  | _ => exact agree_failure hC

theorem reducing_foldCast : Reducing foldCast := by
  intro C g h r r' hC hr
  refine agree_get ?_
  have hmatch := C.op hC hr
  generalize hop : g.op r = o, h.op r' = p at hmatch
  cases hmatch with
  | cast ha =>
    simp only [← C.const? hC ha, ← C.dtype hC hr]
    exact agree_fold hC (by simp [hop, Op.kind]) (by rw [Graph.evalStep, hop]; rfl)
  | _ => exact agree_failure hC

theorem reducing_constToRight : Reducing constToRight := by
  intro C g h r r' hC hr
  refine agree_get ?_
  have hmatch := C.op hC hr
  generalize hop : g.op r = o, h.op r' = p at hmatch
  cases hmatch with
  | binary op ha hb =>
    simp only [← C.const? hC ha, ← C.const? hC hb]
    refine agree_ite (fun hc => ?_) fun _ => agree_failure hC
    exact (agree_applies hC op hb ha).mono fun n n' g' h' _ hn => ⟨hn.1, .swap hop hc hn.2⟩
  | _ => exact agree_failure hC

theorem reducing_subtractConst : Reducing subtractConst := by
  intro C g h r r' hC hr
  refine agree_get ?_
  have hmatch := C.op hC hr
  generalize hop : g.op r = o, h.op r' = p at hmatch
  cases hmatch with
  | binary op ha hb =>
    cases op with
    | sub =>
      simp only [← C.const? hC ha, ← C.const? hC hb, ← C.dtype hC hr]
      split
      case h_1 x hx =>
        refine agree_ite (fun hc => ?_) fun _ => agree_failure hC
        refine (agree_holdsConst hC _ _).bind fun c c' g₁ h₁ hl hk => ?_
        refine (agree_applies hl.after .add (hl.rel hC ha) hk.1).mono ?_
        intro n n' g' h' hl' hn
        exact ⟨hn.1, .negate hop hx hc (hl'.left.holds hk.2) hn.2⟩
      case h_2 => exact agree_failure hC
    | _ => exact agree_failure hC
  | _ => exact agree_failure hC

theorem reducing_identity : Reducing identity := by
  intro C g h r r' hC hr
  refine agree_get ?_
  have hmatch := C.op hC hr
  generalize hop : g.op r = o, h.op r' = p at hmatch
  cases hmatch with
  | binary op ha hb =>
    simp only [← C.const? hC hb]
    refine agree_ofOption hC fun v hv => ?_
    exact agree_ite (fun hc => agree_pure hC ⟨ha, .identity hop hv hc⟩) fun _ => agree_failure hC
  | _ => exact agree_failure hC

theorem reducing_annihilator : Reducing annihilator := by
  intro C g h r r' hC hr
  refine agree_get ?_
  have hmatch := C.op hC hr
  generalize hop : g.op r = o, h.op r' = p at hmatch
  cases hmatch with
  | binary op ha hb =>
    simp only [← C.const? hC hb, ← C.dtype hC hr]
    refine agree_ofOption hC fun v hv => agree_ite (fun hc => ?_) fun _ => agree_failure hC
    refine (agree_holdsConst hC _ _).mono fun n n' g' h' _ hn => ?_
    exact ⟨hn.1, .zero hop (.inl ⟨v, hv, hc⟩) hn.2⟩
  | _ => exact agree_failure hC

theorem reducing_selfCancel : Reducing selfCancel := by
  intro C g h r r' hC hr
  refine agree_get ?_
  have hmatch := C.op hC hr
  generalize hop : g.op r = o, h.op r' = p at hmatch
  cases hmatch with
  | binary op ha hb =>
    simp only [← C.eq_iff hC ha hb, ← C.dtype hC hr]
    refine agree_ite (fun hc => ?_) fun _ => agree_failure hC
    refine (agree_holdsConst hC _ _).mono fun n n' g' h' _ hn => ?_
    exact ⟨hn.1, .zero hop (.inr hc) hn.2⟩
  | _ => exact agree_failure hC

theorem reducing_foldSelect : Reducing foldSelect := by
  intro C g h r r' hC hr
  refine agree_get ?_
  have hmatch := C.op hC hr
  generalize hop : g.op r = o, h.op r' = p at hmatch
  cases hmatch with
  | ternary op ha hb hc =>
    cases op with
    | select =>
      simp only [← C.const? hC ha, ← C.eq_iff hC hb hc]
      refine agree_ite (fun heq => ?_) fun _ => agree_ofOption hC fun v hv => ?_
      · exact agree_pure hC ⟨hb, .select hop (.inl ⟨heq, rfl⟩)⟩
      refine agree_pure hC ⟨?_, .select hop (.inr ⟨v, hv, rfl⟩)⟩
      by_cases hv : v.truthy = true
      · rw [if_pos hv, if_pos hv]
        exact hb
      · rw [if_neg hv, if_neg hv]
        exact hc
    | _ => exact agree_failure hC
  | _ => exact agree_failure hC

theorem reducing_combineConsts : Reducing combineConsts := by
  intro C g h r r' hC hr
  refine agree_get ?_
  have hmatch := C.op hC hr
  generalize hop : g.op r = o, h.op r' = p at hmatch
  cases hmatch with
  | binary op ha hb =>
    have hmatch := C.op hC ha
    simp only [← C.dtype hC hr, ← C.const? hC hb]
    generalize hinner : g.op _ = o, h.op _ = p at hmatch
    cases hmatch with
    | binary inner hx hc =>
      simp only [← C.const? hC hc]
      refine agree_ite (fun hassoc => ?_) fun _ => agree_failure hC
      obtain ⟨hassoc, rfl, hint⟩ := hassoc
      refine (agree_folded hC _ _).bind ?_
      rintro k k' g₁ h₁ hl ⟨hk, w, hw, hholds⟩
      refine (agree_applies hl.after inner (hl.rel hC hx) hk).mono fun n n' g' h' hl' hn => ?_
      exact ⟨hn.1, .regroup hop hinner hassoc hint hw (hl'.left.holds hholds) hn.2⟩
    | _ => exact agree_failure hC
  | _ => exact agree_failure hC

theorem agree_commonFactor? {c c' d d' : Ref} (hC : C.Over g h) (ha : C.Rel g h a a')
    (hb : C.Rel g h b b') (hc : C.Rel g h c c') (hd : C.Rel g h d d') :
    Option.Rel (fun x y => C.Rel g h x.1 y.1 ∧ C.Rel g h x.2.1 y.2.1 ∧ C.Rel g h x.2.2 y.2.2)
      (commonFactor? a b c d) (commonFactor? a' b' c' d') := by
  simp only [commonFactor?, ← C.eq_iff hC ha hc, ← C.eq_iff hC ha hd, ← C.eq_iff hC hb hc,
    ← C.eq_iff hC hb hd]
  split_ifs
  · exact .some ⟨ha, hb, hd⟩
  · exact .some ⟨ha, hb, hc⟩
  · exact .some ⟨hb, ha, hd⟩
  · exact .some ⟨hb, ha, hc⟩
  · exact .none

theorem reducing_factorCommon : Reducing factorCommon := by
  intro C g h r r' hC hr
  refine agree_get ?_
  have hmatch := C.op hC hr
  generalize hop : g.op r = o, h.op r' = p at hmatch
  cases hmatch with
  | @binary op left left' right right' hleft hright =>
    cases op with
    | add =>
      have hmatchl := C.op hC hleft
      have hmatchr := C.op hC hright
      simp only
      generalize hopl : g.op left = o, h.op left' = p at hmatchl
      generalize hopr : g.op right = q, h.op right' = s at hmatchr
      cases hmatchl with
      | binary opl ha hb =>
        cases hmatchr with
        | binary opr hc hd =>
          cases opl with
          | mul =>
            cases opr with
            | mul =>
              refine (agree_option hC (agree_commonFactor? hC ha hb hc hd)).bind ?_
              rintro ⟨s, x, y⟩ ⟨s', x', y'⟩ g h hl ⟨⟨rfl, rfl⟩, ⟨hs, hx, hy⟩, hcommon⟩
              refine (agree_applies hC .add hx hy).bind fun m m' g₁ h₁ hl hm => ?_
              refine (agree_applies hl.after .mul (hl.rel hC hs) hm.1).mono ?_
              intro n n' g' h' hl' hn
              have hsum := hm.2.grows (C.sound hl.after).1.wellFormed hl'.left
              exact ⟨hn.1, .factor hop hopl hopr hcommon hsum hn.2⟩
            | _ => exact agree_failure hC
          | _ => exact agree_failure hC
        | _ => cases opl <;> exact agree_failure hC
      | _ => exact agree_failure hC
    | _ => exact agree_failure hC
  | _ => exact agree_failure hC

theorem reducing_algebraicRules {rule : Rule} (h : rule ∈ RuleTable.algebraicRules) :
    ∃ apply, (rule.apply = fun _ => apply) ∧ Reducing apply := by
  simp only [RuleTable.algebraicRules, RuleTable.symbolicRules, List.take_succ_cons, List.take_zero,
    List.mem_cons, List.not_mem_nil, or_false] at h
  rcases h with rfl | rfl | rfl | rfl | rfl | rfl | rfl | rfl | rfl | rfl | rfl | rfl
  · exact ⟨_, rfl, reducing_foldUnary⟩
  · exact ⟨_, rfl, reducing_foldBinary⟩
  · exact ⟨_, rfl, reducing_foldTernary⟩
  · exact ⟨_, rfl, reducing_foldCast⟩
  · exact ⟨_, rfl, reducing_constToRight⟩
  · exact ⟨_, rfl, reducing_subtractConst⟩
  · exact ⟨_, rfl, reducing_identity⟩
  · exact ⟨_, rfl, reducing_annihilator⟩
  · exact ⟨_, rfl, reducing_selfCancel⟩
  · exact ⟨_, rfl, reducing_foldSelect⟩
  · exact ⟨_, rfl, reducing_combineConsts⟩
  · exact ⟨_, rfl, reducing_factorCommon⟩

/-! ### Bounds -/

theorem divisor?_eq (hC : C.Over g h) (ha : C.Rel g h a a') : divisor? g a = divisor? h a' := by
  rw [divisor?, divisor?, C.const? hC ha]

theorem performs_foldByRange : Performs Graph.Bounds foldByRange := by
  intro C g h r r' hC hr
  refine agree_get ?_
  have hmatch := C.op hC hr
  generalize hop : g.op r = o, h.op r' = p at hmatch
  cases hmatch with
  | binary op ha hb =>
    cases op with
    | lt =>
      simp only [← C.range hC ha, ← C.range hC hb]
      refine agree_ofOption hC fun less hless => ?_
      exact (agree_holdsConst hC _ _).mono fun n n' g' h' _ hn => ⟨hn.1, .less hop hless hn.2⟩
    | _ =>
      dsimp only
      rw [← C.range hC ha, ← divisor?_eq hC hb, ← C.dtype hC hr]
      refine agree_ite (fun hkind => ?_) fun _ => agree_failure hC
      refine agree_ofOption hC fun d hd => agree_ofOption hC fun p hp => agree_check hC fun hbounds => ?_
      refine agree_ite (fun hmod => agree_pure hC ⟨ha, .small hop hd hp hbounds (.inl ⟨hmod, rfl⟩)⟩)
        fun hmod => (agree_holdsConst hC _ _).mono fun n n' g' h' _ hn => ?_
      exact ⟨hn.1, .small hop hd hp hbounds (.inr ⟨hkind.resolve_left hmod, hn.2⟩)⟩
  | _ => exact agree_failure hC

/-! ### Splitting by a divisor -/

theorem product?_rel (hC : C.Over g h) (ha : C.Rel g h a a') :
    Option.Rel (fun x y => C.Rel g h x.1 y.1 ∧ x.2 = y.2) (Addends.product? g a)
      (Addends.product? h a') := by
  have hop := C.op hC ha
  simp only [Addends.product?]
  generalize g.op a = o, h.op a' = p at hop
  cases hop with
  | binary op hx hc =>
    cases op with
    | mul =>
      simp only [C.const? hC hc]
      cases (h.const? _).bind Value.toInt? with
      | none => exact .none
      | some k => exact .some ⟨hx, rfl⟩
    | _ => exact .none
  | _ => exact .none

theorem multiple?_rel (hC : C.Over g h) (n : Int) (ha : C.Rel g h a a') :
    Option.Rel (fun x y => C.Rel g h x.1 y.1 ∧ x.2 = y.2) (Addends.multiple? g n a)
      (Addends.multiple? h n a') := by
  have hproduct := product?_rel hC ha
  rw [Addends.multiple?, Addends.multiple?]
  generalize Addends.product? g a = o, Addends.product? h a' = p at hproduct
  cases hproduct with
  | none => exact .none
  | @some x y hxy =>
    obtain ⟨x, k⟩ := x
    obtain ⟨y, k'⟩ := y
    obtain ⟨hx, rfl⟩ := hxy
    simp only [Option.bind_some]
    split
    · exact .some ⟨hx, rfl⟩
    · exact .none

theorem isOther_eq (hC : C.Over g h) (n : Int) (ha : C.Rel g h a a') :
    Addends.isOther g n a = Addends.isOther h n a' := by
  have hmultiple := multiple?_rel hC n ha
  rw [Addends.isOther, Addends.isOther, C.const? hC ha]
  generalize Addends.multiple? g n a = o, Addends.multiple? h n a' = p at hmultiple
  cases hmultiple <;> rfl

/-- Sums that were sorted alike. -/
structure AddendsRel (C : Correspondence) (g h : Graph) (s s' : Addends) : Prop where
  multiples : List.Forall₂ (fun x y => C.Rel g h x.1 y.1 ∧ x.2 = y.2) s.multiples s'.multiples
  others : List.Forall₂ (C.Rel g h) s.others s'.others
  constant : s.constant = s'.constant

theorem ofNode_rel (hC : C.Over g h) (n : Int) (ha : C.Rel g h a a') :
    Option.Rel (AddendsRel C g h) (Addends.ofNode g n a) (Addends.ofNode h n a') := by
  have hterms := C.addends hC ha
  have hconsts : (g.addends a).filterMap g.const? = (h.addends a').filterMap h.const? := by
    rw [← List.forall₂_eq_eq_eq]
    refine List.rel_filterMap (fun x y hxy => ?_) hterms
    rw [C.const? hC hxy]
    cases h.const? y with
    | none => exact .none
    | some v => exact .some rfl
  simp only [Addends.ofNode, hconsts]
  cases Addends.sumConsts 0 _ with
  | none => exact .none
  | some c =>
    refine .some ⟨List.rel_filterMap (fun x y hxy => multiple?_rel hC n hxy) hterms, ?_, rfl⟩
    exact List.rel_filter (fun x y hxy => Bool.eq_iff_iff.mp (isOther_eq hC n hxy)) hterms

theorem AddendsRel.leads {s s' : Addends} {g' h' : Graph} (hs : AddendsRel C g h s s')
    (hC : C.Over g h) (hl : C.Leads g h g' h') : AddendsRel C g' h' s s' :=
  ⟨hs.multiples.imp fun _ _ hxy => ⟨hl.rel hC hxy.1, hxy.2⟩, hl.rels hC hs.others, hs.constant⟩

end Rule

namespace Attempt

/-- Sums that may still be empty. -/
def RelatedSums (C : Correspondence) (o p : Option Ref) (g h : Graph) : Prop :=
  Option.Rel (C.Rel g h) o p

variable {α : Type} {R : Graph → α → Ref → Prop} {xs : List α} {x : α} {o p : Option Ref}
  {s s' : Addends} (hC : C.Over g h)

include hC

theorem RelatedSums.leads {g' h' : Graph} (hop : RelatedSums C o p g h) (hl : C.Leads g h g' h') :
    RelatedSums C o p g' h' := by
  cases hop with
  | none => exact .none
  | some hab => exact .some (hl.rel hC hab)

theorem agree_addTo (hop : RelatedSums C o p g h) (ha : C.Rel g h a a') (ho : Graph.Adds R g xs o)
    (hx : R g x a) (hR : ∀ g', g.Grows g' → ∀ x r, R g x r → R g' x r) :
    Agree C (addTo o a) (addTo p a') g h fun o' p' g' h' =>
      RelatedSums C o' p' g' h' ∧ Graph.Adds R g' (xs ++ [x]) o' := by
  cases hop with
  | none =>
    obtain rfl := ho.eq_nil
    exact agree_pure hC ⟨.some ha, .single hx⟩
  | some hs =>
    simp only [addTo, ← bind_pure_comp]
    refine (Rule.agree_applies hC .add hs ha).bind fun n n' g' h' hl hn => ?_
    refine agree_pure hl.after ⟨.some hn.1, .snoc ?_ (hR g' hl.left _ _ hx) hn.2⟩
    exact ho.grows (C.sound hC).1.wellFormed hl.left (hR g' hl.left)

theorem agree_scaled (t : DType) (k : Int) (ha : C.Rel g h a a') :
    Agree C (scaled t a k) (scaled t a' k) g h fun n n' g' h' =>
      C.Rel g' h' n n' ∧ Graph.Scales t g' (a, k) n := by
  refine agree_ite (fun hk => agree_pure hC ⟨ha, .inl ⟨hk, rfl⟩⟩) fun hk => ?_
  refine (Rule.agree_holdsConst hC _ _).bind fun c c' g' h' hl hc => ?_
  refine (Rule.agree_applies hl.after .mul (hl.rel hC ha) hc.1).mono fun n n' g₁ h₁ hl' hn => ?_
  exact ⟨hn.1, .inr ⟨hk, c, hl'.left.holds hc.2, hn.2⟩⟩

theorem agree_remainder (t : DType) (d : Int) (hs : Rule.AddendsRel C g h s s') :
    Agree C (remainder t d s) (remainder t d s') g h fun n n' g' h' =>
      C.Rel g' h' n n' ∧ Graph.Totals Graph.Itself g' s.others (s.constant % d) t n := by
  refine (agree_foldlM (P := fun a b g h => C.Rel g h a b)
    (I := fun done o p g h => RelatedSums C o p g h ∧ Graph.Adds Graph.Itself g done o)
    (fun a b g h g' h' hC hl => hl.rel hC) (fun done a b o p g h hC hab hop =>
      agree_addTo hC hop.1 hab hop.2 rfl fun _ _ _ _ => id) hC hs.others [] ⟨.none, .nil⟩).bind ?_
  rintro o p g' h' hl ⟨hop, ho⟩
  rw [← hs.constant]
  refine agree_ite (fun _ => ?_) fun hzero => ?_
  · refine (Rule.agree_holdsConst hl.after _ _).bind fun c c' g₁ h₁ hl' hc => ?_
    have ho' := ho.grows (C.sound hl.after).1.wellFormed hl'.left fun _ _ => id
    cases hop.leads hl.after hl' with
    | none => exact agree_pure hl'.after ⟨hc.1, .inl ⟨ho'.eq_nil, hc.2⟩⟩
    | some hab =>
      simp only [addTo, ← bind_pure_comp, bind_assoc, pure_bind]
      refine (Rule.agree_applies hl'.after .add hab hc.1).bind fun n n' g₂ h₂ hl'' hn => ?_
      refine agree_pure hl''.after ⟨hn.1, .inr ⟨_, ?_, .inr ⟨c, hl''.left.holds hc.2, hn.2⟩⟩⟩
      exact ho'.grows (C.sound hl'.after).1.wellFormed hl''.left fun _ _ => id
  · rw [not_not.mp hzero]
    cases hop with
    | none => exact (Rule.agree_holdsConst hl.after _ _).mono fun n n' g₁ h₁ _ hn =>
        ⟨hn.1, .inl ⟨ho.eq_nil, hn.2⟩⟩
    | some hab => exact agree_pure hl.after ⟨hab, .inr ⟨_, ho, .inl ⟨rfl, rfl⟩⟩⟩

theorem agree_quotient (t : DType) (d : Int) (hs : Rule.AddendsRel C g h s s') :
    Agree C (quotient t d s) (quotient t d s') g h fun n n' g' h' =>
      C.Rel g' h' n n' ∧ Graph.Totals (Graph.Scales t) g' s.multiples (s.constant / d) t n := by
  have hscales : ∀ {g h g'}, C.Over g h → g.Grows g' → ∀ x r, Graph.Scales t g x r →
      Graph.Scales t g' x r := fun hC hgrows _ _ hx => hx.grows (C.sound hC).1.wellFormed hgrows
  refine (agree_foldlM (P := fun (x y : Ref × Int) g h => C.Rel g h x.1 y.1 ∧ x.2 = y.2)
    (I := fun done o p g h => RelatedSums C o p g h ∧ Graph.Adds (Graph.Scales t) g done o)
    (fun a b _ _ _ _ hC hl hab => ⟨hl.rel hC hab.1, hab.2⟩) (fun done x y o p g h hC hxy hop => ?_)
    hC hs.multiples [] ⟨.none, .nil⟩).bind ?_
  · obtain ⟨x, k⟩ := x
    obtain ⟨y, k'⟩ := y
    obtain ⟨hx, rfl⟩ := hxy
    refine (agree_scaled hC t k hx).bind fun n n' g' h' hl hn => ?_
    have ho := hop.2.grows (C.sound hC).1.wellFormed hl.left (hscales hC hl.left)
    exact agree_addTo hl.after (hop.1.leads hC hl) hn.1 ho hn.2 fun _ => hscales hl.after
  · rintro o p g' h' hl ⟨hop, ho⟩
    rw [← hs.constant]
    refine (Rule.agree_holdsConst hl.after _ _).bind fun c c' g₁ h₁ hl' hc => ?_
    have ho' := ho.grows (C.sound hl.after).1.wellFormed hl'.left (hscales hl.after hl'.left)
    cases hop.leads hl.after hl' with
    | none => exact agree_pure hl'.after ⟨hc.1, .inl ⟨ho'.eq_nil, hc.2⟩⟩
    | some hab =>
      refine agree_ite (fun hzero => ?_) fun _ => ?_
      · exact agree_pure hl'.after ⟨hab, .inr ⟨_, ho', .inl ⟨hzero, rfl⟩⟩⟩
      · refine (Rule.agree_applies hl'.after .add hab hc.1).mono fun n n' g₂ h₂ hl'' hn => ?_
        refine ⟨hn.1, .inr ⟨_, ?_, .inr ⟨c, hl''.left.holds hc.2, hn.2⟩⟩⟩
        exact ho'.grows (C.sound hl'.after).1.wellFormed hl''.left (hscales hl'.after hl''.left)

theorem agree_split (d : Int) (ha : C.Rel g h a a') :
    Agree C (split a d) (split a' d) g h fun x y g' h' => (C.Rel g' h' x.1 y.1 ∧ C.Rel g' h' x.2 y.2) ∧
      ∃ mid s, Graph.Splits g mid g' a d s x.1 x.2 := by
  refine agree_get ?_
  simp only [← C.range hC ha, ← C.dtype hC ha]
  refine agree_ofOption hC fun bounds hbounds => agree_check hC fun hlo => ?_
  refine (agree_option hC (Rule.ofNode_rel hC d ha)).bind ?_
  rintro s s' g h - ⟨⟨rfl, rfl⟩, hs, hsorted⟩
  have hempty : s.multiples.isEmpty = s'.multiples.isEmpty := by
    rw [Bool.eq_iff_iff, List.isEmpty_iff_length_eq_zero, List.isEmpty_iff_length_eq_zero,
      hs.multiples.length_eq]
  simp only [hs.constant, hempty]
  refine agree_check hC fun _ => ?_
  refine (agree_remainder hC _ d hs).bind fun r r' g₁ h₁ hl hr => ?_
  refine agree_get ?_
  rw [← C.range hl.after hr.1]
  refine agree_ofOption hl.after fun rest hrest => agree_check hl.after fun hsmall => ?_
  refine (agree_quotient hl.after _ d (hs.leads hC hl)).bind fun q q' g₂ h₂ hl' hq => ?_
  exact agree_pure hl'.after ⟨⟨hq.1, hl'.rel hl.after hr.1⟩, g₁, s, hsorted, ⟨_, hbounds, not_lt.mp hlo⟩,
    hl.left, hl'.left, hr.2, ⟨_, hrest, by omega⟩, hq.2⟩

end Attempt

namespace Rule

open Attempt Correspondence

theorem performs_splitDivision : Performs Graph.Divides splitDivision := by
  intro C g h r r' hC hr
  refine agree_get ?_
  have hmatch := C.op hC hr
  generalize hop : g.op r = o, h.op r' = p at hmatch
  cases hmatch with
  | binary op ha hb =>
    simp only [← divisor?_eq hC hb, ← C.dtype hC hr]
    refine agree_ite (fun hkind => ?_) fun _ => agree_failure hC
    refine agree_ofOption hC fun d hd => agree_check hC fun hbad => ?_
    rw [not_or, not_le, not_not] at hbad
    refine (agree_split hC d ha).bind ?_
    rintro x y g' h' hl ⟨hxy, mid, s, hsplits⟩
    refine agree_pure hl.after ⟨?_, .split hop hkind hd hbad.1 hbad.2 hsplits⟩
    by_cases hop : op = .idiv
    · simp only [if_pos hop]
      exact hxy.1
    · simp only [if_neg hop]
      exact hxy.2
  | _ => exact agree_failure hC

/-! ### Memory and reductions -/

theorem uniform_loadGate : Uniform loadGate := by
  intro C g h r r' hC hr
  refine agree_get ?_
  have hop := C.op hC hr
  generalize g.op r = o, h.op r' = p at hop
  cases hop with
  | gatedLoad hb hi hv ha =>
    simp only [C.const? hC hv]
    refine agree_ofOption hC fun v _ => ?_
    exact agree_ite (fun _ => Build.agree_load hC hb hi) fun _ => agree_pure hC ha
  | _ => exact agree_failure hC

theorem agree_noop (hC : C.Over g h) :
    Agree C (Build.noop : GraphM Ref) (Build.noop : GraphM Ref) g h C.Related :=
  agree_insert hC .noop nofun

theorem uniform_storeGate : Uniform storeGate := by
  intro C g h r r' hC hr
  refine agree_get ?_
  have hop := C.op hC hr
  have hw := fun c => C.writable hC hr (c := c)
  generalize g.op r = o, h.op r' = p at hop hw
  cases hop with
  | gatedStore hb hi hx hv =>
    simp only [C.const? hC hv]
    refine agree_ofOption hC fun v _ => ?_
    exact agree_ite (fun _ => Build.agree_store hC hb (hw _ rfl) hi hx .none) fun _ => agree_noop hC
  | _ => exact agree_failure hC

variable {c c' : Ref} {o p : Option Ref} {rs rs' : Readers}

theorem readsPlace_eq (hC : C.Over g h) (ha : C.Rel g h a a') (hb : C.Rel g h b b')
    (hc : C.Rel g h c c') : readsPlace g a b c = readsPlace h a' b' c' := by
  have hop := C.op hC ha
  rw [readsPlace, readsPlace]
  generalize g.op a = o, h.op a' = p at hop
  cases hop with
  | load hbuffer hindex =>
    rw [Bool.eq_iff_iff]
    simp only [Bool.and_eq_true, beq_iff_eq]
    rw [C.eq_iff hC hbuffer hb, C.eq_iff hC hindex hc]
  | _ => rfl

theorem uniform_redundantStore : Uniform redundantStore := by
  intro C g h r r' hC hr
  refine agree_get ?_
  have hop := C.op hC hr
  generalize g.op r = o, h.op r' = p at hop
  cases hop with
  | store hb hi hx | gatedStore hb hi hx =>
    simp only [readsPlace_eq hC hx hb hi]
    exact agree_ite (fun _ => agree_noop hC) fun _ => agree_failure hC
  | _ => exact agree_failure hC

theorem agree_bothHold (hC : C.Over g h) (hop : Option.Rel (C.Rel g h) o p) (ha : C.Rel g h a a') :
    Agree C (bothHold o a) (bothHold p a') g h C.Related := by
  cases hop with
  | none => exact agree_pure hC ha
  | some hg => exact agree_binary hC .and hg ha

theorem agree_gatedStore (hC : C.Over g h) (ha : C.Rel g h a a') (hw : C.Writable g a)
    (hb : C.Rel g h b b') (hc : C.Rel g h c c') (hop : Option.Rel (C.Rel g h) o p) : Agree C
      (match g.op c with
      | .ternary .select cond yes no =>
        if readsPlace g no a b then do
          let gate ← bothHold o cond
          Build.toAttempt (Build.store a b yes (some gate))
        else failure
      | _ => failure)
      (match h.op c' with
      | .ternary .select cond yes no =>
        if readsPlace h no a' b' then do
          let gate ← bothHold p cond
          Build.toAttempt (Build.store a' b' yes (some gate))
        else failure
      | _ => failure) g h C.Related := by
  have hvalue := C.op hC hc
  generalize g.op c = x, h.op c' = y at hvalue
  cases hvalue with
  | ternary op hcond hyes hno =>
    cases op with
    | select =>
      simp only [readsPlace_eq hC hno ha hb]
      refine agree_ite (fun _ => ?_) fun _ => agree_failure hC
      refine (agree_bothHold hC hop hcond).bind fun n n' g' h' hl hn => ?_
      exact Build.agree_store hl.after (hl.rel hC ha) (C.writable_grows hC hl.left hw)
        (hl.rel hC hb) (hl.rel hC hyes) (.some hn)
    | _ => exact agree_failure hC
  | _ => exact agree_failure hC

theorem uniform_gatedStore : Uniform gatedStore := by
  intro C g h r r' hC hr
  refine agree_get ?_
  have hop := C.op hC hr
  have hw := fun c => C.writable hC hr (c := c)
  generalize g.op r = o, h.op r' = p at hop hw
  cases hop with
  | store hb hi hx => exact agree_gatedStore hC hb (hw _ rfl) hi hx .none
  | gatedStore hb hi hx hv => exact agree_gatedStore hC hb (hw _ rfl) hi hx (.some hv)
  | _ => exact agree_failure hC

theorem isNoop_eq (hC : C.Over g h) (ha : C.Rel g h a a') : (g.op a).isNoop = (h.op a').isNoop := by
  have hop := C.op hC ha
  generalize g.op a = o, h.op a' = p at hop
  cases hop <;> rfl

theorem uniform_dropNoops : Uniform dropNoops := by
  intro C g h r r' hC hr
  refine agree_get ?_
  have hop := C.op hC hr
  generalize g.op r = o, h.op r' = p at hop
  cases hop with
  | @sink rs rs' hrs =>
    simp only [C.any_eq hrs fun a b hab => isNoop_eq hC hab]
    refine agree_ite (fun _ => ?_) fun _ => agree_failure hC
    refine agree_insert hC (.sink (List.rel_filter (fun x y hxy => ?_) hrs)) nofun
    exact Bool.eq_iff_iff.mp (by rw [isNoop_eq hC hxy])
  | _ => exact agree_failure hC

theorem startsAtZero_eq (hC : C.Over g h) (ha : C.Rel g h a a') :
    startsAtZero g a = startsAtZero h a' := by
  have hop := C.op hC ha
  rw [startsAtZero, startsAtZero]
  generalize g.op a = o, h.op a' = p at hop
  cases hop <;> rfl

theorem agree_cast (hC : C.Over g h) (t : DType) (ha : C.Rel g h a a') :
    Agree C (Build.cast a t : GraphM Ref) (Build.cast a' t : GraphM Ref) g h C.Related := by
  change Agree C
    ((if g.dtype a = t then pure (g.resolve a) else Build.insert (.cast a) t : GraphM Ref))
    ((if h.dtype a' = t then pure (h.resolve a') else Build.insert (.cast a') t : GraphM Ref)) g h _
  rw [C.dtype hC ha]
  by_cases ht : h.dtype a' = t
  · rw [if_pos ht, if_pos ht]
    exact agree_pure hC (C.resolve hC ha)
  · rw [if_neg ht, if_neg ht]
    exact agree_insert hC (.cast ha) nofun

theorem uniform_collapseSum : Uniform collapseSum := by
  intro C g h r r' hC hr
  refine agree_get ?_
  have hop := C.op hC hr
  have ht := C.dtype hC hr
  generalize g.op r = o, h.op r' = p at hop
  cases hop with
  | @phi acc acc' value value' ls ls' hacc hvalue hloops =>
    obtain _ | ⟨hrange, _ | ⟨_, _⟩⟩ := hloops
    · exact agree_failure hC
    · case cons.nil range range' =>
        have hopv := C.op hC hvalue
        have hopr := C.op hC hrange
        have hdepends := fun {v v' : Ref} (hv : C.Rel g h v v') => C.dependsOn hC hv hrange
        simp only [startsAtZero_eq hC hacc, ht]
        generalize g.op value = o, h.op value' = p at hopv
        generalize g.op range = q, h.op range' = s at hopr
        cases hopv with
        | binary op hleft hv =>
          cases op with
          | add =>
            cases hopr with
            | loop axis hstart hstop =>
              simp only [C.eq_iff hC hleft hacc, C.dependsOn hC hv hacc, hdepends hv]
              refine agree_ite (fun _ => ?_) fun _ => agree_failure hC
              refine (agree_binary hC .sub hstop hstart).bind fun n n' g' h' hl hn => ?_
              refine (agree_cast hl.after _ hn).bind fun m m' g'' h'' hl' hm => ?_
              exact agree_binary hl'.after .mul (hl'.rel hl.after (hl.rel hC hv)) hm
            | _ => exact agree_failure hC
          | _ => cases hopr <;> exact agree_failure hC
        | _ => exact agree_failure hC
    · exact agree_failure hC
  | _ => exact agree_failure hC

/-! ### Hoisting -/

/-- Readers that are told alike. -/
def ReadersRel (C : Correspondence) (g h : Graph) : Readers → Readers → Prop :=
  List.Forall₂ fun x y => C.Rel g h x.1 y.1 ∧ List.Forall₂ (C.Rel g h) x.2 y.2

theorem ReadersRel.leads {g' h' : Graph} (hrs : ReadersRel C g h rs rs') (hC : C.Over g h)
    (hl : C.Leads g h g' h') : ReadersRel C g' h' rs rs' :=
  hrs.imp fun _ _ hxy => ⟨hl.rel hC hxy.1, hl.rels hC hxy.2⟩

theorem ReadersRel.lookup (hrs : ReadersRel C g h rs rs') (hC : C.Over g h) (ha : C.Rel g h a a') :
    List.Forall₂ (C.Rel g h) ((rs.lookup a).getD []) ((rs'.lookup a').getD []) := by
  induction hrs with
  | nil => exact .nil
  | @cons x y _ _ hxy _ ih =>
    obtain ⟨k, ns⟩ := x
    obtain ⟨k', ns'⟩ := y
    simp only [List.lookup_cons]
    by_cases hk : a = k
    · have hk' := (C.eq_iff hC ha hxy.1).mp hk
      simp only [hk, hk', beq_self_eq_true]
      exact hxy.2
    · have hk' := fun heq => hk ((C.eq_iff hC ha hxy.1).mpr heq)
      rw [beq_false_of_ne hk, beq_false_of_ne hk']
      exact ih

/-- A loop and what hoisting puts in its place. -/
structure Shift where
  range : Ref
  start : Ref
  stop : Ref
  axis : LoopAxis

def Shift.instr (s : Shift) : Instr := ⟨.loop s.start s.stop s.axis, .index⟩

/-- Hoisting up to where the loop is overwritten. -/
def planShift (readers : Readers) (r : Ref) : Attempt Shift := do
  let g ← get
  let (range, offset) ← Attempt.ofOption (counterSum? g r)
  match g.op range with
  | .loop start stop axis =>
    if (g.range offset).isNone ∨ (g.order offset).any fun n => (g.op n).isLoop then failure
    let direct := ((readers.lookup range).getD []).filter fun n => !isStructural g n range
    if direct ≠ [r] then failure
    let start ← Build.toAttempt (Build.add start offset)
    let stop ← Build.toAttempt (Build.add stop offset)
    return ⟨range, start, stop, axis⟩
  | _ => failure

theorem hoistOffset_eq (readers : Readers) (r : Ref) :
    hoistOffset readers r = do
      let s ← planShift readers r
      modify fun g => g.replace s.range s.instr
      return s.range := by
  simp only [hoistOffset, planShift, bind_assoc]
  refine bind_congr fun g => bind_congr fun p => ?_
  cases g.op p.1 with
  | loop start stop axis =>
    simp only
    split_ifs <;> simp only [bind_assoc, pure_bind, Shift.instr]
  | _ => rfl

theorem isStructural_eq (hC : C.Over g h) (ha : C.Rel g h a a') (hb : C.Rel g h b b') :
    isStructural g a b = isStructural h a' b' := by
  have hop := C.op hC ha
  rw [isStructural, isStructural]
  generalize g.op a = o, h.op a' = p at hop
  cases hop with
  | defineAcc slot init hls | phi hacc hvalue hls => exact C.contains hC hb hls
  | _ => rfl

theorem isLoop_eq (hC : C.Over g h) (ha : C.Rel g h a a') : (g.op a).isLoop = (h.op a').isLoop := by
  have hop := C.op hC ha
  generalize g.op a = o, h.op a' = p at hop
  cases hop <;> rfl

theorem counterSum?_rel (hC : C.Over g h) (ha : C.Rel g h a a') :
    Option.Rel (fun x y => C.Rel g h x.1 y.1 ∧ C.Rel g h x.2 y.2) (counterSum? g a)
      (counterSum? h a') := by
  have hop := C.op hC ha
  rw [counterSum?, counterSum?]
  generalize g.op a = o, h.op a' = p at hop
  cases hop with
  | binary op hx hy =>
    cases op with
    | add =>
      simp only [isLoop_eq hC hx, isLoop_eq hC hy]
      split_ifs
      · exact .some ⟨hx, hy⟩
      · exact .some ⟨hy, hx⟩
      · exact .none
    | _ => exact .none
  | _ => exact .none

/-- Shifts of corresponding loops to corresponding bounds. -/
structure RelatedShifts (C : Correspondence) (s s' : Shift) (g h : Graph) : Prop where
  range : C.Rel g h s.range s'.range
  start : C.Rel g h s.start s'.start
  stop : C.Rel g h s.stop s'.stop
  axis : s.axis = s'.axis

theorem agree_planShift (hC : C.Over g h) (hrs : ReadersRel C g h rs rs') (hr : C.Rel g h r r') :
    Agree C (planShift rs r) (planShift rs' r') g h (RelatedShifts C) := by
  refine agree_get ?_
  refine (agree_option hC (counterSum?_rel hC hr)).bind ?_
  rintro ⟨x, y⟩ ⟨x', y'⟩ g h - ⟨⟨rfl, rfl⟩, ⟨hx, hy⟩, -⟩
  have hop := C.op hC hx
  have hloops : ((g.order y).any fun n => (g.op n).isLoop) =
      (h.order y').any fun n => (h.op n).isLoop :=
    C.any_eq (C.order hC hy) fun a b hab => isLoop_eq hC hab
  have hdirect : List.Forall₂ (C.Rel g h)
      (((rs.lookup x).getD []).filter fun n => !isStructural g n x)
      (((rs'.lookup x').getD []).filter fun n => !isStructural h n x') := by
    refine List.rel_filter (fun a b hab => ?_) (hrs.lookup hC hx)
    exact Bool.eq_iff_iff.mp (by rw [isStructural_eq hC hab hx])
  simp only [C.range hC hy, hloops, ne_eq, C.list_eq_iff hC hdirect (.cons hr .nil)]
  generalize g.op x = o, h.op x' = p at hop
  cases hop with
  | loop axis hstart hstop =>
    refine agree_check hC fun _ => agree_check hC fun _ => ?_
    refine (agree_binary hC .add hstart hy).bind fun s s' g' h' hl hs => ?_
    refine (agree_binary hl.after .add (hl.rel hC hstop) (hl.rel hC hy)).bind ?_
    intro e e' g'' h'' hl' he
    refine agree_pure hl'.after ⟨?_, hl'.rel hl.after hs, he, rfl⟩
    exact hl'.rel hl.after (hl.rel hC hx)
  | _ => exact agree_failure hC

/-! ### The table -/

theorem uniform_symbolicRules {rule : Rule} (h : rule ∈ RuleTable.symbolicRules) :
    ∃ apply, (rule.apply = fun _ => apply) ∧ Uniform apply := by
  obtain h | h := mem_symbolicRules h
  · obtain ⟨apply, hrule, happly⟩ := reducing_algebraicRules h
    exact ⟨apply, hrule, Performs.uniform happly⟩
  simp only [RuleTable.symbolicRules, List.drop_succ_cons, List.drop_zero, List.mem_cons,
    List.not_mem_nil, or_false] at h
  rcases h with rfl | rfl | rfl | rfl | rfl | rfl | rfl | rfl
  · exact ⟨_, rfl, performs_foldByRange.uniform⟩
  · exact ⟨_, rfl, performs_splitDivision.uniform⟩
  · exact ⟨_, rfl, uniform_loadGate⟩
  · exact ⟨_, rfl, uniform_storeGate⟩
  · exact ⟨_, rfl, uniform_redundantStore⟩
  · exact ⟨_, rfl, uniform_gatedStore⟩
  · exact ⟨_, rfl, uniform_dropNoops⟩
  · exact ⟨_, rfl, uniform_collapseSum⟩

end Rule

end LazyTensor

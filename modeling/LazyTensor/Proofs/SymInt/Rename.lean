import LazyTensor.Proofs.SymInt.Canonical

/-!
# Renaming the variables of symbolic integers

The operations on symbolic integers only compare variables. So related variables may stand in place
of each other throughout, as long as the relation keeps their order. Variables that differ in their
names are such: their values can be stripped, and what is computed then is what was computed before
with the values stripped.
-/

namespace LazyTensor

/-- The same coefficient of related monomials. -/
def TermRel (R : SymVar → SymVar → Prop) (s t : Term) : Prop := List.Forall₂ R s.1 t.1 ∧ s.2 = t.2

/-- Equal up to related variables. -/
inductive SymInt.Rel (R : SymVar → SymVar → Prop) : SymInt → SymInt → Prop
  | const (c : Int) : Rel R (.const c) (.const c)
  | poly {ts us : List Term} : List.Forall₂ (TermRel R) ts us → Rel R (.poly ts) (.poly us)

namespace SymInt

section Rel

variable {R : SymVar → SymVar → Prop} {a a' b b' : SymInt}

theorem Rel.terms (h : Rel R a a') : List.Forall₂ (TermRel R) a.terms a'.terms := by
  cases h with
  | const c => exact .cons ⟨.nil, rfl⟩ .nil
  | poly h => exact h

theorem Rel.eq_const_iff (h : Rel R a a') (c : Int) : a = .const c ↔ a' = .const c := by
  cases h with
  | const d => exact Iff.rfl
  | poly h => simp

theorem Rel.biUnique (hR : Relator.BiUnique R) : Relator.BiUnique (Rel R) := by
  have hterm : Relator.BiUnique (TermRel R) :=
    ⟨fun _ _ _ hs hs' => Prod.ext (hR.forall₂.1 hs.1 hs'.1) (hs.2.trans hs'.2.symm),
      fun _ _ _ hs hs' => Prod.ext (hR.forall₂.2 hs.1 hs'.1) (hs.2.symm.trans hs'.2)⟩
  refine ⟨fun a b c hac hbc => ?_, fun a b c hab hac => ?_⟩
  · cases hac <;> cases hbc
    · rfl
    · next h _ h' => rw [hterm.forall₂.1 h h']
  · cases hab <;> cases hac
    · rfl
    · next h _ h' => rw [hterm.forall₂.2 h h']

theorem ofTerms_rel {ts us : List Term} (h : List.Forall₂ (TermRel R) ts us) :
    Rel R (ofTerms ts) (ofTerms us) := by
  have hkept : List.Forall₂ (TermRel R) (ts.filter (·.2 ≠ 0)) (us.filter (·.2 ≠ 0)) := by
    refine List.rel_filter ?_ h
    rintro s t ⟨-, hcoeff⟩
    simp [hcoeff]
  rw [ofTerms, ofTerms]
  generalize ts.filter (·.2 ≠ 0) = kept at hkept ⊢
  generalize us.filter (·.2 ≠ 0) = kept' at hkept ⊢
  cases hkept with
  | nil => exact .const 0
  | @cons s t _ _ hst hrest =>
    obtain ⟨m, c⟩ := s
    obtain ⟨m', c'⟩ := t
    obtain ⟨hm, rfl⟩ : List.Forall₂ R m m' ∧ c = c' := hst
    cases hm with
    | nil =>
      cases hrest with
      | nil => exact .const c
      | cons hu hrest => exact .poly (.cons ⟨.nil, rfl⟩ (.cons hu hrest))
    | cons hv hm => exact .poly (.cons ⟨.cons hv hm, rfl⟩ hrest)

variable (hR : ∀ {v v' w w'}, R v v' → R w w' → SymVar.cmp v' w' = SymVar.cmp v w)

include hR

theorem cmp_rel {m m' k k' : Monomial} (hm : List.Forall₂ R m m') (hk : List.Forall₂ R k k') :
    Monomial.cmp m' k' = Monomial.cmp m k := by
  induction hm generalizing k k' with
  | nil => cases hk <;> rfl
  | cons hv _ ih =>
    cases hk with
    | nil => rfl
    | cons hw hk => exact congrArg₂ Ordering.then (hR hv hw) (ih hk)

theorem sorted_rel {vs ws : List SymVar} (h : List.Forall₂ R vs ws) :
    List.Forall₂ R (Monomial.sorted vs) (Monomial.sorted ws) := by
  have hinsert : ∀ {v w : SymVar} {vs ws : List SymVar}, R v w → List.Forall₂ R vs ws →
      List.Forall₂ R (insertSorted (fun a b => SymVar.cmp a b != .gt) v vs)
        (insertSorted (fun a b => SymVar.cmp a b != .gt) w ws) := by
    intro v w vs ws hvw h
    induction h with
    | nil => exact .cons hvw .nil
    | cons hx hrest ih =>
      rw [insertSorted, insertSorted, hR hvw hx]
      split
      · exact .cons hvw (.cons hx hrest)
      · exact .cons hx ih
  induction h with
  | nil => exact .nil
  | cons hvw _ ih => exact hinsert hvw ih

variable [Width]

theorem addTerms_rel {new new' old old' : List Term} (hnew : List.Forall₂ (TermRel R) new new')
    (hold : List.Forall₂ (TermRel R) old old') :
    List.Forall₂ (TermRel R) (addTerms new old) (addTerms new' old') := by
  refine List.rel_foldl (fun acc acc' hacc t t' ht => ?_) hold hnew
  obtain ⟨m, c⟩ := t
  obtain ⟨m', c'⟩ := t'
  obtain ⟨hm, rfl⟩ : List.Forall₂ R m m' ∧ c = c' := ht
  induction hacc with
  | nil => exact .cons ⟨hm, rfl⟩ .nil
  | @cons s s' _ _ hs hrest ih =>
    rw [addTerm, addTerm, cmp_rel hR hm hs.1]
    cases Monomial.cmp m s.1 with
    | lt => exact .cons ⟨hm, rfl⟩ (.cons hs hrest)
    | eq => exact .cons ⟨hs.1, congrArg (fun x => Width.wrap (x + c)) hs.2⟩ hrest
    | gt => exact .cons hs ih

theorem Rel.mul (ha : Rel R a a') (hb : Rel R b b') : Rel R (a * b) (a' * b') := by
  rw [mul_eq, mul_eq]
  refine ofTerms_rel (addTerms_rel hR (List.rel_flatMap ha.terms fun s s' hs => ?_) .nil)
  refine List.rel_map (fun t t' ht => ⟨sorted_rel hR (List.rel_append hs.1 ht.1), ?_⟩) hb.terms
  show Width.wrap (s.2 * t.2) = Width.wrap (s'.2 * t'.2)
  rw [hs.2, ht.2]

theorem Rel.subst (h : Rel R a a') {f f' : SymVar → Option Int} (hf : ∀ v w, R v w → f v = f' w) :
    Rel R (a.subst f) (a'.subst f') := by
  rw [subst_eq, subst_eq]
  refine ofTerms_rel (addTerms_rel hR (List.rel_map ?_ h.terms) .nil)
  rintro ⟨m, c⟩ ⟨m', c'⟩ ht
  obtain ⟨hm, rfl⟩ : List.Forall₂ R m m' ∧ c = c' := ht
  induction hm with
  | nil => exact ⟨.nil, rfl⟩
  | @cons v w _ _ hvw _ ih =>
    rw [substTerm, substTerm, List.foldr_cons, List.foldr_cons, ← hf v w hvw]
    cases f v with
    | some x => exact ⟨ih.1, congrArg (fun y => Width.wrap (y * x)) ih.2⟩
    | none => exact ⟨.cons hvw ih.1, ih.2⟩

end Rel

/-! ### Terms in order -/

theorem addTerms_of_sorted [Width] {ts : List Term} (h : SortedTerms ts) : addTerms ts [] = ts := by
  have hlast : ∀ {m : Monomial} {c : Int} {acc : List Term},
      (∀ t ∈ acc, Monomial.cmp t.1 m = .lt) → addTerm m c acc = acc ++ [(m, c)] := by
    intro m c acc hacc
    induction acc with
    | nil => rfl
    | cons t acc ih =>
      rw [List.forall_mem_cons] at hacc
      rw [addTerm, Std.OrientedCmp.gt_iff_lt.mpr hacc.1]
      exact congrArg (t :: ·) (ih hacc.2)
  have happend : ∀ {ts acc : List Term}, (acc ++ ts).Pairwise (fun s t => Monomial.cmp s.1 t.1 = .lt) →
      addTerms ts acc = acc ++ ts := by
    intro ts
    induction ts with
    | nil => exact fun _ => (List.append_nil _).symm
    | cons t ts ih =>
      intro acc hacc
      have hbefore : ∀ s ∈ acc, Monomial.cmp s.1 t.1 = .lt := fun s hs =>
        (List.pairwise_append.mp hacc).2.2 s hs t List.mem_cons_self
      have hacc' : acc ++ t :: ts = acc ++ [t] ++ ts := List.append_cons _ _ _
      rw [hacc'] at hacc ⊢
      rw [← ih hacc, ← hlast hbefore]
      rfl
  exact happend h.increasing

theorem Canonical.eq_ofTerms_sorted [Width] {x : SymInt} (h : x.Canonical) :
    ofTerms (addTerms (x.terms.map fun t => (Monomial.sorted t.1, t.2)) []) = x := by
  have hsorted : x.terms.map (fun t => (Monomial.sorted t.1, t.2)) = x.terms := by
    refine (List.map_congr_left fun t ht => ?_).trans (List.map_id _)
    exact Prod.ext ((Monomial.sorted_sorted t.1).eq_of_perm (h.sorted.monomials t ht)
      (sortBy_perm _ _)) rfl
  rw [hsorted, addTerms_of_sorted h.sorted, h.ofTerms_terms]

/-! ### Values stripped -/

/-- A variable of the list, and the same without its value. -/
def Freed (vs : List SymVar) (v w : SymVar) : Prop := v ∈ vs ∧ w = v.unbound

/-- Variables of one name are equal. -/
def NamesApart (vs : List SymVar) : Prop := ∀ v ∈ vs, ∀ w ∈ vs, v.name = w.name → v = w

section Freed

variable {vs : List SymVar} (h : NamesApart vs)

include h

theorem NamesApart.cmp_freed {v v' w w' : SymVar} (hv : Freed vs v v') (hw : Freed vs w w') :
    SymVar.cmp v' w' = SymVar.cmp v w := by
  obtain ⟨hv, rfl⟩ := hv
  obtain ⟨hw, rfl⟩ := hw
  by_cases hname : v.name = w.name
  · obtain rfl := h v hv w hw hname
    exact Std.ReflCmp.compare_self.trans Std.ReflCmp.compare_self.symm
  · have hne : compare v.name w.name ≠ .eq := fun heq => hname (Std.LawfulEqOrd.eq_of_compare heq)
    rw [SymVar.cmp, SymVar.cmp]
    show (compare v.name w.name).then _ = _
    cases hcompare : compare v.name w.name with
    | eq => exact absurd hcompare hne
    | lt | gt => rfl

theorem NamesApart.biUnique : Relator.BiUnique (Freed vs) := by
  refine ⟨?_, fun v _ _ hw hw' => hw.2.trans hw'.2.symm⟩
  rintro v w _ ⟨hv, rfl⟩ ⟨hw, heq⟩
  exact h v hv w hw (show v.unbound.name = w.unbound.name from congrArg SymVar.name heq)

theorem Canonical.rel_unbind [Width] {x : SymInt} (hx : x.Canonical) (hvars : ∀ v ∈ x.vars, v ∈ vs) :
    Rel (Freed vs) x x.unbind.1 := by
  have hterms : List.Forall₂ (TermRel (Freed vs))
      (x.terms.map fun t => (Monomial.sorted t.1, t.2))
      (x.terms.map fun t => (Monomial.sorted (t.1.map SymVar.unbound), t.2)) := by
    rw [List.forall₂_map_left_iff, List.forall₂_map_right_iff, List.forall₂_same]
    intro t ht
    refine ⟨sorted_rel h.cmp_freed ?_, rfl⟩
    rw [List.forall₂_map_right_iff, List.forall₂_same]
    exact fun v hv => ⟨hvars v (mem_vars.mpr ⟨t, ht, hv⟩), rfl⟩
  have hrel := ofTerms_rel (addTerms_rel h.cmp_freed hterms .nil)
  rwa [hx.eq_ofTerms_sorted, ← unbind_eq] at hrel

end Freed

end SymInt

end LazyTensor

import LazyTensor.Proofs.Layout.Shape
import Mathlib.Algebra.BigOperators.Ring.List
import Mathlib.Algebra.MvPolynomial.Funext
import Mathlib.Data.Finsupp.Multiset

/-!
# Symbolic integers are canonical

Every operation adds a list of terms to another one and keeps what is not zero. The result is in
increasing order whatever the terms are, and its value is the sum of their values. A polynomial over
the integers is determined by its values, and so is a symbolic integer: its terms in increasing
order are those of the polynomial.
-/

namespace LazyTensor

/-! ### The order of monomials -/

theorem compareLists_eq_compareLex {α : Type} (cmp : α → α → Ordering) :
    compareLists cmp = List.compareLex cmp := by
  funext as bs
  induction as generalizing bs with
  | nil => cases bs <;> rfl
  | cons a as ih =>
    cases bs with
    | nil => rfl
    | cons b bs => rw [compareLists, ih, List.compareLex_cons_cons]

theorem SymVar.cmp_eq_compareLex : SymVar.cmp = compareLex (compareOn SymVar.name)
    (compareLex (compareOn SymVar.min) (compareLex (compareOn SymVar.max)
      (compareOn SymVar.value))) := by
  have hvalue : ∀ x y : Option Int, compareValue x y = compare x y := by
    intro x y
    cases x <;> cases y <;> rfl
  funext v w
  rw [cmp, hvalue]
  rfl

instance : Std.TransCmp SymVar.cmp := by
  rw [SymVar.cmp_eq_compareLex]
  infer_instance

instance : Std.TransCmp Monomial.cmp := by
  rw [Monomial.cmp, compareLists_eq_compareLex]
  infer_instance

instance : Std.LawfulEqCmp Monomial.cmp := by
  rw [Monomial.cmp, compareLists_eq_compareLex]
  infer_instance

def Monomial.Sorted (m : Monomial) : Prop := m.Pairwise fun v w => (SymVar.cmp v w).isLE

theorem Monomial.sorted_sorted (vs : List SymVar) : (Monomial.sorted vs).Sorted := by
  refine sortBy_pairwise (fun v w h => ?_) (fun v w h => ?_) (fun _ _ _ => Std.TransCmp.isLE_trans) vs
  · exact Ordering.isLE_iff_ne_gt.mpr (bne_iff_ne.mp h)
  · have hgt : SymVar.cmp v w = .gt := by simpa using h
    rw [Std.OrientedCmp.gt_iff_lt.mp hgt]
    rfl

variable {m m' : Monomial}

theorem Monomial.Sorted.eq_of_perm (h : m.Sorted) (h' : m'.Sorted) (hperm : m.Perm m') : m = m' :=
  hperm.eq_of_pairwise (fun v w _ _ hle hge =>
    have heq : SymVar.cmp v w = .eq := Std.OrientedCmp.isLE_antisymm hle hge
    Std.LawfulEqCmp.eq_of_compare heq) h h'

theorem Monomial.ne_of_lt (h : Monomial.cmp m m' = .lt) : m ≠ m' := by
  rintro rfl
  have heq : Monomial.cmp m m = .eq := Std.ReflCmp.compare_self
  rw [heq] at h
  cases h

/-- Sorted monomials in increasing order. -/
structure SortedTerms (ts : List Term) : Prop where
  monomials : ∀ t ∈ ts, Monomial.Sorted t.1
  increasing : ts.Pairwise fun s t => Monomial.cmp s.1 t.1 = .lt

namespace SymInt

/-! ### Operations as sums of terms -/

theorem ofTerms_singleton (c : Int) : ofTerms [([], c)] = const c := by
  by_cases hc : c = 0
  · rw [hc]
    rfl
  · rw [ofTerms, List.filter_cons_of_pos (by simpa using hc)]
    rfl

/-- The terms of a product, one for each pair of terms. -/
def products [Width] (as bs : List Term) : List Term :=
  as.flatMap fun s => bs.map fun t => (s.1.mul t.1, Width.wrap (s.2 * t.2))

section Operations

variable [Width] (a b : SymInt)

theorem add_eq : a + b = ofTerms (addTerms b.terms a.terms) := by
  cases a <;> cases b <;> first | rfl | exact (ofTerms_singleton _).symm

theorem mul_eq : a * b = ofTerms (addTerms (products a.terms b.terms) []) := by
  have hterms : mulTerms a.terms b.terms = addTerms (products a.terms b.terms) [] := by
    simp only [mulTerms, addTerms, products, List.foldl_flatMap, List.foldl_map]
  rw [← hterms]
  cases a <;> cases b <;> first | rfl | exact (ofTerms_singleton _).symm

theorem subst_eq (f : SymVar → Option Int) :
    a.subst f = ofTerms (addTerms (a.terms.map (substTerm f)) []) := by
  cases a <;> first | rfl | exact (ofTerms_singleton _).symm

theorem unbind_eq : a.unbind.1 = ofTerms (addTerms
    (a.terms.map fun t => (Monomial.sorted (t.1.map SymVar.unbound), t.2)) []) := by
  cases a <;> first | rfl | exact (ofTerms_singleton _).symm

end Operations

/-! ### Variables -/

theorem mem_vars {v : SymVar} {x : SymInt} : v ∈ x.vars ↔ ∃ t ∈ x.terms, v ∈ t.1 := by
  cases x with
  | const c => simp [vars, terms]
  | poly ts => exact mem_vars_poly

section Variables

variable [Width] {a b : SymInt} {v : SymVar}

theorem mem_vars_add (h : v ∈ (a + b).vars) : v ∈ a.vars ∨ v ∈ b.vars := by
  rw [add_eq] at h
  obtain ⟨t, ht, hv⟩ := mem_vars_ofTerms h
  rcases mem_addTerms ht with ⟨c, ht⟩ | ⟨c, ht⟩
  · exact .inr (mem_vars.mpr ⟨_, ht, hv⟩)
  · exact .inl (mem_vars.mpr ⟨_, ht, hv⟩)

theorem mem_vars_mul (h : v ∈ (a * b).vars) : v ∈ a.vars ∨ v ∈ b.vars := by
  rw [mul_eq] at h
  obtain ⟨t, ht, hv⟩ := mem_vars_ofTerms h
  rcases mem_addTerms ht with ⟨c, ht⟩ | ⟨c, ht⟩
  · obtain ⟨s, hs, ht⟩ := List.mem_flatMap.mp ht
    obtain ⟨u, hu, heq⟩ := List.mem_map.mp ht
    rw [← (Prod.mk.inj heq).1, Monomial.mul, Monomial.sorted, (sortBy_perm _ _).mem_iff,
      List.mem_append] at hv
    exact hv.imp (fun hv => mem_vars.mpr ⟨s, hs, hv⟩) fun hv => mem_vars.mpr ⟨u, hu, hv⟩
  · cases ht

end Variables

/-! ### Canonical form -/

/-- The terms are in increasing order, none of them is zero, and a constant is no polynomial. -/
structure Canonical (x : SymInt) : Prop where
  sorted : SortedTerms x.terms
  ofTerms_terms : ofTerms x.terms = x

theorem sortedTerms_singleton (hm : m.Sorted) (c : Int) : SortedTerms [(m, c)] where
  monomials := List.forall_mem_singleton.mpr hm
  increasing := List.pairwise_singleton _ _

theorem canonical_const (c : Int) : (const c).Canonical where
  sorted := sortedTerms_singleton List.Pairwise.nil c
  ofTerms_terms := ofTerms_singleton c

variable {ts : List Term}

theorem canonical_ofTerms (h : SortedTerms ts) : (ofTerms ts).Canonical := by
  have hkept : SortedTerms (ts.filter (·.2 ≠ 0)) :=
    ⟨fun t ht => h.monomials t (List.mem_filter.mp ht).1, h.increasing.filter _⟩
  have hagain : (ts.filter (·.2 ≠ 0)).filter (·.2 ≠ 0) = ts.filter (·.2 ≠ 0) := by
    simp only [List.filter_filter, Bool.and_self]
  rw [ofTerms]
  split
  · exact canonical_const 0
  · exact canonical_const _
  · next kept hnil hsingle =>
      refine ⟨hkept, ?_⟩
      rw [ofTerms, terms, hagain]
      split
      · exact absurd ‹_› hnil
      · exact absurd ‹_› (hsingle _)
      · rfl

section Canonical

variable [Width] {a b : SymInt} {new : List Term}

theorem sortedTerms_addTerm (hm : m.Sorted) (c : Int) (h : SortedTerms ts) :
    SortedTerms (addTerm m c ts) := by
  refine ⟨fun t ht => ?_, ?_⟩
  · rcases mem_addTerm ht with heq | ⟨c', ht⟩
    · exact heq ▸ hm
    · exact h.monomials (t.1, c') ht
  · obtain ⟨-, h⟩ := h
    induction ts with
    | nil => exact List.pairwise_singleton _ _
    | cons t ts ih =>
      obtain ⟨ht, hts⟩ := List.pairwise_cons.mp h
      rw [addTerm]
      split
      next hlt =>
        exact List.pairwise_cons.mpr ⟨List.forall_mem_cons.mpr
          ⟨hlt, fun s hs => Std.TransCmp.lt_trans hlt (ht s hs)⟩, h⟩
      next => exact List.pairwise_cons.mpr ⟨ht, hts⟩
      next hgt =>
        refine List.pairwise_cons.mpr ⟨fun s hs => ?_, ih hts⟩
        rcases mem_addTerm hs with heq | ⟨c', hs⟩
        · exact heq ▸ Std.OrientedCmp.gt_iff_lt.mp hgt
        · exact ht (s.1, c') hs

theorem sortedTerms_addTerms {old : List Term} (hnew : ∀ t ∈ new, Monomial.Sorted t.1)
    (hold : SortedTerms old) : SortedTerms (addTerms new old) := by
  induction new generalizing old with
  | nil => exact hold
  | cons t new ih =>
    rw [List.forall_mem_cons] at hnew
    exact ih hnew.2 (sortedTerms_addTerm hnew.1 t.2 hold)

theorem canonical_addTerms (hnew : ∀ t ∈ new, Monomial.Sorted t.1) :
    (ofTerms (addTerms new [])).Canonical :=
  canonical_ofTerms (sortedTerms_addTerms hnew ⟨by simp, List.Pairwise.nil⟩)

theorem canonical_add (ha : a.Canonical) (hb : b.Canonical) : (a + b).Canonical := by
  rw [add_eq]
  exact canonical_ofTerms (sortedTerms_addTerms hb.sorted.monomials ha.sorted)

theorem canonical_mul (a b : SymInt) : (a * b).Canonical := by
  rw [mul_eq]
  refine canonical_addTerms fun t ht => ?_
  obtain ⟨s, -, ht⟩ := List.mem_flatMap.mp ht
  obtain ⟨u, -, rfl⟩ := List.mem_map.mp ht
  exact Monomial.sorted_sorted _

theorem canonical_prod (xs : List SymInt) : (prod xs).Canonical := by
  rcases List.eq_nil_or_concat xs with rfl | ⟨ys, y, rfl⟩
  · exact canonical_const 1
  · rw [prod, List.concat_eq_append, List.foldl_concat]
    exact canonical_mul _ _

theorem canonical_subst (ha : a.Canonical) (f : SymVar → Option Int) : (a.subst f).Canonical := by
  have hrest : ∀ t : Term, (substTerm f t).1.Sublist t.1 := by
    rintro ⟨m, c⟩
    induction m with
    | nil => exact List.Sublist.slnil
    | cons v m ih =>
      rw [substTerm, List.foldr_cons]
      split
      · exact ih.cons v
      · exact ih.cons_cons v
  rw [subst_eq]
  refine canonical_addTerms fun t ht => ?_
  obtain ⟨s, hs, rfl⟩ := List.mem_map.mp ht
  exact (ha.sorted.monomials s hs).sublist (hrest s)

theorem canonical_unbind (a : SymInt) : a.unbind.1.Canonical := by
  rw [unbind_eq]
  refine canonical_addTerms fun t ht => ?_
  obtain ⟨s, -, rfl⟩ := List.mem_map.mp ht
  exact Monomial.sorted_sorted _

/-- What the operations make of constants and variables. -/
inductive Built : SymInt → Prop
  | const (c : Int) : Built (.const c)
  | var (v : SymVar) : Built (.var v)
  | add {a b : SymInt} : Built a → Built b → Built (a + b)
  | sub {a b : SymInt} : Built a → Built b → Built (a - b)
  | neg {a : SymInt} : Built a → Built (-a)
  | mul {a b : SymInt} : Built a → Built b → Built (a * b)
  | prod {xs : List SymInt} : (∀ x ∈ xs, Built x) → Built (prod xs)
  | subst {a : SymInt} (f : SymVar → Option Int) : Built a → Built (a.subst f)
  | unbind {a : SymInt} : Built a → Built a.unbind.1

theorem Built.canonical {x : SymInt} (h : Built x) : x.Canonical := by
  induction h with
  | const c => exact canonical_const c
  | var v => exact ⟨sortedTerms_singleton (List.pairwise_singleton _ _) 1, rfl⟩
  | add _ _ ha hb => exact canonical_add ha hb
  | sub _ _ ha _ => exact canonical_add ha (canonical_mul _ _)
  | neg _ _ | mul _ _ _ _ => exact canonical_mul _ _
  | prod _ _ => exact canonical_prod _
  | subst f _ ha => exact canonical_subst ha f
  | unbind _ _ => exact canonical_unbind _

end Canonical

/-! ### Values -/

def termsValue (ρ : SymVar → Int) (ts : List Term) : Int :=
  (ts.map fun t => t.2 * (t.1.map ρ).prod).sum

/-- The value when the variables have the values `ρ`. -/
def value (ρ : SymVar → Int) (x : SymInt) : Int := termsValue ρ x.terms

section Values

variable {ρ : SymVar → Int}

theorem termsValue_cons (t : Term) (ts : List Term) :
    termsValue ρ (t :: ts) = t.2 * (t.1.map ρ).prod + termsValue ρ ts := by
  rw [termsValue, List.map_cons, List.sum_cons, termsValue]

theorem value_const (c : Int) : (const c).value ρ = c := by simp [value, terms, termsValue]

theorem value_ofTerms (ts : List Term) : (ofTerms ts).value ρ = termsValue ρ ts := by
  have hkept : termsValue ρ (ts.filter (·.2 ≠ 0)) = termsValue ρ ts := by
    induction ts with
    | nil => rfl
    | cons t ts ih =>
      by_cases ht : t.2 = 0
      · rw [List.filter_cons_of_neg (by simpa using ht), ih, termsValue_cons, ht, zero_mul, zero_add]
      · rw [List.filter_cons_of_pos (by simpa using ht), termsValue_cons, ih, termsValue_cons]
  rw [ofTerms, ← hkept]
  split
  next h => rw [h, value_const, termsValue, List.map_nil, List.sum_nil]
  next h => rw [h]; rfl
  next => rfl

attribute [local instance] Width.unbounded

theorem termsValue_addTerm (m : Monomial) (c : Int) (ts : List Term) :
    termsValue ρ (addTerm m c ts) = c * (m.map ρ).prod + termsValue ρ ts := by
  induction ts with
  | nil => rw [addTerm, termsValue_cons]
  | cons t ts ih =>
    rw [addTerm]
    split
    next => rw [termsValue_cons]
    next heq =>
      rw [Std.LawfulEqCmp.eq_of_compare heq, termsValue_cons, termsValue_cons]
      show (t.2 + c) * _ + _ = _
      ring
    next => rw [termsValue_cons, ih, termsValue_cons, add_left_comm]

theorem termsValue_addTerms (new old : List Term) :
    termsValue ρ (addTerms new old) = termsValue ρ new + termsValue ρ old := by
  induction new generalizing old with
  | nil => exact (zero_add _).symm
  | cons t new ih =>
    refine (ih (addTerm t.1 t.2 old)).trans ?_
    rw [termsValue_addTerm, termsValue_cons]
    ring

theorem value_addTerms (new : List Term) :
    (ofTerms (addTerms new [])).value ρ = termsValue ρ new := by
  rw [value_ofTerms, termsValue_addTerms]
  exact add_zero _

theorem value_add (a b : SymInt) : (a + b).value ρ = a.value ρ + b.value ρ := by
  rw [add_eq, value_ofTerms, termsValue_addTerms, add_comm]
  rfl

theorem prod_map_sorted (vs : List SymVar) : ((Monomial.sorted vs).map ρ).prod = (vs.map ρ).prod :=
  ((sortBy_perm _ vs).map ρ).prod_eq

theorem value_mul (a b : SymInt) : (a * b).value ρ = a.value ρ * b.value ρ := by
  have hterm : ∀ (s : Term) (bs : List Term), termsValue ρ (bs.map fun t => (s.1.mul t.1, s.2 * t.2))
      = s.2 * (s.1.map ρ).prod * termsValue ρ bs := by
    intro s bs
    rw [termsValue, termsValue, List.map_map, ← List.sum_map_mul_left]
    refine congrArg List.sum (List.map_congr_left fun t _ => ?_)
    show s.2 * t.2 * ((Monomial.sorted (s.1 ++ t.1)).map ρ).prod = _
    rw [prod_map_sorted, List.map_append, List.prod_append]
    ring
  rw [mul_eq, value_addTerms]
  show termsValue ρ (products a.terms b.terms) = termsValue ρ a.terms * termsValue ρ b.terms
  induction a.terms with
  | nil => exact (zero_mul _).symm
  | cons s as ih =>
    rw [products, List.flatMap_cons, termsValue, List.map_append, List.sum_append, termsValue_cons,
      add_mul, ← ih, ← hterm]
    rfl

theorem value_neg (a : SymInt) : (-a).value ρ = -a.value ρ := by
  refine (value_mul a (const (-1))).trans ?_
  rw [value_const, mul_neg_one]

theorem value_sub (a b : SymInt) : (a - b).value ρ = a.value ρ - b.value ρ := by
  refine (value_add a (-b)).trans ?_
  rw [value_neg, sub_eq_add_neg]

theorem value_subst (f : SymVar → Option Int) (a : SymInt) :
    (a.subst f).value ρ = a.value fun v => (f v).getD (ρ v) := by
  rw [subst_eq, value_addTerms, termsValue, List.map_map]
  refine congrArg List.sum (List.map_congr_left ?_)
  rintro ⟨m, c⟩ -
  show (substTerm f (m, c)).2 * ((substTerm f (m, c)).1.map ρ).prod = c * _
  induction m with
  | nil => rfl
  | cons v m ih =>
    rw [List.map_cons, List.prod_cons, mul_left_comm, ← ih, substTerm, List.foldr_cons]
    split
    next x hx =>
      rw [hx, Option.getD_some, mul_comm x, mul_right_comm]
      rfl
    next hx =>
      rw [hx, List.map_cons, List.prod_cons, mul_left_comm]
      rfl

end Values

/-! ### Polynomials -/

noncomputable def toPoly (ts : List Term) : MvPolynomial SymVar Int :=
  (ts.map fun t => MvPolynomial.monomial (Multiset.toFinsupp (t.1 : Multiset SymVar)) t.2).sum

theorem toPoly_cons (t : Term) (ts : List Term) : toPoly (t :: ts)
    = MvPolynomial.monomial (Multiset.toFinsupp (t.1 : Multiset SymVar)) t.2 + toPoly ts := by
  rw [toPoly, List.map_cons, List.sum_cons, toPoly]

theorem eval_toPoly (ρ : SymVar → Int) (ts : List Term) :
    MvPolynomial.eval ρ (toPoly ts) = termsValue ρ ts := by
  induction ts with
  | nil => exact map_zero _
  | cons t ts ih =>
    rw [toPoly_cons, map_add, ih, MvPolynomial.eval_monomial, termsValue_cons, Finsupp.prod,
      Multiset.toFinsupp_support, ← Multiset.prod_coe, ← Multiset.map_coe,
      Finset.prod_multiset_map_count]
    rfl

theorem coeff_toPoly_of_notMem (h : SortedTerms ts) (hm : m.Sorted) (hnot : ∀ t ∈ ts, t.1 ≠ m) :
    (toPoly ts).coeff (Multiset.toFinsupp (m : Multiset SymVar)) = 0 := by
  obtain ⟨hsorted, -⟩ := h
  induction ts with
  | nil => exact MvPolynomial.coeff_zero _
  | cons t ts ih =>
    rw [List.forall_mem_cons] at hsorted hnot
    have hne : Multiset.toFinsupp (t.1 : Multiset SymVar) ≠ Multiset.toFinsupp (m : Multiset SymVar) :=
      fun heq => hnot.1 (hsorted.1.eq_of_perm hm
        (Multiset.coe_eq_coe.mp (Multiset.toFinsupp.injective heq)))
    rw [toPoly_cons, MvPolynomial.coeff_add, MvPolynomial.coeff_monomial, if_neg hne,
      ih hnot.2 hsorted.2, add_zero]

theorem coeff_toPoly_of_mem (h : SortedTerms ts) {t : Term} (ht : t ∈ ts) :
    (toPoly ts).coeff (Multiset.toFinsupp (t.1 : Multiset SymVar)) = t.2 := by
  induction ts with
  | nil => cases ht
  | cons s ts ih =>
    obtain ⟨hsorted, hincreasing⟩ := h
    rw [List.forall_mem_cons] at hsorted
    rw [List.pairwise_cons] at hincreasing
    have hts : SortedTerms ts := ⟨hsorted.2, hincreasing.2⟩
    have hne : ∀ u ∈ ts, s.1 ≠ u.1 := fun u hu => Monomial.ne_of_lt (hincreasing.1 u hu)
    rw [toPoly_cons, MvPolynomial.coeff_add, MvPolynomial.coeff_monomial]
    rcases List.mem_cons.mp ht with rfl | ht
    · rw [if_pos rfl, coeff_toPoly_of_notMem hts hsorted.1 fun u hu heq => hne u hu heq.symm, add_zero]
    · rw [if_neg, ih hts ht, zero_add]
      exact fun heq => hne t ht (hsorted.1.eq_of_perm (hsorted.2 t ht)
        (Multiset.coe_eq_coe.mp (Multiset.toFinsupp.injective heq)))

theorem ofTerms_eq_of_values {us : List Term} (hts : SortedTerms ts) (hus : SortedTerms us)
    (hvalues : ∀ ρ, termsValue ρ ts = termsValue ρ us) : ofTerms ts = ofTerms us := by
  have hpoly : toPoly ts = toPoly us := MvPolynomial.funext fun ρ => by
    rw [eval_toPoly, eval_toPoly, hvalues]
  have hsub : ∀ {ts us : List Term}, SortedTerms ts → SortedTerms us → toPoly ts = toPoly us →
      ∀ t ∈ ts, t.2 ≠ 0 → t ∈ us := by
    intro ts us hts hus hpoly t ht hne
    have hcoeff := coeff_toPoly_of_mem hts ht
    rw [hpoly] at hcoeff
    by_cases hmem : ∃ u ∈ us, u.1 = t.1
    · obtain ⟨u, hu, heq⟩ := hmem
      rw [← heq, coeff_toPoly_of_mem hus hu] at hcoeff
      rwa [← Prod.ext heq hcoeff]
    · rw [coeff_toPoly_of_notMem hus (hts.monomials t ht) fun u hu heq => hmem ⟨u, hu, heq⟩] at hcoeff
      exact absurd hcoeff.symm hne
  have hnodup : ∀ {ts : List Term}, SortedTerms ts → (ts.filter (·.2 ≠ 0)).Nodup := fun h =>
    (h.increasing.filter _).imp fun hlt heq => Monomial.ne_of_lt hlt (congrArg Prod.fst heq)
  have hkept : ts.filter (·.2 ≠ 0) = us.filter (·.2 ≠ 0) := by
    refine ((List.perm_ext_iff_of_nodup (hnodup hts) (hnodup hus)).mpr fun t => ?_).eq_of_pairwise
      (fun s t _ _ hst hts => ?_) (hts.increasing.filter _) (hus.increasing.filter _)
    · simp only [List.mem_filter, decide_eq_true_eq]
      exact ⟨fun h => ⟨hsub hts hus hpoly t h.1 h.2, h.2⟩,
        fun h => ⟨hsub hus hts hpoly.symm t h.1 h.2, h.2⟩⟩
    · rw [Std.OrientedCmp.gt_of_lt hst] at hts
      cases hts
  rw [ofTerms, hkept, ofTerms]

theorem Canonical.ext_value {a b : SymInt} (ha : a.Canonical) (hb : b.Canonical)
    (hvalues : ∀ ρ, a.value ρ = b.value ρ) : a = b := by
  rw [← ha.ofTerms_terms, ← hb.ofTerms_terms]
  exact ofTerms_eq_of_values ha.sorted hb.sorted hvalues

section Laws

attribute [local instance] Width.unbounded

/-- What is built from constants and variables is determined by its values, which are those that
substitution gives. It is a constant only if all of them agree, and the operations make a commutative
ring of it. -/
theorem Built.determined_by_values {a b c : SymInt} (ha : Built a) (hb : Built b) (hc : Built c) :
    (a = b ↔ ∀ ρ, a.value ρ = b.value ρ) ∧
      (∀ ρ, a.subst (fun v => some (ρ v)) = .const (a.value ρ)) ∧
      (a.isConst = true ↔ ∀ ρ σ, a.value ρ = a.value σ) ∧
      a + b = b + a ∧ a + b + c = a + (b + c) ∧ a + 0 = a ∧ a + -a = 0 ∧ a - b = a + -b ∧
      a * b = b * a ∧ a * b * c = a * (b * c) ∧ a * 1 = a ∧ a * (b + c) = a * b + a * c := by
  have hext : ∀ {x y : SymInt}, Built x → Built y → (∀ ρ, x.value ρ = y.value ρ) → x = y :=
    fun hx hy => hx.canonical.ext_value hy.canonical
  have hzero : ∀ ρ, (0 : SymInt).value ρ = 0 := fun ρ => value_const 0
  have hone : ∀ ρ, (1 : SymInt).value ρ = 1 := fun ρ => value_const 1
  refine ⟨⟨fun h ρ => h ▸ rfl, hext ha hb⟩, fun ρ => hext (.subst _ ha) (.const _) fun σ => ?_,
    ⟨fun h ρ σ => ?_, fun h => ?_⟩, hext (.add ha hb) (.add hb ha) fun ρ => ?_,
    hext (.add (.add ha hb) hc) (.add ha (.add hb hc)) fun ρ => ?_,
    hext (.add ha (.const 0)) ha fun ρ => ?_, hext (.add ha (.neg ha)) (.const 0) fun ρ => ?_, rfl,
    hext (.mul ha hb) (.mul hb ha) fun ρ => ?_,
    hext (.mul (.mul ha hb) hc) (.mul ha (.mul hb hc)) fun ρ => ?_,
    hext (.mul ha (.const 1)) ha fun ρ => ?_,
    hext (.mul ha (.add hb hc)) (.add (.mul ha hb) (.mul ha hc)) fun ρ => ?_⟩
  · rw [value_subst, value_const]
    rfl
  · cases a with
    | const c => rw [value_const, value_const]
    | poly ts => cases h
  · -- The constant with the value at any one assignment has all the values.
    have hconst : a = .const (a.value fun _ => 0) := hext ha (.const _) fun ρ => by
      rw [value_const]
      exact h ρ _
    rw [hconst]
    rfl
  all_goals
    simp only [value_add, value_mul, value_neg, hzero, hone]
    ring

/-- A product of sums is a difference of squares, and not a constant. -/
theorem Built.determined_by_values_squares :
    ∃ n, n = SymInt.var ⟨"n", 1, 8, none⟩ ∧ (n + 1) * (n - 1) = n * n - 1 ∧
      ((n + 1) * (n - 1)).isConst = false := by
  have hn : Built (SymInt.var ⟨"n", 1, 8, none⟩) := .var _
  have hone : Built 1 := .const 1
  obtain ⟨hvalues, -, hconst, -⟩ :=
    Built.determined_by_values (.mul (.add hn hone) (.sub hn hone)) (.sub (.mul hn hn) hone) hone
  have hvar : ∀ ρ v, (SymInt.var v).value ρ = ρ v := fun ρ v => by
    simp [value, SymInt.var, terms, termsValue]
  have hunit : ∀ ρ, (1 : SymInt).value ρ = 1 := fun ρ => value_const 1
  refine ⟨_, rfl, hvalues.mpr fun ρ => ?_, Bool.eq_false_iff.mpr fun h => ?_⟩
  · simp only [value_sub, value_add, value_mul, hvar, hunit]
    ring
  · have hdiffer := hconst.mp h (fun _ => 1) fun _ => 2
    simp only [value_sub, value_add, value_mul, hvar, hunit] at hdiffer
    cases hdiffer

end Laws

end SymInt

end LazyTensor

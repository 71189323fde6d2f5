import LazyTensor.Proofs.Simplify.Algebra

/-!
# Sums that a loop does not change

A sum over a loop of a value that neither the counter nor the accumulator reaches is the value times
the number of iterations, for integers of every width and for truth values.
-/

namespace LazyTensor

open Value

/-! ### Repeated addition -/

section Repeated

variable {t : DType} {v init k : Value} {n : Nat} {f : Value → Nat → Option Value}

theorem foldlM_add_of_isInt (ht : t.isInt = true) (hv : v.HasType t)
    (hstep : ∀ i < n, ∀ x : Value, x.HasType t → f x i = BinaryOp.add.eval t x v) :
    (List.range n).foldlM f (ofZ t 0) = some (ofZ t (n * v.toZ)) := by
  induction n with
  | zero => simp
  | succ n ih =>
    have hlast := hstep n n.lt_succ_self _ (hasType_ofZ ht (n * v.toZ))
    rw [List.range_succ, List.foldlM_append, ih fun i hi => hstep i (hi.trans n.lt_succ_self)]
    simp only [List.foldlM_cons, List.foldlM_nil, Option.bind_eq_bind, Option.bind_some, hlast,
      eval_add ht (hasType_ofZ ht _) hv, Option.pure_def, Option.some.injEq]
    refine ofZ_congr ht (((toZ_ofZ ht _).add .rfl).trans ?_)
    rw [Nat.cast_add_one, add_one_mul]

theorem foldlM_add_bool {b : Bool}
    (hstep : ∀ i < n, ∀ x, HasType x .bool → f x i = BinaryOp.add.eval .bool x (bool b)) :
    (List.range n).foldlM f (bool false) = some (bool (b && decide (n ≠ 0))) := by
  induction n with
  | zero => simp
  | succ n ih =>
    have hlast : ∀ c, f (bool c) n = some (bool (c || b)) := fun c => by
      rw [hstep n n.lt_succ_self _ (hasType_bool_iff.mpr ⟨c, rfl⟩)]
      cases c <;> cases b <;> rfl
    rw [List.range_succ, List.foldlM_append, ih fun i hi => hstep i (hi.trans n.lt_succ_self)]
    cases b <;> simp [hlast]

theorem truthy_wrapSigned (hn : n < 2 ^ 64) : (int (wrapSigned 64 n)).truthy = decide (n ≠ 0) := by
  have hmod : ((Nat.pow 2 64 : Nat) : Int) = 2 ^ 64 := rfl
  have hsmall : (n : Int) % 2 ^ 64 = n := Int.emod_eq_of_lt (by omega) (by omega)
  have hzero : (n : Int).bmod (Nat.pow 2 64) = 0 ↔ n = 0 := by
    rw [Int.bmod_def, hmod, hsmall]
    split_ifs <;> omega
  rw [Bool.eq_iff_iff]
  simp [truthy, isZero, wrapSigned, hzero]

theorem foldlM_add_eq_mul (ht : t.IsPlain) (hv : v.HasType t) (hinit : init.HasType t)
    (hzero : init.isZero = true) (hn : n < 2 ^ 64) (hk : (int (wrapSigned 64 n)).cast t = some k)
    (hstep : ∀ i < n, ∀ x : Value, x.HasType t → f x i = BinaryOp.add.eval t x v) :
    ∃ x, (List.range n).foldlM f init = some x ∧ BinaryOp.mul.eval t v k = some x := by
  rcases ht.cases with hint | rfl
  · obtain rfl : ofZ t 0 = init := by
      rw [← ofZ_toZ hint hinit, toZ_eq_zero hzero (hinit.isPlain ht)]
    obtain rfl := Option.some.inj ((cast_word hint n).1.symm.trans hk)
    refine ⟨_, foldlM_add_of_isInt hint hv hstep, ?_⟩
    rw [eval_mul hint hv (hasType_ofZ hint _), Option.some.injEq, mul_comm (n : Int)]
    exact ofZ_congr hint (Int.ModEq.rfl.mul (toZ_ofZ hint _))
  · obtain ⟨b, rfl⟩ := hasType_bool_iff.mp hv
    obtain ⟨c, rfl⟩ := hasType_bool_iff.mp hinit
    obtain rfl : c = false := by simpa [isZero] using hzero
    obtain rfl : bool (int (wrapSigned 64 n)).truthy = k := Option.some.inj hk
    refine ⟨_, foldlM_add_bool hstep, ?_⟩
    rw [truthy_wrapSigned hn]
    cases b <;> cases decide (n ≠ 0) <;> rfl

end Repeated

namespace Graph

variable {g g' : Graph} {val val' : Ref → Option Value} {range acc update s v n : Ref}
  {counter x w : Value} {t : DType}

/-! ### Iterations -/

/-- The values in one iteration: as outside of the loop, except for the counter, the accumulator and
what reads them. -/
structure Iteration (g : Graph) (val : Ref → Option Value) (range acc : Ref) (counter x : Value)
    (val' : Ref → Option Value) : Prop extends g.Follows val' where
  counter : val' range = some counter
  held : val' acc = some x
  other : ∀ s < g.size, (g.op s).kind ∉ [.const, .cast, .unary, .binary, .ternary] →
    g.resolve s ≠ g.resolve range → g.resolve s ≠ g.resolve acc →
    (∀ a ∈ g.sources s, val' a = val a) → val' s = val s

theorem evalStep_congr (hkind : (g.op s).kind ∈ [.const, .cast, .unary, .binary, .ternary])
    (h : ∀ a ∈ (g.op s).sources, val' a = val a) :
    g.evalStep (fun _ => val') .empty s = g.evalStep (fun _ => val) .empty s := by
  unfold evalStep
  cases hop : g.op s <;> simp_all [Op.kind, Op.sources]

namespace Iteration

variable (h : g.Iteration val range acc counter x val') (hg : g.Sound) (hval : g.Follows val)

include h hg hval

theorem value_eq (hs : s < g.size) (hrange : g.dependsOn s range = false)
    (hacc : g.dependsOn s acc = false) : val' s = val s := by
  simp only [dependsOn, List.contains_eq_mem, decide_eq_false_iff_not] at hrange hacc
  have hunder : ∀ a, g.Founded a → a ∈ g.order s → val' a = val a := by
    intro a hfounded
    induction hfounded with
    | intro a _ ih =>
      intro ha
      have hsources : ∀ b ∈ g.sources a, val' b = val b := fun b hb =>
        ih b hb (hg.sources_mem_order hs ha hb)
      by_cases hkind : (g.op a).kind ∈ [.const, .cast, .unary, .binary, .ternary]
      · rw [h.operation a hkind, hval.operation a hkind]
        refine evalStep_congr hkind fun b hb => ?_
        rw [← h.resolve, ← hval.resolve]
        exact hsources _ (List.mem_map_of_mem hb)
      · have hself := hg.resolve_order hs a ha
        exact h.other a (hg.order_lt hs ha) hkind (fun heq => hrange (heq ▸ hself.symm ▸ ha))
          (fun heq => hacc (heq ▸ hself.symm ▸ ha)) hsources
  rw [← h.resolve, ← hval.resolve]
  exact hunder _ (hg.founded (hg.wellFormed.resolve_lt hs)) (hg.ordered_order hs).2

theorem update_eq (hupdate : g.op update = .binary .add acc v) (hv : v < g.size)
    (hrange : g.dependsOn v range = false) (hacc : g.dependsOn v acc = false)
    (hw : val v = some w) : val' update = BinaryOp.add.eval (g.dtype update) x w := by
  rw [h.operation update (by simp [hupdate, Op.kind]), evalStep, hupdate]
  simp only [h.held, h.value_eq hg hval hv hrange hacc, hw, Option.bind_eq_bind, Option.bind_some]

end Iteration

/-! ### Conversion -/

/-- A node holds another one converted to a type, or is that one. -/
def Converts (g : Graph) (a : Ref) (t : DType) (r : Ref) : Prop :=
  g.dtype a = t ∧ r = g.resolve a ∨ g.Holds r ⟨.cast (g.resolve a), t⟩

variable (h : g.Converts s t n)

include h

theorem Converts.lt_size (hg : g.WellFormed) (hs : s < g.size) : n < g.size := by
  rcases h with ⟨-, rfl⟩ | h
  · exact hg.resolve_lt hs
  · exact h.lt_size

theorem Converts.dtype_eq (hg : g.WellFormed) : g.dtype n = t := by
  rcases h with ⟨rfl, rfl⟩ | h
  · rw [dtype, get_resolve hg, dtype]
  · exact h.dtype_eq

theorem Converts.value (hval : g.Follows val) (hs : val s = some x) (hx : x.HasType (g.dtype s)) :
    val n = x.cast t := by
  rcases h with ⟨rfl, rfl⟩ | h
  · rw [hval.resolve, hs, hx]
  · have hop : g.op n = .cast (g.resolve s) := h.op_eq
    rw [hval.operation n (by simp [hop, Op.kind]), evalStep, hop, h.dtype_eq]
    simp only [hval.resolve, hs, Option.bind_eq_bind, Option.bind_some]

theorem Converts.grows (hg : g.WellFormed) (hgrows : g.Grows g') (hs : s < g.size) :
    g'.Converts s t n := by
  rw [Converts, hgrows.dtype_eq hg hs, hgrows.resolve_eq hg hs]
  exact h.imp_right hgrows.holds

end Graph

open LazyTensor.Graph Attempt

theorem Attempt.ensures_converts {g : Graph} {a : Ref} (hg : g.WellFormed) (ha : a < g.size)
    (t : DType) : Ensures (Build.cast a t : GraphM Ref) g fun r g' => g'.Converts a t r := by
  have hrun : (Build.cast a t).run g =
      (if g.dtype a = t then pure (g.resolve a) else Build.insert (.cast a) t : GraphM Ref).run g := rfl
  by_cases h : g.dtype a = t
  · rw [if_pos h] at hrun
    exact ensures_lift (by rw [hrun]; exact .refl hg) (by rw [hrun]; exact .inl ⟨h, rfl⟩)
  · obtain ⟨hgrows, hholds⟩ := insert_spec hg ⟨.cast a, t⟩
    have hconverts : (g.insert ⟨.cast a, t⟩).2.Converts a t (g.insert ⟨.cast a, t⟩).1 := by
      refine .inr ?_
      rw [hgrows.resolve_eq hg ha]
      exact hholds
    rw [if_neg h] at hrun
    exact ensures_lift (by rw [hrun]; exact hgrows) (by rw [hrun]; exact hconverts)

namespace Rule

/-! ### The rule -/

variable {g g' : Graph} {r n acc update v range start stop : Ref} {axis : LoopAxis} {slot : Nat}
  {init : Value} {loops : List Ref}

theorem collapseSum_adds (hg : g.Sound) (hop : g.op r = .phi acc update [range])
    (hacc : g.op acc = .defineAcc slot init loops) (hupdate : g.op update = .binary .add acc v)
    (hrange : g.op range = .loop start stop axis) (hv : v < g.size) (hstart : start < g.size)
    (hstop : stop < g.size) :
    Ensures (collapseSum r) g fun n g' => init.isZero = true ∧ g.dependsOn v range = false ∧
      g.dependsOn v acc = false ∧ ∃ count times, g'.Applies .sub stop start count ∧
        g'.Converts count (g.dtype r) times ∧ g'.Applies .mul v times n := by
  have hwf := hg.wellFormed
  refine ensures_get ?_
  simp only [hop, hupdate, hrange, startsAtZero, hacc]
  split
  case isFalse => exact ensures_failure hwf
  case isTrue h =>
    obtain ⟨hzero, -, hrange, hacc⟩ := h
    refine Ensures.bind (ensures_toAttempt (Build.ensures_applies hwf .sub hstop hstart)) ?_
    intro count g₁ hgrows₁ hcount
    have hcount_lt := hcount.holds.lt_size
    refine Ensures.bind (ensures_converts hgrows₁.wellFormed hcount_lt _) ?_
    intro times g₂ hgrows₂ htimes
    have hcount_lt₂ := Nat.lt_of_lt_of_le hcount_lt hgrows₂.size_le
    refine (ensures_toAttempt (Build.ensures_applies hgrows₂.wellFormed .mul
      (Nat.lt_of_lt_of_le hv (hgrows₁.trans hgrows₂).size_le)
      (htimes.lt_size hgrows₂.wellFormed hcount_lt₂))).mono fun n g₃ hgrows₃ hn => ?_
    exact ⟨hzero, by simpa using hrange, by simpa using hacc, count, times,
      hcount.grows hgrows₁.wellFormed (hgrows₂.trans hgrows₃),
      htimes.grows hgrows₂.wellFormed hgrows₃ hcount_lt₂, hn⟩

/-- A sum over one loop that is collapsed gives way to a node with the value that executing its
update once for every iteration leads to. -/
theorem collapseSum_sound {val : Ref → Option Value} {body : Nat → Value → Ref → Option Value}
    {first past : Int} {w : Value} (hg : g.Constructed) (hr : r < g.size) (ht : (g.dtype r).IsPlain)
    (hop : g.op r = .phi acc update [range]) (hacc : g.op acc = .defineAcc slot init loops)
    (hupdate : g.op update = .binary .add acc v) (hrange : g.op range = .loop start stop axis)
    (hrun : (collapseSum r).run.run g = (some n, g')) (hval : g'.Follows val)
    (hleaf : g'.Normalized val) (hw : val v = some w) (hstart : val start = some (.int first))
    (hstop : val stop = some (.int past)) (hle : first ≤ past)
    (hbody : ∀ i < (past - first).toNat, ∀ x : Value, x.HasType (g.dtype r) →
      g.Iteration val range acc (.int (first + i)) x (body i x)) :
    ∃ x, (List.range (past - first).toNat).foldlM (fun x i => body i x update) init = some x ∧
      val n = some x := by
  have hsound := hg.built.sound
  have hwf := hsound.wellFormed
  have hlt := fun {s o} (h : g.op s = o) (hs : s < g.size) a (ha : a ∈ o.sources) =>
    hsound.source_lt hs (h ▸ ha)
  have hupdate_lt := hlt hop hr update (by simp [Op.sources])
  have hrange_lt := hlt hop hr range (by simp [Op.sources])
  have hstart_lt := hlt hrange hrange_lt start (by simp [Op.sources])
  have hstop_lt := hlt hrange hrange_lt stop (by simp [Op.sources])
  have hv_lt := hlt hupdate hupdate_lt v (by simp [Op.sources])
  obtain ⟨hgrows, hadds⟩ :=
    collapseSum_adds hsound hop hacc hupdate hrange hv_lt hstart_lt hstop_lt
  rw [hrun] at hgrows hadds
  obtain ⟨hzero, hrange', hacc', count, times, hcount, htimes, hn⟩ := hadds n rfl
  have h := hg.interprets hgrows hval hleaf
  -- What is added has the type of the sum, and the bounds are indices.
  obtain ⟨hacc_lt, -, hsame, hdtype⟩ := h.parts hupdate_lt hupdate
  have hvt : g.dtype v = g.dtype r := by
    rw [← hgrows.dtype_eq hwf hv_lt, hn.same, htimes.dtype_eq hgrows.wellFormed]
  have hupdatet : g.dtype update = g.dtype r := hdtype.trans (hsame.symm.trans hvt)
  have hinit : init.HasType (g.dtype r) := by
    have hadmits : g.Admits ⟨g.op acc, g.dtype acc⟩ := hg.admits hacc_lt
    rw [hacc, ← hsame, hvt] at hadmits
    exact hadmits ht
  have hindex : g.dtype start = .index ∧ g.dtype stop = .index := by
    have hadmits : g.Admits ⟨g.op range, g.dtype range⟩ := hg.admits hrange_lt
    rw [hrange] at hadmits
    exact hadmits.2
  have hfirst := hindex.1 ▸ h.hasType hstart_lt (by rw [hindex.1]; decide) hstart
  have hpast := hindex.2 ▸ h.hasType hstop_lt (by rw [hindex.2]; decide) hstop
  have hcount' : val count = some (.int (wrapSigned 64 (past - first).toNat)) := by
    rw [Int.toNat_of_nonneg (by omega), hcount.value hval]
    refine ⟨_, _, hstop, hstart, ?_⟩
    rw [hgrows.dtype_eq hwf hstop_lt, hindex.2]
    exact Value.eval_sub rfl hpast hfirst
  obtain ⟨k, hk⟩ := exists_cast ht (.int (wrapSigned 64 (past - first).toNat))
  have htimes' : val times = some k := by
    rw [htimes.value hval hcount', hk]
    rw [hcount.dtype_eq, hgrows.dtype_eq hwf hstop_lt, hindex.2]
    exact hasType_ofZ (t := .index) rfl _
  have hfit : (past - first).toNat < 2 ^ 64 := by
    obtain ⟨_, ⟨⟩, hlow⟩ := hasType_index_iff.mp hfirst
    obtain ⟨_, ⟨⟩, hhigh⟩ := hasType_index_iff.mp hpast
    simp only [Width.FitsWord, Width.minWord, Width.maxWord] at hlow hhigh
    omega
  have hwt : w.HasType (g.dtype r) := hvt ▸ h.hasType hv_lt (hvt ▸ ht) hw
  obtain ⟨x, hsum, hproduct⟩ := foldlM_add_eq_mul ht hwt hinit hzero hfit hk
    (f := fun x i => body i x update) fun i hi x hx => hupdatet ▸
      (hbody i hi x hx).update_eq hsound h.toFollows hupdate hv_lt hrange' hacc' hw
  refine ⟨x, hsum, (hn.value hval).mpr ⟨w, k, hw, htimes', ?_⟩⟩
  rwa [hgrows.dtype_eq hwf hv_lt, hvt]

/-- Three times a variable in eight bits, as a sum over a loop and collapsed. -/
def narrowLoop (calls : Nat) : Graph :=
  ([.const (.int 0) .index, .const (.int 3) .index, .loop 0 1 ⟨.reduce, 0⟩,
    .accumulator 0 (.int 0) (.scalar .int8) [2], .symbol ⟨"i", 0, 99, none⟩, .cast 4 (.scalar .int8),
    .binary .add 3 5, .phi 3 6 [2], .binary .sub 1 0, .cast 8 (.scalar .int8),
    .binary .mul 5 9].take calls).foldl (fun g c => ((Construction.build c).run.run g).2) {}

theorem constructed_narrowLoop : (narrowLoop 8).Constructed ∧ (narrowLoop 11).Constructed := by
  have hsum : (narrowLoop 8).Constructed := by
    refine .call _ (.call _ (.call _ (.call _ (.call _ (.call _ (.call _ (.call _ .empty ?_) ?_) ?_) ?_)
      ?_) ?_) ?_) ?_
    all_goals decide +kernel
  refine ⟨hsum, .call _ (.call _ (.call _ hsum ?_) ?_) ?_⟩
  all_goals decide +kernel

def narrowEnv : Env := { Env.empty with var := fun _ => 50 }

theorem collapseSum_sound_narrowLoop :
    (collapseSum 7).run.run (narrowLoop 8) = (some 10, narrowLoop 11) ∧
      ∃ x, (List.range 3).foldlM (fun x i => (narrowLoop 8).value
        ((narrowEnv.setIter ⟨.reduce, 0⟩ (i : Nat)).setAcc 0 x) 6) (.int 0) = some x ∧
        (narrowLoop 11).value narrowEnv 10 = some x := by
  obtain ⟨hg, hg'⟩ := constructed_narrowLoop
  have hwf := hg.built.sound.wellFormed
  have hwf' := hg'.built.sound.wellFormed
  have hrun : (collapseSum 7).run.run (narrowLoop 8) = (some 10, narrowLoop 11) :=
    Prod.ext (by decide +kernel) (by decide +kernel)
  have hvalue : ∀ r v, (narrowLoop 11).evalAt 8 narrowEnv r = some v →
      (narrowLoop 11).value narrowEnv r = some v := fun r v hv =>
    value_eq_some.mpr (evaluates_of_evalAt hv)
  have hop : (narrowLoop 8).op 2 = .loop 0 1 ⟨.reduce, 0⟩ ∧
      (narrowLoop 8).op 3 = .defineAcc 0 (.int 0) [2] := by decide +kernel
  have hleaf : ∀ r < 11, ((narrowLoop 11).op r).kind ∉ [.const, .cast, .unary, .binary, .ternary] →
      r = 2 ∨ r = 3 ∨ r = 4 ∨ r = 7 := by decide +kernel
  have hunset : (narrowLoop 11).value narrowEnv 3 = none := by
    exact value_defineAcc (show (narrowLoop 11).op 3 = .defineAcc 0 (.int 0) [2] by decide +kernel)
  refine ⟨hrun, collapseSum_sound hg (by decide +kernel) (by decide +kernel) (by decide +kernel) hop.2
    (by decide +kernel) hop.1 hrun (follows_value hwf' narrowEnv) (fun r v hkind hv => ?_)
    (hvalue 5 (.int 50) (by decide +kernel)) (hvalue 0 (.int 0) (by decide +kernel))
    (hvalue 1 (.int 3) (by decide +kernel)) (by decide) fun i hi x hx => ?_⟩
  · by_cases hr : r < 11
    · rcases hleaf r hr hkind with rfl | rfl | rfl | rfl
      · obtain rfl := Option.some.inj ((hvalue 2 (.int 0) (by decide +kernel)).symm.trans hv)
        decide +kernel
      · cases hunset.symm.trans hv
      · obtain rfl := Option.some.inj ((hvalue 4 (.int 50) (by decide +kernel)).symm.trans hv)
        decide +kernel
      · obtain rfl := Option.some.inj ((hvalue 7 (.int (-106)) (by decide +kernel)).symm.trans hv)
        decide +kernel
    · have hsize : (narrowLoop 11).size = 11 := by decide +kernel
      rw [value_eq, evalStep, op_of_ge hwf' (by rw [hsize]; exact Nat.le_of_not_lt hr)] at hv
      cases hv
  · have hx : x.cast ((narrowLoop 8).dtype 3) = some x := by
      rwa [show (narrowLoop 8).dtype 3 = (narrowLoop 8).dtype 7 by decide +kernel]
    have hheld : (narrowLoop 8).value ((narrowEnv.setIter ⟨.reduce, 0⟩ i).setAcc 0 x) 3 = some x := by
      simp [value_defineAcc hop.2, Env.setAcc, ofType?, hx]
    refine ⟨follows_value hwf _, ?_, hheld, fun s hs hkind hrange hacc hsources => ?_⟩
    · have hi : i < 3 := hi
      refine (value_loop hop.1).mpr ⟨0, 3, int_eq_some.mpr ⟨.int 0, value_const (by decide +kernel), rfl⟩,
        int_eq_some.mpr ⟨.int 3, value_const (by decide +kernel), rfl⟩, ?_, ?_⟩
      all_goals simp only [Env.setAcc, Env.setIter, if_true]
      omega
    · have hkinds : ∀ s < 8, ((narrowLoop 8).op s).kind = ((narrowLoop 11).op s).kind := by
        decide +kernel
      have hs : s < 8 := hs.trans_eq (by decide +kernel)
      rcases hleaf s (hs.trans (by decide)) (hkinds s hs ▸ hkind) with rfl | rfl | rfl | rfl
      · exact absurd rfl hrange
      · exact absurd rfl hacc
      · rw [value_eq, evalStep, value_eq, evalStep,
          show (narrowLoop 8).op 4 = .defineVar ⟨"i", 0, 99, none⟩ by decide +kernel,
          show (narrowLoop 11).op 4 = .defineVar ⟨"i", 0, 99, none⟩ by decide +kernel]
        rfl
      · cases hheld.symm.trans ((hsources 3 (by decide +kernel)).trans hunset)

/-- The bounds of a loop as numbers of eight bits, which no constructor lets through. -/
def narrowBounds : Graph :=
  [⟨.const (.int (-100)), .scalar .int8⟩, ⟨.const (.int 100), .scalar .int8⟩,
    ⟨.loop 0 1 ⟨.reduce, 0⟩, .index⟩, ⟨.defineAcc 0 (.int 0) [2], .scalar .int32⟩,
    ⟨.const (.int 1), .scalar .int32⟩, ⟨.binary .add 3 4, .scalar .int32⟩,
    ⟨.phi 3 5 [2], .scalar .int32⟩].foldl (fun g n => (g.insert n).2) {}

/-- The count of iterations wraps around in the type of the bounds. -/
theorem collapseSum_narrowBounds : ∃ n g', (collapseSum 6).run.run narrowBounds = (some n, g') ∧
    narrowBounds.Evaluates .empty 6 (.int 200) ∧ g'.Evaluates .empty n (.int (-56)) := by
  refine ⟨9, ((collapseSum 6).run.run narrowBounds).2, Prod.ext (by decide +kernel) rfl, ?_, ?_⟩
  · exact evaluates_of_evalAt (show evalAt _ 8 _ 6 = _ by decide +kernel)
  · exact evaluates_of_evalAt (show evalAt _ 8 _ 9 = _ by decide +kernel)

end Rule

end LazyTensor

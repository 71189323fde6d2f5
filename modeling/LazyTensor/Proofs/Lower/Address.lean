import LazyTensor.Lower.Address
import LazyTensor.Proofs.Graph.Sound
import LazyTensor.Proofs.Graph.Term
import LazyTensor.Proofs.Movement.Bounds

/-!
# Addresses are where layouts say

The instructions for an address evaluate to the position that the layout gives to the coordinates,
and their condition to whether it gives one. Where a view masks an element out, what is computed for
the views below means nothing, but it is computed all the same, and the condition stays false.
-/

namespace LazyTensor

open Width (FitsWord)

theorem fitsWord_of_le {i : Int} (hlow : -1 ≤ i) (hhigh : i ≤ Width.maxWord) : FitsWord i :=
  ⟨by rw [Width.minWord]; omega, hhigh⟩

/-! ### Values in a growing graph -/

namespace Graph

variable {g g' : Graph} {env : Env} {r a b : Ref} {v x y : Value}

theorem Evaluates.lt_size (h : g.Evaluates env r v) (hg : g.WellFormed) : r < g.size := by
  obtain ⟨value, -, hstep⟩ := h
  refine lt_size_of_op hg fun hnoop => ?_
  rw [evalStep, hnoop] at hstep
  cases hstep

theorem Grows.evaluates (h : g.Grows g') (hg : g.Sound) (hv : g.Evaluates env r v) :
    g'.Evaluates env r v := by
  induction hv with
  | @step env r v value hvalue hstep ih =>
    have hr : r < g.size := (Evaluates.step value hvalue hstep).lt_size hg.wellFormed
    have hget : ∀ s ∈ (g.op r).sources, g'.get s = g.get s :=
      fun s hs => h.get_eq hg.wellFormed (hg.source_lt hr hs)
    refine .step g'.value (fun _ _ _ => value_eq_some.mp) ?_
    refine (mirrors_of_get (h.get_eq hg.wellFormed hr) hget).evalStep (E := fun _ => True)
      (fun _ _ _ => ⟨fun _ _ => trivial, fun _ _ => trivial⟩)
      (fun s _ env _ v hv => value_eq_some.mpr (ih env s v hv)) (fun l hl env _ c hc => ?_) trivial
      hstep
    have hop : g'.op l = g.op l := by rw [op, hget l (Op.scopes_subset hl), op]
    cases hloop : g.op l with
    | loop start stop axis =>
      exact countWith_imp hloop (hop.trans hloop) (fun v hv => value_eq_some.mpr (ih env start v hv))
        (fun v hv => value_eq_some.mpr (ih env stop v hv)) hc
    | _ => simp [countWith, hloop] at hc

/-- A node of the type of indices that evaluates to a number, modulo words. -/
structure Shows (g : Graph) (env : Env) (r : Ref) (i : Int) : Prop where
  dtype : g.dtype r = .index
  evaluates : g.Evaluates env r (.int (wrapSigned 64 i))

/-- A condition that evaluates to a truth value. An absent one always holds. -/
def Decides (g : Graph) (env : Env) : Option Ref → Bool → Prop
  | none, b => b = true
  | some r, b => g.dtype r = .bool ∧ g.Evaluates env r (.bool b)

theorem Grows.typed (h : g.Grows g') (hg : g.Sound) (hv : g.Evaluates env r v) :
    g'.dtype r = g.dtype r ∧ g'.Evaluates env r v := by
  refine ⟨?_, h.evaluates hg hv⟩
  rw [Graph.dtype, h.get_eq hg.wellFormed (hv.lt_size hg.wellFormed), Graph.dtype]

theorem Shows.grows {i : Int} (hi : g.Shows env r i) (hg : g.Sound) (h : g.Grows g') :
    g'.Shows env r i :=
  have hr := h.typed hg hi.evaluates
  ⟨hr.1.trans hi.dtype, hr.2⟩

theorem Decides.grows {valid : Option Ref} {c : Bool} (hc : g.Decides env valid c) (hg : g.Sound)
    (h : g.Grows g') : g'.Decides env valid c := by
  cases valid with
  | none => exact hc
  | some r =>
    have hr := h.typed hg hc.2
    exact ⟨hr.1.trans hc.1, hr.2⟩

end Graph

/-! ### Work that succeeds -/

namespace Build

variable {α β : Type} {g : Graph} {env : Env} {a b : Ref} {i j : Int} {post : α → Graph → Prop}
  {x : Build α} {post' : β → Graph → Prop} {op : BinaryOp}

/-- Work on `g` gives a result as described and leaves a sound graph that has the nodes of `g`. -/
def Succeeds (x : Build α) (g : Graph) (post : α → Graph → Prop) : Prop :=
  ∃ a g', x.run.run g = (.ok a, g') ∧ g.Grows g' ∧ g'.Sound ∧ post a g'

theorem succeeds_pure {a : α} (hg : g.Sound) (h : post a g) : (pure a : Build α).Succeeds g post :=
  ⟨a, g, rfl, .refl hg.wellFormed, hg, h⟩

theorem Succeeds.mono {post' : α → Graph → Prop} (hx : x.Succeeds g post)
    (h : ∀ a g', post a g' → post' a g') : x.Succeeds g post' := by
  obtain ⟨a, g', hrun, hgrows, hg', ha⟩ := hx
  exact ⟨a, g', hrun, hgrows, hg', h a g' ha⟩

theorem Succeeds.bind {f : α → Build β} (hx : x.Succeeds g post)
    (hf : ∀ a g', g.Grows g' → g'.Sound → post a g' → (f a).Succeeds g' post') :
    (x >>= f).Succeeds g post' := by
  obtain ⟨a, g', hrun, hgrows, hg', ha⟩ := hx
  obtain ⟨b, g'', hrun', hgrows', hg'', hb⟩ := hf a g' hgrows hg' ha
  refine ⟨b, g'', ?_, hgrows.trans hgrows', hg'', hb⟩
  rw [run_bind, hrun]
  exact hrun'

theorem Succeeds.map {f : α → β} (hx : x.Succeeds g post)
    (hf : ∀ a g', post a g' → post' (f a) g') : (f <$> x).Succeeds g post' := by
  rw [← bind_pure_comp]
  exact hx.bind fun a g' _ hg' ha => succeeds_pure hg' (hf a g' ha)

theorem succeeds_const (env : Env) (hg : g.Sound) (v : Value) (t : DType) :
    Succeeds (const v t : GraphM Ref) g fun r g' =>
      g'.dtype r = t ∧ g'.Evaluates env r (v.normalize t) := by
  obtain ⟨hgrows, hholds⟩ := g.insert_spec hg.wellFormed ⟨.const (v.normalize t), t⟩
  refine ⟨_, _, rfl, hgrows, hg.insert nofun, ?_, ?_⟩
  · exact congrArg Instr.dtype hholds.get_eq
  · exact Graph.value_eq_some.mp (Graph.value_const (congrArg Instr.op hholds.get_eq))

theorem succeeds_binary {t : DType} {x y v : Value} (hg : g.Sound) (ha : g.dtype a = t)
    (hb : g.dtype b = t) (hop : op.accepts t = true) (hx : g.Evaluates env a x)
    (hy : g.Evaluates env b y) (hv : op.eval (op.resultType t) x y = some v) :
    (binary op a b).Succeeds g fun r g' => g'.dtype r = op.resultType t ∧ g'.Evaluates env r v := by
  have halt := hx.lt_size hg.wellFormed
  have hblt := hy.lt_size hg.wellFormed
  obtain ⟨hgrows, hholds⟩ := g.insert_spec hg.wellFormed ⟨.binary op a b, op.resultType t⟩
  have hsound : (g.insert ⟨.binary op a b, op.resultType t⟩).2.Sound :=
    hg.insert (List.forall_mem_cons.mpr ⟨halt, List.forall_mem_singleton.mpr hblt⟩)
  refine ⟨_, _, ?_, hgrows, hsound, congrArg Instr.dtype hholds.get_eq, ?_⟩
  · subst ha
    rw [binary]
    simp only [dtypeOf, bind_assoc, pure_bind]
    rw [run_get_bind, run_get_bind, if_pos hb.symm, if_pos hop]
    rfl
  · refine Graph.value_eq_some.mp ((Graph.value_binary (congrArg Instr.op hholds.get_eq)).mpr ?_)
    refine ⟨x, y, ?_, ?_, ?_⟩
    · rw [← hgrows.resolve_eq hg.wellFormed halt, Graph.value_resolve hgrows.wellFormed]
      exact Graph.value_eq_some.mpr (hgrows.evaluates hg hx)
    · rw [← hgrows.resolve_eq hg.wellFormed hblt, Graph.value_resolve hgrows.wellFormed]
      exact Graph.value_eq_some.mpr (hgrows.evaluates hg hy)
    · rw [Graph.dtype, hholds.get_eq]
      exact hv

theorem succeeds_index (env : Env) (hg : g.Sound) (n : Int) :
    (Address.index n).Succeeds g fun r g' => g'.Shows env r n :=
  (succeeds_const env hg (.int n) .index).mono fun _ _ h => ⟨h.1, h.2⟩

section Arithmetic

variable (hg : g.Sound) (ha : g.Shows env a i) (hb : g.Shows env b j)

include hg ha hb

theorem succeeds_arithmetic {k : Int} (hop : op.isComparison = false)
    (haccepts : op.accepts .index = true)
    (hraw : Value.rawBinary op (.int (wrapSigned 64 i)) (.int (wrapSigned 64 j)) = some (.int
      (wrapSigned 64 k))) : (binary op a b).Succeeds g fun r g' => g'.Shows env r k := by
  have htype : op.resultType .index = .index := by
    rw [BinaryOp.resultType, hop, if_neg Bool.false_ne_true]
  have heval : op.eval (op.resultType .index) _ _ = _ := htype ▸ eval_index_wrap hop hraw
  exact (succeeds_binary hg ha.dtype hb.dtype haccepts ha.evaluates hb.evaluates heval).mono
    fun _ _ h => ⟨h.1.trans htype, h.2⟩

theorem succeeds_add : (add a b).Succeeds g fun r g' => g'.Shows env r (i + j) :=
  succeeds_arithmetic hg ha hb rfl rfl <| congrArg (some ∘ Value.int) <|
    wrapSigned_congr ((wrapSigned_modEq 64 i).add (wrapSigned_modEq 64 j))

theorem succeeds_mul : (mul a b).Succeeds g fun r g' => g'.Shows env r (i * j) :=
  succeeds_arithmetic hg ha hb rfl rfl <| congrArg (some ∘ Value.int) <|
    wrapSigned_congr ((wrapSigned_modEq 64 i).mul (wrapSigned_modEq 64 j))

theorem succeeds_idiv (hj : FitsWord j) (hne : j ≠ 0) :
    (idiv a b).Succeeds g fun r g' => g'.Shows env r ((wrapSigned 64 i).tdiv j) :=
  succeeds_arithmetic hg ha hb rfl rfl (by
    rw [wrapSigned_of_fitsWord hj, Value.rawBinary, Value.idiv, if_neg hne])

theorem succeeds_mod (hj : FitsWord j) (hne : j ≠ 0) :
    (mod a b).Succeeds g fun r g' => g'.Shows env r ((wrapSigned 64 i).tmod j) :=
  succeeds_arithmetic hg ha hb rfl rfl (by
    rw [wrapSigned_of_fitsWord hj, Value.rawBinary, Value.mod, if_neg hne])

theorem succeeds_lt :
    (lt a b).Succeeds g fun r g' =>
      g'.Decides env (some r) (wrapSigned 64 i < wrapSigned 64 j) :=
  succeeds_binary hg ha.dtype hb.dtype rfl ha.evaluates hb.evaluates rfl

end Arithmetic

end Build

namespace Address

variable {g : Graph} {env : Env} {b c : Bool} {sum valid : Option Ref} {i p n volume extent : Int}
  {shape : List Int} {flat : Ref}

open Build

theorem succeeds_both {v w : Option Ref} (hg : g.Sound) (hv : g.Decides env v b)
    (hw : g.Decides env w c) : (both v w).Succeeds g fun u g' => g'.Decides env u (b && c) := by
  cases v with
  | none =>
    obtain rfl : b = true := hv
    exact succeeds_pure hg (by rwa [Bool.true_and])
  | some r =>
    cases w with
    | none =>
      obtain rfl : c = true := hw
      exact succeeds_pure hg (by rwa [Bool.and_true])
    | some s =>
      have hand : BinaryOp.and.eval .bool (.bool b) (.bool c) = some (.bool (b && c)) := by
        cases b <;> cases c <;> rfl
      exact (succeeds_binary hg hv.1 hw.1 rfl hv.2 hw.2 hand).map fun _ _ => id

/-- A sum that evaluates to a number. An empty one is zero. -/
def Sums (g : Graph) (env : Env) : Option Ref → Int → Prop
  | none, i => i = 0
  | some r, i => g.Shows env r i

theorem succeeds_addTo {r : Ref} {j : Int} (hg : g.Sound) (hsum : Sums g env sum i)
    (hr : g.Shows env r j) : (addTo sum r).Succeeds g fun sum' g' => Sums g' env sum' (i + j) := by
  cases sum with
  | none =>
    obtain rfl : i = 0 := hsum
    exact succeeds_pure hg (by rwa [zero_add])
  | some s => exact (succeeds_add hg hsum hr).map fun _ _ => id

theorem succeeds_scaled {coord : Ref} {x : Int} (stride : Int) (hg : g.Sound)
    (hx : g.Shows env coord x) :
    (scaled coord (.const stride)).Succeeds g fun r g' => g'.Shows env r (stride * x) := by
  rw [scaled]
  split
  next hone =>
    obtain rfl := SymInt.const_eq_one_iff.mp hone
    exact succeeds_pure hg (by rwa [one_mul])
  next =>
    refine (succeeds_index env hg stride).bind fun r g' hgrows hg' hr => ?_
    rw [mul_comm]
    exact succeeds_mul hg' (hx.grows hg hgrows) hr

theorem forall₂_grows {g' : Graph} {refs : List Ref} {xs : List Int}
    (h : List.Forall₂ (g.Shows env) refs xs) (hg : g.Sound) (hgrows : g.Grows g') :
    List.Forall₂ (g'.Shows env) refs xs :=
  h.imp fun _ _ hx => hx.grows hg hgrows

theorem forall₂_shows {xs : List Int} {coords : List Ref}
    (h : List.Forall₂ (fun r x => g.dtype r = .index ∧ g.Evaluates env r (.int x)) coords xs)
    (hin : InShape shape xs) (hfit : ∀ d ∈ shape, d ≤ Width.maxWord) :
    List.Forall₂ (g.Shows env) coords xs := by
  induction h generalizing shape with
  | nil => exact .nil
  | @cons r x coords xs hr _ ih =>
    cases shape with
    | nil => exact hin.elim
    | cons d shape =>
      obtain ⟨hx, hin⟩ := inShape_cons_cons.mp hin
      obtain ⟨hd, hfit⟩ := List.forall_mem_cons.mp hfit
      have hwrap : wrapSigned 64 x = x :=
        wrapSigned_of_fitsWord (fitsWord_of_le (by omega) (hx.2.le.trans hd))
      exact .cons ⟨hr.1, hwrap.symm ▸ hr.2⟩ (ih hin hfit)

theorem succeeds_offsets {strides xs : List Int} {coords : List Ref} (hg : g.Sound)
    (hcoords : List.Forall₂ (g.Shows env) coords xs) (hsum : Sums g env sum i) :
    (offsets ((shape.map .const).zip ((strides.map .const).zip coords)) sum).Succeeds g
      fun sum' g' => Sums g' env sum' (i + Merge.dot (dropUnits shape strides) xs) := by
  induction shape generalizing g strides coords xs sum i with
  | nil => exact succeeds_pure hg (by simpa [dropUnits] using hsum)
  | cons d shape ih =>
    cases strides with
    | nil => exact succeeds_pure hg (by simpa [dropUnits] using hsum)
    | cons s strides =>
    cases hcoords with
    | nil => exact succeeds_pure hg (by simpa using hsum)
    | @cons coord x coords xs hx hcoords =>
      rw [List.map_cons, List.map_cons, List.zip_cons_cons, List.zip_cons_cons, offsets, dropUnits,
        List.zipWith_cons_cons, Merge.dot_cons_cons, ← dropUnits]
      split
      next hskip =>
        have hzero : (if d = 1 then 0 else s) * x = 0 := by
          rcases hskip with hd | hs
          · rw [if_pos (SymInt.const_eq_one_iff.mp hd), zero_mul]
          · rw [SymInt.const_eq_zero_iff.mp hs, ite_self, zero_mul]
        rw [hzero, zero_add]
        exact ih hg hcoords hsum
      next hkeep =>
        rw [not_or, SymInt.const_eq_one_iff] at hkeep
        rw [if_neg hkeep.1, ← add_assoc]
        refine (succeeds_scaled s hg hx).bind fun r g₁ hgrows hg₁ hr => ?_
        have hsum₁ : Sums g₁ env sum i := by
          cases sum with
          | none => exact hsum
          | some r => exact Graph.Shows.grows hsum hg hgrows
        refine (succeeds_addTo hg₁ hsum₁ hr).bind fun sum' g₂ hgrows' hg₂ hsum₂ => ?_
        exact ih hg₂ (forall₂_grows hcoords hg (hgrows.trans hgrows')) hsum₂

/-- A condition that is added unless it is known to hold. -/
def require (valid : Option Ref) (known : Bool) (test : Build Ref) : Build (Option Ref) :=
  if known then pure valid else do both valid (some (← test))

theorem succeeds_require {known : Bool} {test : Build Ref} (hg : g.Sound)
    (hvalid : g.Decides env valid b)
    (htest : test.Succeeds g fun r g' => g'.Decides env (some r) c) :
    (require valid known test).Succeeds g fun v g' => g'.Decides env v (b && (known || c)) := by
  rw [require]
  cases known with
  | true => exact succeeds_pure hg (by rwa [Bool.true_or, Bool.and_true])
  | false =>
    rw [if_neg Bool.false_ne_true, Bool.false_or]
    exact htest.bind fun r g' hgrows hg' hr => succeeds_both hg' (hvalid.grows hg hgrows) hr

/-- How often a stride fits into a position. -/
def quotient (flat : Ref) (stride : SymInt) : Build Ref :=
  if stride = 1 then pure flat else do Build.idiv flat (← symInt stride)

/-- What exceeds the multiples of a dimension, unless nothing can. -/
def remainder (q : Ref) (dim : SymInt) (outer : Bool) : Build Ref :=
  if outer then do Build.mod q (← symInt dim) else pure q

theorem coordinates_cons (flat : Ref) (dim stride : SymInt) (rest : List (SymInt × SymInt))
    (outer : Bool) :
    coordinates flat ((dim, stride) :: rest) outer = if dim = 1 then (do
        let c ← index 0
        return c :: (← coordinates flat rest outer))
      else (do
        let q ← quotient flat stride
        let c ← remainder q dim outer
        return c :: (← coordinates flat rest true)) := by
  rw [coordinates]
  split
  · rfl
  · by_cases hone : stride = 1 <;> cases outer <;> simp [quotient, remainder, hone]

theorem succeeds_quotient {stride : Int} (hg : g.Sound) (hflat : g.Shows env flat p)
    (hpos : 0 < stride) (hfit : stride ≤ Width.maxWord) :
    (quotient flat (.const stride)).Succeeds g fun q g' => ∃ i, g'.Shows env q i ∧
      (0 ≤ p → p ≤ Width.maxWord → i = p / stride) := by
  rw [quotient]
  split
  next hone =>
    rw [SymInt.const_eq_one_iff.mp hone]
    exact succeeds_pure hg ⟨p, hflat, fun _ _ => (Int.ediv_one p).symm⟩
  next =>
    refine (succeeds_index env hg stride).bind fun s g₁ hgrows hg₁ hs => ?_
    refine (succeeds_idiv hg₁ (hflat.grows hg hgrows) hs (fitsWord_of_le (by omega) hfit)
      hpos.ne').mono fun q g₂ hq => ⟨_, hq, fun hlow hhigh => ?_⟩
    rw [wrapSigned_of_fitsWord (fitsWord_of_le (by omega) hhigh), Int.tdiv_eq_ediv_of_nonneg hlow]

theorem succeeds_remainder {q : Ref} {dim : Int} (outer : Bool) (hg : g.Sound)
    (hq : g.Shows env q i) (hpos : 0 < dim) (hfit : dim ≤ Width.maxWord) :
    (remainder q (.const dim) outer).Succeeds g fun c g' => ∃ x, g'.Shows env c x ∧
      (0 ≤ i → i ≤ Width.maxWord → (outer = false → i < dim) → x = i % dim) := by
  cases outer with
  | false => exact succeeds_pure hg ⟨i, hq, fun hlow _ hlt => (Int.emod_eq_of_lt hlow (hlt rfl)).symm⟩
  | true =>
    refine (succeeds_index env hg dim).bind fun d g₁ hgrows hg₁ hd => ?_
    refine (succeeds_mod hg₁ (hq.grows hg hgrows) hd (fitsWord_of_le (by omega) hfit)
      hpos.ne').mono fun c g₂ hc => ⟨_, hc, fun hlow hhigh _ => ?_⟩
    rw [wrapSigned_of_fitsWord (fitsWord_of_le (by omega) hhigh), Int.tmod_eq_emod_of_nonneg hlow]

omit g env in
theorem unravel_cons {d : Int} (hd : 0 < d) (hpos : ∀ d ∈ shape, 0 < d) (p : Int) :
    LazyTensor.unravel (d :: shape) p = p / product shape % d :: LazyTensor.unravel shape p := by
  obtain ⟨hin, hsplit⟩ := unravelRest_spec hpos p
  obtain ⟨hlow, hhigh⟩ := ravel_nonneg_and_lt hin
  have hquotient : (unravelRest shape p).2 = p / product shape := by
    rw [eq_comm, Int.ediv_eq_iff_of_pos (product_pos hpos)]
    constructor <;> linarith
  rw [LazyTensor.unravel, unravelRest, LazyTensor.unravel, ← hquotient]
  exact congrArg Prod.fst (if_pos hd)

theorem succeeds_coordinates (outer : Bool) (hg : g.Sound) (hflat : g.Shows env flat p)
    (hpos : ∀ d ∈ shape, 0 < d) (hsize : product shape ≤ Width.maxWord) :
    (coordinates flat ((shape.map .const).zip ((rowStrides shape).map .const)) outer).Succeeds g
      fun cs g' => ∃ xs, List.Forall₂ (g'.Shows env) cs xs ∧
        (0 ≤ p → p ≤ Width.maxWord → (outer = false → p < product shape) → xs = LazyTensor.unravel shape p) := by
  induction shape generalizing g outer with
  | nil => exact succeeds_pure hg ⟨[], .nil, fun _ _ _ => rfl⟩
  | cons d shape ih =>
    obtain ⟨hd, hdims⟩ := List.forall_mem_cons.mp hpos
    have hrest := product_pos hdims
    rw [product_cons] at hsize
    have hle : product shape ≤ d * product shape := le_mul_of_one_le_left hrest.le hd
    rw [List.map_cons, rowStrides, List.map_cons, List.zip_cons_cons, coordinates_cons]
    split
    next hunit =>
      obtain rfl := SymInt.const_eq_one_iff.mp hunit
      refine (succeeds_index env hg 0).bind fun c g₁ hgrows hg₁ hc => ?_
      refine (ih outer hg₁ (hflat.grows hg hgrows) hdims (hle.trans hsize)).bind
        fun cs g₂ hgrows₂ hg₂ hcs => ?_
      obtain ⟨xs, hxs, hexact⟩ := hcs
      refine succeeds_pure hg₂ ⟨0 :: xs, .cons (hc.grows hg₁ hgrows₂) hxs, fun hlow hhigh hlt => ?_⟩
      rw [product_cons, one_mul] at hlt
      rw [unravel_cons hd hdims, Int.emod_one, hexact hlow hhigh hlt]
    next hunit =>
      rw [if_neg (mt SymInt.const_eq_one_iff.mpr hunit)]
      refine (succeeds_quotient hg hflat hrest (hle.trans hsize)).bind fun q g₁ hgrows₁ hg₁ hq => ?_
      obtain ⟨i, hi, hquotient⟩ := hq
      refine (succeeds_remainder outer hg₁ hi hd ((le_mul_of_one_le_right hd.le hrest).trans hsize)).bind
        fun c g₂ hgrows₂ hg₂ hc => ?_
      obtain ⟨x, hx, hremainder⟩ := hc
      refine (ih true hg₂ (hflat.grows hg (hgrows₁.trans hgrows₂)) hdims (hle.trans hsize)).bind
        fun cs g₃ hgrows₃ hg₃ hcs => ?_
      obtain ⟨xs, hxs, hexact⟩ := hcs
      refine succeeds_pure hg₃ ⟨x :: xs, .cons (hx.grows hg₂ hgrows₃) hxs, fun hlow hhigh hlt => ?_⟩
      obtain rfl := hquotient hlow hhigh
      rw [unravel_cons hd hdims, hexact hlow hhigh (fun h => absurd h (by decide)), hremainder]
      · exact Int.ediv_nonneg hlow hrest.le
      · exact (Int.ediv_le_self _ hlow).trans hhigh
      · intro houter
        exact Int.ediv_lt_of_lt_mul hrest (hlt houter)

variable [Width]

theorem inside_cons (start stop dim : SymInt) (coord : Ref)
    (rest : List ((SymInt × SymInt) × SymInt × Ref)) (valid : Option Ref) :
    inside (((start, stop), dim, coord) :: rest) valid = (do
      let valid ← require valid (start = 0) (do Build.lt (← symInt (start - 1)) coord)
      let valid ← require valid (stop = dim) (do Build.lt coord (← symInt stop))
      inside rest valid) := by
  rw [inside, require]
  by_cases hstart : start = 0 <;> by_cases hstop : stop = dim <;> simp [hstart, hstop, require]

/-- The position of an element, from the sum of its coordinates times their strides. -/
def placed (sum : Option Ref) (offset : SymInt) : Build Ref :=
  match sum with
  | none => symInt offset
  | some s => if offset = 0 then pure s else do Build.add s (← symInt offset)

/-- The condition that coordinates lie inside the mask of a view, if it has one. -/
def masked (v : View) (coords : List Ref) : Build (Option Ref) :=
  match v.mask with
  | none => pure none
  | some mask => inside (mask.zip (v.shape.zip coords)) none

variable {bound : Int} (hexact : Width.ExactTo bound) (hone : 1 ≤ bound)
  (hword : bound ≤ Width.maxWord)

include hexact hone hword

theorem succeeds_inside {ranges : List (Int × Int)} {xs : List Int} {coords : List Ref}
    (hg : g.Sound) (hinside : RangesInside ranges shape) (hfit : ∀ d ∈ shape, d ≤ bound)
    (hcoords : List.Forall₂ (g.Shows env) coords xs) (hvalid : g.Decides env valid b) :
    (inside ((constRanges ranges).zip ((shape.map .const).zip coords)) valid).Succeeds g
      fun valid' g' => ∃ c, g'.Decides env valid' c ∧
        (InShape shape xs → (c = true ↔ b = true ∧ InRanges ranges xs)) := by
  induction ranges generalizing g shape coords xs valid b with
  | nil =>
    refine succeeds_pure hg ⟨b, hvalid, fun hin => ?_⟩
    cases shape with
    | nil =>
      obtain rfl := inShape_nil_iff.mp hin
      simp [InRanges]
    | cons d shape => exact hinside.elim
  | cons r ranges ih =>
    cases shape with
    | nil => exact hinside.elim
    | cons d shape =>
    cases hcoords with
    | nil => exact succeeds_pure hg ⟨b, hvalid, fun hin => hin.elim⟩
    | @cons coord x coords xs hx hcoords =>
      obtain ⟨⟨hstart, hstart', hstop, hstop'⟩, hinside⟩ := hinside
      obtain ⟨hd, hfit⟩ := List.forall_mem_cons.mp hfit
      have hlower : SymInt.const r.1 - 1 = .const (r.1 - 1) :=
        SymInt.sub_const hexact (b := 1) (by omega) (by omega)
      rw [constRanges, List.map_cons, List.map_cons, List.zip_cons_cons, List.zip_cons_cons,
        inside_cons, ← constRanges, hlower]
      have hleast : (do Build.lt (← symInt (.const (r.1 - 1))) coord).Succeeds g fun c g' =>
          g'.Decides env (some c) (wrapSigned 64 (r.1 - 1) < wrapSigned 64 x) :=
        (succeeds_index env hg (r.1 - 1)).bind fun c g' hgrows hg' hc =>
          succeeds_lt hg' hc (hx.grows hg hgrows)
      refine (succeeds_require hg hvalid hleast).bind fun v g₁ hgrows hg₁ hv => ?_
      have hx₁ := hx.grows hg hgrows
      have hmost : (do Build.lt coord (← symInt (.const r.2))).Succeeds g₁ fun c g' =>
          g'.Decides env (some c) (wrapSigned 64 x < wrapSigned 64 r.2) :=
        (succeeds_index env hg₁ r.2).bind fun c g' hgrows hg' hc =>
          succeeds_lt hg' (hx₁.grows hg₁ hgrows) hc
      refine (succeeds_require hg₁ hv hmost).bind fun v g₂ hgrows' hg₂ hv => ?_
      refine (ih hg₂ hinside hfit (forall₂_grows hcoords hg (hgrows.trans hgrows')) hv).mono ?_
      rintro v' g₃ ⟨c, hc, hiff⟩
      refine ⟨c, hc, fun hin => ?_⟩
      obtain ⟨hx, hin⟩ := inShape_cons_cons.mp hin
      rw [hiff hin]
      have hwrap : ∀ i, -1 ≤ i → i ≤ bound → wrapSigned 64 i = i := fun i hlow hhigh =>
        wrapSigned_of_fitsWord (fitsWord_of_le hlow (hhigh.trans hword))
      rw [hwrap x (by omega) (by omega), hwrap (r.1 - 1) (by omega) (by omega),
        hwrap r.2 (by omega) (by omega)]
      simp only [Bool.and_eq_true, Bool.or_eq_true, decide_eq_true_eq, SymInt.const_eq_zero_iff,
        SymInt.const.injEq, InRanges]
      constructor
      · rintro ⟨⟨⟨hb, hlow⟩, hhigh⟩, hrest⟩
        exact ⟨hb, ⟨by omega, by omega⟩, hrest⟩
      · rintro ⟨hb, ⟨hlow, hhigh⟩, hrest⟩
        exact ⟨⟨⟨hb, by omega⟩, by omega⟩, hrest⟩

omit hexact hone hword in
theorem view_eq {v : View} (h : v.isInvalid = false) (coords : List Ref) :
    view v coords = (do
      let sum ← offsets (v.shape.zip (v.strides.zip coords)) none
      let position ← placed sum v.offset
      let valid ← masked v coords
      return (position, valid)) := by
  rw [view, h, if_neg Bool.false_ne_true]
  refine bind_congr fun sum => ?_
  rw [masked]
  cases sum with
  | none => cases v.mask <;> simp [placed]
  | some s => cases v.mask <;> by_cases hzero : v.offset = 0 <;> simp [placed, hzero]

omit hexact hone hword [Width] in
theorem succeeds_placed (offset : Int) (hg : g.Sound) (hsum : Sums g env sum i) :
    (placed sum (.const offset)).Succeeds g fun r g' => g'.Shows env r (offset + i) := by
  cases sum with
  | none =>
    obtain rfl : i = 0 := hsum
    rw [add_zero]
    exact succeeds_index env hg offset
  | some s =>
    rw [placed]
    split
    next hzero =>
      rw [SymInt.const_eq_zero_iff.mp hzero, zero_add]
      exact succeeds_pure hg hsum
    next =>
      rw [add_comm]
      exact (succeeds_index env hg offset).bind fun r g' hgrows hg' hr =>
        succeeds_add hg' (hsum.grows hg hgrows) hr

variable {v : View} {a : Merge.Affine} {coords : List Ref} {xs : List Int} (ha : v.IsAffine a)
  (hfit : ∀ d ∈ a.shape, d ≤ bound)

include ha hfit

omit hone hword in
theorem exists_empty_of_isInvalid (h : v.isInvalid = true) : ∃ r ∈ a.ranges, r.2 ≤ r.1 := by
  rw [View.isInvalid, ha.eq_toView, Merge.Affine.toView] at h
  cases hmask : a.mask with
  | none =>
    rw [hmask] at h
    cases h
  | some m =>
    have hm : a.ranges = m := by rw [Merge.Affine.ranges, hmask, Option.getD_some]
    rw [hmask, Option.map_some, Option.any_some,
      Mask.isEmpty_constRanges hexact (hm ▸ ha.wellFormed.inside.fit hfit), List.any_eq_true] at h
    obtain ⟨r, hr, hle⟩ := h
    exact ⟨r, hm ▸ hr, of_decide_eq_true hle⟩

theorem succeeds_masked (hg : g.Sound) (hcoords : List.Forall₂ (g.Shows env) coords xs) :
    (masked v coords).Succeeds g fun valid g' => ∃ b, g'.Decides env valid b ∧
      (InShape a.shape xs → (b = true ↔ InRanges a.ranges xs)) := by
  rw [masked, ha.shape_eq, ha.eq_toView, Merge.Affine.toView]
  have hinside := ha.wellFormed.inside
  cases hmask : a.mask with
  | none =>
    have hranges : a.ranges = fullRanges a.shape := by
      rw [Merge.Affine.ranges, hmask, Option.getD_none, fullRanges]
    refine succeeds_pure hg ⟨true, rfl, fun hin => ?_⟩
    rw [hranges]
    exact iff_of_true rfl hin
  | some m =>
    have hm : a.ranges = m := by rw [Merge.Affine.ranges, hmask, Option.getD_some]
    rw [hm] at hinside ⊢
    refine (succeeds_inside hexact hone hword hg hinside hfit hcoords
      (show g.Decides env none true from rfl)).mono ?_
    rintro valid g' ⟨b, hb, hiff⟩
    exact ⟨b, hb, fun hin => by simpa using hiff hin⟩

theorem succeeds_view (hg : g.Sound) (hcoords : List.Forall₂ (g.Shows env) coords xs) :
    (view v coords).Succeeds g fun p g' => ∃ i b, g'.Shows env p.1 i ∧ g'.Decides env p.2 b ∧
      (InShape a.shape xs → a.index xs = if b then some i else none) := by
  cases hinvalid : v.isInvalid with
  | true =>
    obtain ⟨r, hr, hempty⟩ := exists_empty_of_isInvalid hexact ha hfit hinvalid
    rw [view, hinvalid, if_pos rfl]
    refine (succeeds_const env hg (.bool false) .bool).bind fun never g₁ _ hg₁ hnever => ?_
    have hfalse : g₁.Decides env (some never) false := hnever
    refine (succeeds_index env hg₁ 0).bind fun position g₂ hgrows hg₂ hposition => ?_
    exact succeeds_pure hg₂ ⟨0, false, hposition, hfalse.grows hg₁ hgrows, fun _ =>
      Merge.Affine.index_of_not_inRanges (not_inRanges_of_empty hr hempty)⟩
  | false =>
    have hoffset : v.offset = .const a.offset := by rw [ha.eq_toView]; rfl
    have hstrides : v.strides = a.strides.map .const := by rw [ha.eq_toView]; rfl
    rw [view_eq hinvalid, ha.shape_eq, hstrides, hoffset]
    refine (succeeds_offsets hg hcoords (show Sums g env none 0 from rfl)).bind
      fun sum g₁ hgrows₁ hg₁ hsum => ?_
    rw [zero_add] at hsum
    refine (succeeds_placed a.offset hg₁ hsum).bind fun position g₂ hgrows₂ hg₂ hposition => ?_
    refine (succeeds_masked hexact hone hword ha hfit hg₂
      (forall₂_grows hcoords hg (hgrows₁.trans hgrows₂))).bind fun valid g₃ hgrows₃ hg₃ hvalid => ?_
    obtain ⟨b, hb, hiff⟩ := hvalid
    refine succeeds_pure hg₃ ⟨_, b, hposition.grows hg₂ hgrows₃, hb, fun hin => ?_⟩
    rw [dot_dropUnits a.strides hin ha.wellFormed.length_strides]
    by_cases hranges : InRanges a.ranges xs
    · rw [Merge.Affine.index_of_inRanges hranges, (hiff hin).mpr hranges, if_pos rfl]
    · rw [Merge.Affine.index_of_not_inRanges hranges, if_neg (mt (hiff hin).mp hranges)]

omit ha hfit hone in
theorem succeeds_unravel (hg : g.Sound) (hflat : g.Shows env flat p) (hpos : ∀ d ∈ shape, 0 < d)
    (hsize : product shape ≤ bound) :
    (unravel (shape.map .const) flat).Succeeds g fun cs g' =>
      ∃ xs, List.Forall₂ (g'.Shows env) cs xs ∧
        (0 ≤ p → p < product shape → xs = LazyTensor.unravel shape p) := by
  have hrow : rowMajor (shape.map .const) = (rowStrides shape).map .const := by
    rw [rowMajor, rowMajorSize_const hexact (fun d hd => (hpos d hd).le) fun rest hrest =>
      (product_suffix_le hpos hrest).trans hsize]
  rw [unravel, hrow]
  refine (succeeds_coordinates false hg hflat hpos (hsize.trans hword)).mono ?_
  rintro cs g' ⟨xs, hxs, heq⟩
  exact ⟨xs, hxs, fun hlow hhigh => heq hlow (hhigh.le.trans (hsize.trans hword)) fun _ => hhigh⟩

omit ha hfit in
/-- What is masked out above stays masked out, and what is not is where the views below have it. -/
theorem succeeds_through {size : Int} {views : List View} (hroom : HasRoom bound volume extent)
    (h : Nested n volume extent views size) {position : Ref} (hg : g.Sound)
    (hposition : g.Shows env position p) (hvalid : g.Decides env valid b)
    (hplace : b = true → 0 ≤ p ∧ p < size) :
    (through views (position, valid)).Succeeds g fun q g' => ∃ i c, g'.Shows env q.1 i ∧
      g'.Decides env q.2 c ∧
      (if b then Layout.indexBelow views p else none) = if c then some i else none := by
  induction h generalizing g position valid p b with
  | buffer _ => exact succeeds_pure hg ⟨p, b, hposition, hvalid, rfl⟩
  | @view v a rest size hlocated hpos hle hrest ih =>
    have hfit : ∀ d ∈ a.shape, d ≤ bound := fun d hd => by
      linarith [hlocated.dim_le d hd, hroom.extent_le, hroom.extent_nonneg]
    rw [through, hlocated.isAffine.shape_eq]
    refine (succeeds_unravel hexact hword hg hposition hpos (hle.trans hroom.n_le)).bind
      fun cs g₁ hgrows₁ hg₁ hcs => ?_
    obtain ⟨xs, hxs, hunravel⟩ := hcs
    refine (succeeds_view hexact hone hword hlocated.isAffine hfit hg₁ hxs).bind
      fun next g₂ hgrows₂ hg₂ hnext => ?_
    obtain ⟨i, c, hi, hc, hindex⟩ := hnext
    refine (succeeds_both hg₂ (hvalid.grows hg (hgrows₁.trans hgrows₂)) hc).bind
      fun valid' g₃ hgrows₃ hg₃ hvalid' => ?_
    have hread : b = true → (v.index (LazyTensor.unravel a.shape p) = if c then some i else none) := by
      intro hb
      have hin := inShape_unravel hpos p
      rw [hlocated.index_eq hexact (hrest.size_le.trans hroom.n_le) hin]
      rw [hunravel (hplace hb).1 (hplace hb).2] at hindex
      exact hindex hin
    have hplace' : (b && c) = true → 0 ≤ i ∧ i < size := by
      intro hbc
      obtain ⟨hb, rfl⟩ := Bool.and_eq_true_iff.mp hbc
      have hi := hread hb
      rw [hlocated.index_eq hexact (hrest.size_le.trans hroom.n_le) (inShape_unravel hpos p)] at hi
      exact hlocated.mem_of_index hi
    refine (ih hg₃ (hi.grows hg₂ hgrows₃) hvalid' hplace').mono ?_
    rintro q g₄ ⟨j, d, hj, hd, heq⟩
    refine ⟨j, d, hj, hd, heq ▸ ?_⟩
    cases b with
    | false => rfl
    | true =>
      have hinside : ¬(p < 0 ∨ Width.wrap (product a.shape) ≤ p) := by
        have := product_pos hpos
        rw [(hexact _ (by omega) (hle.trans hroom.n_le)).1]
        have := hplace rfl
        omega
      rw [if_pos rfl, Layout.indexBelow, hlocated.isAffine.shape_eq, boundShape?_const,
        Option.bind_eq_bind, Option.bind_some, if_neg hinside, hread rfl]
      cases c <;> rfl

omit ha hfit in
theorem succeeds_layout {l : Layout} (hroom : HasRoom bound volume extent)
    (h : l.Inside n volume extent shape) (hg : g.Sound)
    (hcoords : List.Forall₂ (fun r x => g.dtype r = .index ∧ g.Evaluates env r (.int x)) coords xs)
    (hin : InShape shape xs) :
    (layout l coords).Succeeds g fun q g' => ∃ i c, g'.Shows env q.1 i ∧ g'.Decides env q.2 c ∧
      l.index xs = if c then some i else none := by
  obtain ⟨a, size, hlocated, hnested, rfl⟩ := h
  have hfit : ∀ d ∈ a.shape, d ≤ bound := fun d hd => by
    linarith [hlocated.dim_le d hd, hroom.extent_le, hroom.extent_nonneg]
  have hshows := forall₂_shows hcoords hin fun d hd => (hfit d hd).trans hword
  refine (succeeds_view hexact hone hword hlocated.isAffine hfit hg hshows).bind
    fun top g₁ hgrows₁ hg₁ htop => ?_
  obtain ⟨i, b, hi, hb, hindex⟩ := htop
  have hread := hindex hin
  have hplace : b = true → 0 ≤ i ∧ i < size := by
    rintro rfl
    exact hlocated.mem_of_index hread
  refine (succeeds_through hexact hone hword hroom hnested hg₁ hi hb hplace).mono ?_
  rintro q g₂ ⟨j, c, hj, hc, heq⟩
  refine ⟨j, c, hj, hc, heq ▸ ?_⟩
  rw [Layout.index, hlocated.index_eq hexact (hnested.size_le.trans hroom.n_le) hin, hread]
  cases b <;> rfl

end Address

/-- However movements have changed a row-major layout, the instructions for an address give the
position that the layout has for the coordinates, under a condition that holds. Where the layout has
none, they give a condition that does not. -/
theorem Address.layout_evaluates [Width] {g : Graph} {env : Env} {shape xs : List Int}
    {moves : List Move} {l : Layout} {volume extent : Int} {coords : List Ref}
    (hdims : ∀ d ∈ shape, 0 ≤ d)
    (hok : moves.foldlM (fun l move => l.apply move.toMovement) (Layout.ofShape (shape.map .const))
      = .ok l) (hfair : Move.FairRun shape moves) (hpos : 1 ≤ volume)
    (hvolume : ∀ s ∈ Move.shapesAlong shape moves, product s ≤ volume)
    (hextent : ∀ s ∈ Move.shapesAlong shape moves, s.sum ≤ extent)
    (hwithin : ∀ move ∈ moves, move.Within extent)
    (hexact : Width.ExactTo ((1 + volume) * (1 + 4 * extent)))
    (hword : (1 + volume) * (1 + 4 * extent) ≤ Width.maxWord) (hg : g.Sound)
    (hin : InShape (moves.foldl Move.target shape) xs)
    (hcoords : List.Forall₂ (fun r x => g.dtype r = .index ∧ g.Evaluates env r (.int x)) coords xs) :
    ∃ position valid g', (Address.layout l coords).run.run g = (.ok (position, valid), g') ∧
      (∀ i, l.index xs = some i →
        g'.Evaluates env position (.int i) ∧ ∀ r ∈ valid, g'.Evaluates env r (.bool true)) ∧
      (l.index xs = none → ∃ r ∈ valid, g'.Evaluates env r (.bool false)) := by
  have hhead := Move.head_mem_shapesAlong shape moves
  have hroom : HasRoom ((1 + volume) * (1 + 4 * extent)) volume extent :=
    ⟨by omega, (List.sum_nonneg hdims).trans (hextent _ hhead), le_rfl⟩
  obtain ⟨a, ha, hshape, -⟩ := View.exists_located_ofShape hexact hdims (hextent _ hhead)
    ((hvolume _ hhead).trans hroom.n_le)
  -- An empty buffer is taken to have one element, which a shape without dimensions may read.
  have hlocated : (View.ofShape (shape.map .const)).Located a volume extent :=
    ⟨ha.isAffine, fun xs hxs => ⟨(ha.within xs hxs).1, (ha.within xs hxs).2.trans_le (hvolume _ hhead)⟩,
      ha.sum_le⟩
  have hstart : (Layout.ofShape (shape.map .const)).Inside volume volume extent shape :=
    ⟨a, volume, hlocated, .buffer le_rfl, hshape⟩
  have hend := hstart.foldlM_apply hexact hroom (by omega) hvolume hextent (fun _ => by omega) hfair
    hwithin hok
  have hone : 1 ≤ (1 + volume) * (1 + 4 * extent) := hpos.trans hroom.n_le
  obtain ⟨⟨position, valid⟩, g', hrun, -, -, i, c, hi, hc, hindex⟩ :=
    Address.succeeds_layout hexact hone hword hroom hend hg hcoords hin
  refine ⟨position, valid, g', hrun, fun j hj => ?_, fun hnone => ?_⟩
  · obtain ⟨hlow, hhigh⟩ := hend.mem_of_index hexact hroom.n_le hin hj
    rw [hj] at hindex
    cases c with
    | false => cases hindex
    | true =>
      obtain rfl : j = i := Option.some.inj hindex
      have hvalue := hi.evaluates
      rw [wrapSigned_of_fitsWord (fitsWord_of_le (by omega)
        (hhigh.le.trans (hroom.n_le.trans hword)))] at hvalue
      refine ⟨hvalue, fun r hr => ?_⟩
      obtain rfl : valid = some r := hr
      exact hc.2
  · rw [hnone] at hindex
    cases c with
    | true => cases hindex
    | false =>
      cases valid with
      | none => cases hc
      | some r => exact ⟨r, rfl, hc.2⟩

def fourAndOne : Graph :=
  [⟨.const (.int 4), .index⟩, ⟨.const (.int 1), .index⟩].foldl (fun g n => (g.insert n).2) {}

/-- Two rows under one of padding, seen as one row: the second element is padding, the fifth is not. -/
theorem Address.layout_evaluates_padded :
    ∃ l, ([.pad [(1, 0), (0, 0)], .reshape [9]] : List Move).foldlM
        (fun l move => @Layout.apply .word64 l move.toMovement)
        (@Layout.ofShape .word64 [.const 2, .const 3]) = .ok l ∧ l.below ≠ [] ∧
      (∃ position valid g', (@Address.layout .word64 l [0]).run.run fourAndOne
        = (.ok (position, valid), g') ∧ g'.Evaluates .empty position (.int 1)) ∧
      ∃ position r g', (@Address.layout .word64 l [1]).run.run fourAndOne
        = (.ok (position, some r), g') ∧ g'.Evaluates .empty r (.bool false) := by
  have hbuilt : fourAndOne.Built := by
    refine .insert (.insert .empty ?_) ?_
    all_goals decide +kernel
  have hfour : fourAndOne.evalAt 1 .empty 0 = some (.int 4) := rfl
  have hone : fourAndOne.evalAt 1 .empty 1 = some (.int 1) := rfl
  refine ⟨_, rfl, by decide +kernel, ?_, ?_⟩
  · obtain ⟨position, valid, g', hrun, hsome, -⟩ := @Address.layout_evaluates .word64 fourAndOne .empty
      [2, 3] [4] [.pad [(1, 0), (0, 0)], .reshape [9]] _ 9 9 [0] (by decide) rfl (by decide) (by decide)
      (by decide) (by decide) (by simp [Move.Within]) (Width.exactTo_word64 (by decide)) (by decide)
      hbuilt.sound ⟨⟨by decide, by decide⟩, trivial⟩
      (.cons ⟨rfl, Graph.evaluates_of_evalAt hfour⟩ .nil)
    exact ⟨position, valid, g', hrun, (hsome 1 rfl).1⟩
  · obtain ⟨position, valid, g', hrun, -, hnone⟩ := @Address.layout_evaluates .word64 fourAndOne .empty
      [2, 3] [1] [.pad [(1, 0), (0, 0)], .reshape [9]] _ 9 9 [1] (by decide) rfl (by decide) (by decide)
      (by decide) (by decide) (by simp [Move.Within]) (Width.exactTo_word64 (by decide)) (by decide)
      hbuilt.sound ⟨⟨by decide, by decide⟩, trivial⟩
      (.cons ⟨rfl, Graph.evaluates_of_evalAt hone⟩ .nil)
    obtain ⟨r, hr, hfalse⟩ := hnone rfl
    obtain rfl : valid = some r := hr
    exact ⟨position, r, g', hrun, hfalse⟩

end LazyTensor

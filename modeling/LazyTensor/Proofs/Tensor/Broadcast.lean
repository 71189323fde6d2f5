import LazyTensor.Proofs.Schedule.Compute
import Mathlib.Data.List.Zip

/-!
# Broadcasting

Shapes that can be stretched to a common one form a partial commutative monoid. A tensor that is
broadcast to such a shape repeats its elements along the stretched dimensions.
-/

namespace LazyTensor

/-! ### Shapes -/

section Shapes

theorem broadcastDim?_one (a : SymInt) : broadcastDim? a 1 = some a := if_pos (.inr rfl)

theorem broadcastDim?_comm (a b : SymInt) : broadcastDim? a b = broadcastDim? b a := by
  unfold broadcastDim?
  by_cases hab : a = b
  · rw [hab]
  · have hba : ¬b = a := fun hba => hab hba.symm
    by_cases ha : a = 1 <;> by_cases hb : b = 1 <;> simp_all

theorem bind_broadcastDim? (a b c : SymInt) :
    (broadcastDim? a b).bind (broadcastDim? · c) = (broadcastDim? b c).bind (broadcastDim? · a) := by
  by_cases hb : b = 1
  · rw [hb, broadcastDim?_one, broadcastDim?_comm 1, broadcastDim?_one]
    exact broadcastDim?_comm a c
  · unfold broadcastDim?
    by_cases ha : a = 1 <;> by_cases hc : c = 1 <;> by_cases hab : a = b <;>
      by_cases hbc : b = c <;> simp_all [eq_comm]

theorem broadcastShape?_comm (l r : Shape) : broadcastShape? l r = broadcastShape? r l := by
  rw [broadcastShape?, broadcastShape?, Nat.max_comm, ← List.zip_swap, List.mapM_map]
  simp only [Function.comp_def, Prod.fst_swap, Prod.snd_swap, broadcastDim?_comm]

theorem length_alignShape {l : Shape} {n : Nat} (h : l.length ≤ n) : (alignShape n l).length = n := by
  rw [alignShape, List.length_append, List.length_replicate, Nat.sub_add_cancel h]

theorem broadcastShape?_nil (l : Shape) : broadcastShape? l [] = some l := by
  have hones : (l.zip (List.replicate l.length 1)).mapM (fun p => broadcastDim? p.1 p.2) = some l := by
    induction l with
    | nil => rfl
    | cons a l ih => simp [List.replicate_succ, broadcastDim?_one, ih]
  simpa [broadcastShape?, alignShape] using hones

theorem alignShape_concat (n : Nat) (l : Shape) (a : SymInt) :
    alignShape (n + 1) (l ++ [a]) = alignShape n l ++ [a] := by
  simp [alignShape]

/-- The last dimensions go together. -/
theorem broadcastShape?_concat (l r : Shape) (a b : SymInt) :
    broadcastShape? (l ++ [a]) (r ++ [b])
      = (broadcastShape? l r).bind fun t => (broadcastDim? a b).map fun d => t ++ [d] := by
  have hl := length_alignShape (Nat.le_max_left l.length r.length)
  have hr := length_alignShape (Nat.le_max_right l.length r.length)
  simp only [broadcastShape?, List.length_append, List.length_singleton, Nat.add_max_add_right,
    alignShape_concat]
  rw [List.zip_append (hl.trans hr.symm), List.mapM_append]
  simp [Option.map_eq_bind, Option.bind_assoc]

theorem bind_broadcastShape?_concat (x : Option Shape) (d : Option SymInt) (r : Shape) (c : SymInt) :
    (x.bind fun t => d.map fun e => t ++ [e]).bind (broadcastShape? · (r ++ [c]))
      = (x.bind (broadcastShape? · r)).bind fun t =>
          (d.bind (broadcastDim? · c)).map fun e => t ++ [e] := by
  cases x <;> cases d <;> simp [broadcastShape?_concat]

theorem bind_broadcastShape? (l m r : Shape) : (broadcastShape? l m).bind (broadcastShape? · r)
    = (broadcastShape? m r).bind (broadcastShape? · l) := by
  induction l using List.reverseRecOn generalizing m r with
  | nil =>
    rw [broadcastShape?_comm [], broadcastShape?_nil]
    simp [broadcastShape?_nil]
  | append_singleton l a ih =>
    rcases List.eq_nil_or_concat' m with rfl | ⟨m, b, rfl⟩
    · rw [broadcastShape?_comm [], broadcastShape?_nil, broadcastShape?_nil]
      exact broadcastShape?_comm ..
    rcases List.eq_nil_or_concat' r with rfl | ⟨r, c, rfl⟩
    · simp only [broadcastShape?_nil, Option.bind_fun_some]
      exact broadcastShape?_comm ..
    rw [broadcastShape?_concat, broadcastShape?_concat, bind_broadcastShape?_concat,
      bind_broadcastShape?_concat, ih, bind_broadcastDim?]

end Shapes

/-! ### Dimensions -/

section Dims

variable {k : Nat} {dims new coords : List Int}

/-- The coordinates in a shape of which the dimensions of size 1 were stretched. -/
def stretched (dims coords : List Int) : List Int :=
  dims.zipWith (fun d c => if d = 1 then 0 else c) coords

theorem stretched_self (hin : InShape dims coords) : stretched dims coords = coords := by
  induction dims generalizing coords with
  | nil => rw [inShape_nil_iff.mp hin]; rfl
  | cons d dims ih =>
    obtain ⟨c, coords, rfl, hc, hin⟩ := inShape_cons.mp hin
    have hhead : (if d = 1 then 0 else c) = c := by split <;> omega
    rw [stretched, List.zipWith_cons_cons, hhead]
    exact congrArg (c :: ·) (ih hin)

theorem Move.source_expand (hlegal : LegalAlong (new.map .expand) dims) (hin : InShape new coords) :
    sourceAlong (new.map .expand) dims coords = some (stretched dims coords) ∧
      InShape dims (stretched dims coords) := by
  induction new generalizing dims coords with
  | nil =>
    cases dims with
    | nil => exact ⟨rfl, trivial⟩
    | cons d dims => exact hlegal.elim
  | cons e new ih =>
    cases dims with
    | nil => exact hlegal.elim
    | cons d dims =>
      obtain ⟨c, coords, rfl, hc, hin⟩ := inShape_cons.mp hin
      obtain ⟨⟨-, hd⟩, hlegal⟩ := hlegal
      obtain ⟨hsource, hin'⟩ := ih hlegal hin
      rw [List.map_cons, sourceAlong, hsource]
      refine ⟨rfl, inShape_cons_cons.mpr ⟨?_, hin'⟩⟩
      dsimp only
      split <;> omega

theorem product_ones_append (k : Nat) (dims : List Int) :
    product (List.replicate k 1 ++ dims) = product dims := by
  induction k with
  | zero => rfl
  | succ k ih => rw [List.replicate_succ, List.cons_append, product_cons, ih, one_mul]

theorem unravel_ones_append (hin : InShape (List.replicate k 1 ++ dims) coords) :
    unravel dims (ravel (List.replicate k 1 ++ dims) coords) = coords.drop k := by
  induction k generalizing coords with
  | zero => exact unravel_ravel hin
  | succ k ih =>
    rw [List.replicate_succ, List.cons_append] at hin ⊢
    obtain ⟨c, coords, rfl, hc, hin⟩ := inShape_cons.mp hin
    rw [ravel, show c = 0 by omega, zero_mul, zero_add]
    exact ih hin

theorem legalAlong_of_mapM {xs ys : List Int} {target : Shape} (hlength : ys.length = xs.length)
    (hxs : ∀ d ∈ xs, 0 ≤ d) (hys : ∀ d ∈ ys, 0 ≤ d)
    (h : ((xs.map SymInt.const).zip (ys.map .const)).mapM (fun p => broadcastDim? p.1 p.2)
      = some target) :
    ∃ dims : List Int, target = dims.map .const ∧ (∀ d ∈ dims, 0 ≤ d) ∧
      Move.LegalAlong (dims.map .expand) xs := by
  induction xs generalizing ys target with
  | nil =>
    obtain rfl := Option.some.inj h
    exact ⟨[], rfl, by simp, trivial⟩
  | cons a xs ih =>
    obtain ⟨b, ys, rfl⟩ := List.exists_cons_of_length_eq_add_one hlength
    rw [List.forall_mem_cons] at hxs hys
    rw [List.map_cons, List.map_cons, List.zip_cons_cons, List.mapM_cons] at h
    obtain ⟨d, hd, h⟩ := Option.bind_eq_some_iff.mp h
    obtain ⟨rest, hrest, h⟩ := Option.bind_eq_some_iff.mp h
    obtain ⟨dims, rfl, hdims, hlegal⟩ := ih (Nat.succ.inj hlength) hxs.2 hys.2 hrest
    obtain ⟨e, rfl, he, hfits⟩ : ∃ e, d = .const e ∧ 0 ≤ e ∧ (a = e ∨ a = 1) := by
      unfold broadcastDim? at hd
      split at hd
      · exact ⟨a, (Option.some.inj hd).symm, hxs.1, .inl rfl⟩
      · obtain ⟨hone, hb⟩ := Option.ite_none_right_eq_some.mp hd
        exact ⟨b, (Option.some.inj hb).symm, hys.1, .inr (SymInt.const_eq_one_iff.mp hone)⟩
    exact ⟨e :: dims, (Option.some.inj h).symm, List.forall_mem_cons.mpr ⟨he, hdims⟩, ⟨he, hfits⟩,
      hlegal⟩

theorem fits_of_legal (hlegal : Move.LegalAlong (new.map .expand) dims) :
    ∀ p ∈ (dims.map SymInt.const).zip (new.map .const), p.1 = p.2 ∨ p.1 = 1 := by
  induction new generalizing dims with
  | nil => simp
  | cons e new ih =>
    cases dims with
    | nil => exact hlegal.elim
    | cons d dims =>
      rw [List.map_cons, List.map_cons, List.zip_cons_cons, List.forall_mem_cons]
      exact ⟨hlegal.1.2.imp (congrArg _) (congrArg _), ih hlegal.2⟩

theorem alignShape_const (n : Nat) (dims : List Int) : alignShape n (dims.map .const)
    = (List.replicate (n - dims.length) 1 ++ dims).map SymInt.const := by
  rw [alignShape, List.map_append, List.map_replicate, List.length_map]
  rfl

theorem nonneg_ones_append (h : ∀ d ∈ dims, 0 ≤ d) : ∀ d ∈ List.replicate k 1 ++ dims, 0 ≤ d := by
  intro d hd
  rcases List.mem_append.mp hd with hd | hd
  · rw [List.eq_of_mem_replicate hd]
    decide
  · exact h d hd

theorem legalAlong_of_broadcastShape? {l r : List Int} {target : Shape} (hl : ∀ d ∈ l, 0 ≤ d)
    (hr : ∀ d ∈ r, 0 ≤ d) (h : broadcastShape? (l.map .const) (r.map .const) = some target) :
    ∃ (dims : List Int) (k : Nat), target = dims.map .const ∧ (∀ d ∈ dims, 0 ≤ d) ∧
      Move.LegalAlong (dims.map .expand) (List.replicate k 1 ++ l) := by
  rw [broadcastShape?, alignShape_const, alignShape_const] at h
  obtain ⟨dims, htarget, hdims, hlegal⟩ :=
    legalAlong_of_mapM (by simp) (nonneg_ones_append hl) (nonneg_ones_append hr) h
  exact ⟨dims, _, htarget, hdims, hlegal⟩

end Dims

/-! ### Tensors -/

namespace Session

variable [Width] {s : Session} {t : Tensor} {lim : Limits} {dims coords : List Int}

/-- A tensor of known sizes that reads elements of its base everywhere, unless it is empty. -/
structure Unmasked (s : Session) (lim : Limits) (t : Tensor) (dims : List Int) : Prop where
  lt : t < s.nodes.size
  shape_eq : s.shape t = dims.map .const
  nonneg : ∀ d ∈ dims, 0 ≤ d
  total : (∀ d ∈ dims, 0 < d) → (s.layout t).Total (product (s.dims (s.base t))) lim dims

theorem Sound.unmasked (hs : s.Sound lim) (hexact : lim.Exact) (ht : t < s.nodes.size) :
    s.Unmasked lim t (s.dims t) :=
  ⟨ht, (hs t ht).shape_eq, (hs t ht).admits.dims_nonneg, fun _ => hs.layout_total hexact ht⟩

theorem Unmasked.get_eq (h : s.Unmasked lim t dims) (hs : s.Coherent) (hexact : lim.Exact)
    (hin : InShape dims coords) : (s.elements t).get coords
      = (s.layout t).read (s.dtype t) (s.elements (s.base t)).flat coords := by
  have helements := Session.elements_eq h.lt (hs.sources_lt t h.lt)
  have hdims : (s.elements t).dims = dims := by
    rw [helements]
    exact (congrArg dimsOf h.shape_eq).trans (dimsOf_const dims)
  rw [layout, base]
  cases hop : s.op t with
  | view base l =>
    rw [helements]
    simp only [TensorNode.elements, show (s.node t).op = .view base l from hop]
    rfl
  | _ =>
    rw [h.shape_eq, Layout.read, Layout.index_ofShape hexact (h.total hin.dims_pos).admits hin]
    show _ = (s.elements t).flat (ravel dims coords)
    rw [Elements.flat, hdims, unravel_ravel hin]

end Session

namespace Tensor

open Session

variable [Width] {s : Session} {t : Tensor} {lim : Limits} {dims new : List Int}

/-- An action succeeds with a tensor that has the elements of `t` at other coordinates. -/
def Gives (s : Session) (lim : Limits) (t : Tensor) (act : TensorM Tensor) (dims : List Int)
    (source : List Int → List Int) : Prop :=
  ∃ t' s', act.run.run s = (.ok t', s') ∧ s'.Coherent ∧ s'.Unmasked lim t' dims ∧
    ∀ coords, InShape dims coords → (s'.elements t').get coords = (s.elements t).get (source coords)

theorem Gives.shape_bind {f : Shape → TensorM Tensor} {source : List Int → List Int}
    (h : Gives s lim t (f (s.shape t)) dims source) : Gives s lim t (t.shape >>= f) dims source := h

variable (hs : s.Coherent) (hexact : lim.Exact) (h : s.Unmasked lim t dims)
include hs hexact h

theorem gives_move {m : Movement} {l : Layout} {source : List Int → List Int}
    (happly : (s.layout t).apply m = .ok l) (hshape : l.shape = new.map .const)
    (hnonneg : ∀ d ∈ new, 0 ≤ d)
    (hl : (∀ d ∈ new, 0 < d) → l.Total (product (s.dims (s.base t))) lim new ∧
      ∀ coords, InShape new coords →
        InShape dims (source coords) ∧ l.index coords = (s.layout t).index (source coords)) :
    Gives s lim t (t.move m) new source := by
  have hbase := hs.base_lt h.lt
  have hrun : ∃ t' s', (t.move m).run.run s = (.ok t', s') ∧ s'.base t' = s.base t ∧
      ((∀ d ∈ new, 0 < d) → (s'.layout t').Total (product (s.dims (s.base t))) lim new ∧
        ∀ coords, InShape new coords → (s'.layout t').index coords = l.index coords) := by
    rw [move, TensorM.run_get_bind, happly]
    dsimp only
    split
    next hwhole =>
      have hself : s.base (s.base t) = s.base t ∧ s.layout (s.base t) = .ofShape (new.map .const) := by
        have hview := hs.isView_base h.lt
        rw [isView] at hview
        rw [← hshape, hwhole.2, Session.base, layout]
        cases hop : s.op (s.base t) with
        | view base l => simp [hop, TensorOp.isView] at hview
        | _ => exact ⟨rfl, rfl⟩
      refine ⟨s.base t, s, rfl, hself.1, fun hpos => ?_⟩
      have htotal := (hl hpos).1
      have hdims : s.dims (s.base t) = new :=
        (congrArg dimsOf (hwhole.2.symm.trans hshape)).trans (dimsOf_const new)
      rw [hself.2, hdims]
      refine ⟨Layout.total_ofShape hexact htotal.admits, fun coords hin => ?_⟩
      rw [Layout.index_ofShape hexact htotal.admits hin,
        htotal.index_of_contiguous hexact hwhole.1 hin]
    next =>
      have hself : ∀ n : TensorNode, n.op = .view (s.base t) l →
          (⟨s.nodes.push n, s.memory⟩ : Session).base s.nodes.size = s.base t ∧
          (⟨s.nodes.push n, s.memory⟩ : Session).layout s.nodes.size = l := by
        intro n hn
        rw [Session.base, layout, op, node_push_self, hn]
        exact ⟨rfl, rfl⟩
      refine ⟨s.nodes.size, _, rfl, (hself _ rfl).1, fun hpos => ?_⟩
      rw [(hself _ rfl).2]
      exact ⟨(hl hpos).1, fun _ _ => rfl⟩
  obtain ⟨t', s', hrun, hbase', hlayout⟩ := hrun
  have hmakes : TensorM.Makes (fun _ => True) s (t.move m) _ := makes_move hs h.lt trivial
  obtain ⟨hsteps, hhas⟩ := hmakes _ _ hrun
  obtain ⟨l', hl', hhas⟩ := hhas t' rfl
  cases happly.symm.trans hl'
  have hs' := hs.steps hsteps
  have helements : s'.elements (s.base t) = s.elements (s.base t) :=
    hsteps.grows.elements_eq hs.sources_lt (fun t ht id hid =>
      ⟨_, Array.getElem?_eq_getElem (hs.storage_lt t ht id hid)⟩) hbase
  have hnew : s'.Unmasked lim t' new := by
    refine ⟨hhas.lt, hhas.shape_eq.trans hshape, hnonneg, fun hpos => ?_⟩
    rw [hbase', hsteps.grows.dims_eq hbase]
    exact (hlayout hpos).1
  refine ⟨t', s', hrun, hs', hnew, fun coords hin => ?_⟩
  obtain ⟨hin', hindex⟩ := (hl hin.dims_pos).2 coords hin
  rw [hnew.get_eq hs' hexact hin, h.get_eq hs hexact hin', Layout.read, Layout.read,
    (hlayout hin.dims_pos).2 coords hin, hindex, hbase', helements, hhas.dtype_eq]

theorem gives_reshapeTo (hnew : ∀ d ∈ new, 0 ≤ d) (hproduct : product new = product dims)
    (hsize : product dims ≤ lim.volume) (hsum : new.sum ≤ lim.extent) :
    Gives s lim t (t.reshapeTo (new.map .const)) new fun coords => unravel dims (ravel new coords) := by
  refine Gives.shape_bind ?_
  split
  next hsame =>
    obtain rfl := map_const_injective (hsame.trans h.shape_eq)
    exact ⟨t, s, rfl, hs, h, fun coords hin => congrArg _ (unravel_ravel hin).symm⟩
  next =>
    obtain ⟨r, hr⟩ := View.exists_reshape_const (v := (s.layout t).top) hexact.exactTo
      ((hs.shape_layout h.lt).trans h.shape_eq) h.nonneg (hsize.trans hexact.volume_le) hnew
      (fun d hd => by
        linarith [List.single_le_sum hnew d hd, hexact.hasRoom.extent_le, hexact.extent_nonneg]) hproduct
    obtain ⟨l, hl⟩ : ∃ l, (s.layout t).reshape (new.map .const) = .ok l := by
      rw [Layout.reshape, hr]
      cases r <;> exact ⟨_, rfl⟩
    refine gives_move hs hexact h (m := .reshape _) hl (Layout.shape_reshape hl) hnew fun hpos => ?_
    have hdims := dims_pos_of_lt_product h.nonneg le_rfl (hproduct ▸ product_pos hpos)
    obtain ⟨-, htotal, hindex⟩ :=
      (h.total hdims).reshape hexact ⟨hpos, hproduct.trans_le hsize, hsum⟩ hl
    exact ⟨htotal, fun coords hin => ⟨inShape_unravel hdims _, hindex coords hin⟩⟩

theorem gives_expandTo (hlegal : Move.LegalAlong (new.map .expand) dims) (hnew : ∀ d ∈ new, 0 ≤ d)
    (hsize : product new ≤ lim.volume) (hsum : new.sum ≤ lim.extent) :
    Gives s lim t (t.expandTo (new.map .const)) new (stretched dims) := by
  refine Gives.shape_bind ?_
  split
  next hsame =>
    obtain rfl := map_const_injective (hsame.trans h.shape_eq)
    exact ⟨t, s, rfl, hs, h, fun coords hin => by rw [stretched_self hin]⟩
  next =>
    have hlength : new.length = dims.length := (List.length_map _).symm.trans hlegal.length_eq
    obtain ⟨v, hv⟩ : ∃ v, (s.layout t).top.expand (new.map .const) = .ok v := by
      have hshape : (s.layout t).top.shape = dims.map .const :=
        (hs.shape_layout h.lt).trans h.shape_eq
      rw [View.expand, View.rank, hshape, if_neg (by simpa using hlength)]
      split
      · exact ⟨_, rfl⟩
      · rw [(View.checkExpand_eq_ok_iff hnew hlength 0).mpr hlegal]
        exact ⟨_, rfl⟩
    have hl : (s.layout t).apply (Move.expand new).toMovement = .ok { s.layout t with top := v } :=
      congrArg (Except.map _) hv
    refine gives_move hs hexact h hl (Layout.shape_expand hl) hnew fun hpos => ?_
    have htarget : (Move.expand new).target dims = new := Move.target_expand hlength
    have hdims := (Move.source_expand hlegal (inShape_unravel hpos 0)).2.dims_pos
    have hdense : (Move.expand new).Dense dims := hlegal
    obtain ⟨htotal, hindex⟩ := (h.total hdims).apply hexact hdense (by rwa [htarget]) hl
      fun _ => by
        rw [htarget]
        exact ⟨hpos, hsize, hsum⟩
    rw [htarget] at htotal hindex
    refine ⟨htotal, fun coords hin => ?_⟩
    obtain ⟨hsource, hin'⟩ := Move.source_expand hlegal hin
    exact ⟨hin', hindex coords _ hin hsource⟩

theorem gives_broadcastTo {k : Nat}
    (hlegal : Move.LegalAlong (new.map .expand) (List.replicate k 1 ++ dims)) (hnew : ∀ d ∈ new, 0 ≤ d)
    (hsize : product dims ≤ lim.volume) (hsum : dims.sum + new.length ≤ lim.extent)
    (hsize' : product new ≤ lim.volume) (hsum' : new.sum ≤ lim.extent) :
    Gives s lim t (t.broadcastTo (new.map .const)) new fun coords =>
      stretched dims (coords.drop (new.length - dims.length)) := by
  have hlength : new.length = k + dims.length := by simpa using hlegal.length_eq
  rw [hlength, Nat.add_sub_cancel]
  refine Gives.shape_bind ?_
  rw [h.shape_eq]
  split
  next hsame =>
    obtain rfl := map_const_injective hsame
    obtain rfl : k = 0 := by omega
    exact ⟨t, s, rfl, hs, h, fun coords hin => congrArg _ (stretched_self hin).symm⟩
  next =>
    dsimp only
    rw [List.length_map, List.length_map, alignShape_const, hlength, Nat.add_sub_cancel, if_pos]
    · have hones : (List.replicate k (1 : Int) ++ dims).sum ≤ lim.extent := by
        simp
        omega
      obtain ⟨t₁, s₁, hrun₁, hs₁, h₁, hget₁⟩ := gives_reshapeTo hs hexact h
        (nonneg_ones_append h.nonneg) (product_ones_append k dims) hsize hones
      obtain ⟨t₂, s₂, hrun₂, hs₂, h₂, hget₂⟩ := gives_expandTo hs₁ hexact h₁ hlegal hnew hsize' hsum'
      refine ⟨t₂, s₂, ?_, hs₂, h₂, fun coords hin => ?_⟩
      · rw [TensorM.run_bind, hrun₁]
        exact hrun₂
      · have hin₁ := (Move.source_expand hlegal hin).2
        rw [hget₂ coords hin, hget₁ _ hin₁]
        refine congrArg _ ((unravel_ones_append hin₁).trans ?_)
        rw [stretched, List.drop_zipWith, List.drop_left' List.length_replicate]
        rfl
    · refine ⟨Nat.le_add_left .., List.all_eq_true.mpr fun p hp => ?_⟩
      exact decide_eq_true (fits_of_legal hlegal p hp)

omit hs hexact h in
/-- Stretching shapes to a common one is commutative and associative, also where it fails, and the
empty shape is its identity. Tensors of shapes with a common one can be broadcast to it, and have
there at each coordinate their element at its last coordinates, with 0 along dimensions of size 1. -/
theorem broadcast_lawful :
    (∀ l r : Shape, broadcastShape? l r = broadcastShape? r l) ∧
    (∀ l m r : Shape, (broadcastShape? l m).bind (broadcastShape? · r)
      = (broadcastShape? m r).bind (broadcastShape? l)) ∧
    (∀ l : Shape, broadcastShape? l [] = some l ∧ broadcastShape? [] l = some l) ∧
    ∀ {lim : Limits} {s : Session} {x y : Tensor} {l r : List Int} {target : Shape}, lim.Exact →
      s.Coherent → s.Unmasked lim x l → s.Unmasked lim y r →
      broadcastShape? (l.map .const) (r.map .const) = some target →
      ∃ dims : List Int, target = dims.map .const ∧
        ((∀ d ∈ [l, r, dims], product d ≤ lim.volume ∧ d.sum + dims.length ≤ lim.extent) →
          ∀ p ∈ [(x, l), (y, r)], Gives s lim p.1 (p.1.broadcastTo target) dims fun coords =>
            stretched p.2 (coords.drop (dims.length - p.2.length))) := by
  refine ⟨broadcastShape?_comm, fun l m r => ?_, fun l => ⟨broadcastShape?_nil l, ?_⟩, ?_⟩
  · rw [bind_broadcastShape?]
    exact Option.bind_congr fun t _ => broadcastShape?_comm t l
  · rw [broadcastShape?_comm, broadcastShape?_nil]
  intro lim s x y l r target hexact hs hx hy htarget
  obtain ⟨dims, k, rfl, hdims, hlegal⟩ := legalAlong_of_broadcastShape? hx.nonneg hy.nonneg htarget
  rw [broadcastShape?_comm] at htarget
  obtain ⟨dims', k', heq, -, hlegal'⟩ := legalAlong_of_broadcastShape? hy.nonneg hx.nonneg htarget
  obtain rfl := map_const_injective heq
  refine ⟨dims, rfl, fun hlimits => ?_⟩
  rw [List.forall_mem_cons, List.forall_mem_cons, List.forall_mem_singleton] at hlimits
  rw [List.forall_mem_cons, List.forall_mem_singleton]
  obtain ⟨hl, hr, hto⟩ := hlimits
  exact ⟨gives_broadcastTo hs hexact hx hlegal hdims hl.1 hl.2 hto.1 (by omega),
    gives_broadcastTo hs hexact hy hlegal' hdims hr.1 hr.2 hto.1 (by omega)⟩

end Tensor

/-- Six numbers in a row and the sums of two rows fill twelve places. -/
theorem Tensor.broadcast_lawful_centeredRows :
    @Limits.Exact .word64 ⟨12, 10⟩ ∧ centeredRows.Coherent ∧
    @Session.Unmasked .word64 centeredRows ⟨12, 10⟩ 0 [6] ∧
    @Session.Unmasked .word64 centeredRows ⟨12, 10⟩ 4 [2, 1] ∧
    broadcastShape? [6] [2, 1] = some [2, 6] ∧
    ∃ t s', (@Tensor.broadcastTo .word64 0 [2, 6]).run.run centeredRows = (.ok t, s') ∧
      (@Session.elements .word64 s' t).get [1, 4] = some (.int 5) := by
  let := Width.word64
  have hexact : Limits.Exact ⟨12, 10⟩ := ⟨by decide, by decide, Width.exactTo_word64 (by decide)⟩
  have hbuilt := built_centeredRows ⟨12, 10⟩
  have hs := hbuilt.coherent Session.natural_plain
  have hsound := hbuilt.sound hexact (Session.Concrete.plain (by decide +kernel)
    (by decide +kernel) (by decide +kernel) (by decide +kernel))
  have hrow : centeredRows.Unmasked ⟨12, 10⟩ 0 [6] := hsound.unmasked hexact (by decide +kernel)
  have hsums : centeredRows.Unmasked ⟨12, 10⟩ 4 [2, 1] := hsound.unmasked hexact (by decide +kernel)
  obtain ⟨dims, hdims, hto⟩ := Tensor.broadcast_lawful.2.2.2 hexact hs hrow hsums rfl
  obtain rfl : [2, 6] = dims := map_const_injective hdims
  obtain ⟨t, s', hrun, -, -, hget⟩ := hto (by decide) (0, [6]) List.mem_cons_self
  exact ⟨hexact, hs, hrow, hsums, rfl, t, s', hrun, (hget [1, 4] (by decide)).trans (by decide +kernel)⟩

end LazyTensor

import LazyTensor.Proofs.Movement.Operations

/-!
# Movements of layouts

A layout that only moves the elements of a dense array reads, at every coordinate, the entry of the
array that the same movements make of the offsets into its buffer.
-/

namespace LazyTensor

open Merge

section Stack

variable [Width]

/-- A stack of views over a buffer of `n` elements that takes positions below `size` and reads the
element `read position`. Only a view without empty dimensions stays under another one. -/
inductive Stacked (n volume extent : Int) : List View → (size : Int) → (Int → Option Int) → Prop
  | buffer : n ≤ volume → Stacked n volume extent [] n some
  | view {v : View} {a : Affine} {rest : List View} {size : Int} {read : Int → Option Int} :
      v.Placed a size extent → (∀ d ∈ a.shape, 0 < d) → product a.shape ≤ volume →
      Stacked n volume extent rest size read →
      Stacked n volume extent (v :: rest) (product a.shape)
        fun position => (a.index (unravel a.shape position)).bind read

variable {bound n volume extent size : Int} {views : List View} {read : Int → Option Int}

theorem boundShape?_const (shape : List Int) : boundShape? (shape.map .const) = some shape := by
  induction shape with
  | nil => rfl
  | cons d shape ih =>
    unfold boundShape? at ih ⊢
    rw [List.map_cons, List.mapM_cons, ih]
    rfl

theorem View.Located.indexBelow_cons {v : View} {a : Affine} (h : v.Located a n extent)
    (hexact : Width.ExactTo bound) (hn : n ≤ bound) (hsize : product a.shape ≤ bound)
    (hpos : ∀ d ∈ a.shape, 0 < d) {position : Int} (hlow : 0 ≤ position)
    (hhigh : position < product a.shape) :
    Layout.indexBelow (v :: views) position
      = (a.index (unravel a.shape position)).bind (Layout.indexBelow views) := by
  have hwrap : Width.wrap (product a.shape) = product a.shape :=
    (hexact _ (by have := product_pos hpos; omega) hsize).1
  rw [Layout.indexBelow, h.isAffine.shape_eq, boundShape?_const, Option.bind_eq_bind,
    Option.bind_some, hwrap, if_neg (by omega), h.index_eq hexact hn (inShape_unravel hpos position)]
  rfl

namespace Stacked

variable (h : Stacked n volume extent views size read)

include h

theorem size_le : size ≤ volume := by
  cases h with
  | buffer hle | view _ _ hle _ => exact hle

theorem size_nonneg (hn : 0 ≤ n) : 0 ≤ size := by
  cases h with
  | buffer _ => exact hn
  | view _ hpos _ _ => exact (product_pos hpos).le

theorem indexBelow_eq (hexact : Width.ExactTo bound) (hvolume : volume ≤ bound) {position : Int}
    (hlow : 0 ≤ position) (hhigh : position < size) :
    Layout.indexBelow views position = read position := by
  induction h generalizing position with
  | buffer _ => rfl
  | view hplaced hpos hle hrest ih =>
    rw [hplaced.indexBelow_cons hexact (hrest.size_le.trans hvolume) (hle.trans hvolume) hpos hlow
      hhigh]
    refine Option.bind_congr fun q hq => ?_
    obtain ⟨hlow', hhigh'⟩ := hplaced.mem_of_index hq
    exact ih hlow' hhigh'

end Stacked

/-- A layout over a buffer of `n` elements that reads, at the coordinates of `shape`, the elements
that `entry` gives. -/
def Layout.Reads (l : Layout) (n volume extent : Int) (shape : List Int)
    (entry : List Int → Option Int) : Prop :=
  ∃ a size read, l.top.Placed a size extent ∧ Stacked n volume extent l.below size read ∧
    a.shape = shape ∧ ∀ coords, InShape shape coords → (a.index coords).bind read = entry coords

end Stack

namespace Layout

variable [Width] {bound n volume extent : Int} {l : Layout} {shape : List Int}
  {entry : List Int → Option Int}

theorem Reads.shape_eq (h : l.Reads n volume extent shape entry) :
    l.shape = shape.map .const := by
  obtain ⟨a, size, read, hplaced, -, rfl, -⟩ := h
  exact hplaced.isAffine.shape_eq

theorem Reads.dims_nonneg (h : l.Reads n volume extent shape entry) : ∀ d ∈ shape, 0 ≤ d := by
  obtain ⟨a, size, read, hplaced, -, rfl, -⟩ := h
  exact hplaced.isAffine.wellFormed.dims_nonneg

theorem Reads.index_eq (h : l.Reads n volume extent shape entry) (hexact : Width.ExactTo bound)
    (hvolume : volume ≤ bound) {coords : List Int} (hin : InShape shape coords) :
    l.index coords = entry coords := by
  obtain ⟨a, size, read, hplaced, hstack, rfl, hentry⟩ := h
  rw [← hentry coords hin, Layout.index,
    hplaced.index_eq hexact (hstack.size_le.trans hvolume) hin]
  refine Option.bind_congr fun p hp => ?_
  obtain ⟨hlow, hhigh⟩ := hplaced.mem_of_index hp
  exact hstack.indexBelow_eq hexact hvolume hlow hhigh

theorem settle_reads (hexact : Width.ExactTo bound) (hroom : HasRoom bound volume extent)
    (hn : 0 ≤ n) {views : List View} {size : Int} {read : Int → Option Int}
    (hstack : Stacked n volume extent views size read) {top : View} {a : Affine}
    (htop : top.Placed a size extent) :
    (settle top views).Reads n volume extent a.shape fun coords => (a.index coords).bind read := by
  induction hstack generalizing top a with
  | buffer hle => exact ⟨a, n, some, htop, .buffer hle, rfl, fun _ _ => rfl⟩
  | @view v b rest size read hplaced hpos hle hrest ih =>
    rw [settle]
    cases hmerge : v.merge? top with
    | none => exact ⟨a, _, _, htop, .view hplaced hpos hle hrest, rfl, fun _ _ => rfl⟩
    | some merged =>
      have hroom' := hroom.mono (hrest.size_nonneg hn) hrest.size_le
      obtain ⟨c, hc, hshape, hthrough⟩ := (hplaced.toLocated.merge? htop.toLocated hexact hroom'
        (hle.trans hroom.n_le) hmerge).resolve_right fun h => htop.rank_pos h.1
      obtain ⟨a', size', read', hplaced', hstack', hshape', hentry⟩ :=
        ih ⟨hc, hshape ▸ htop.rank_pos⟩
      refine ⟨a', size', read', hplaced', hstack', hshape'.trans hshape, fun coords hin => ?_⟩
      refine (hentry coords (hshape ▸ hin)).trans ?_
      simp only [hthrough coords hin, Affine.through, Option.bind_assoc]

end Layout

/-! ### Sources of coordinates -/

theorem AxisMove.source_mem {move : AxisMove} {d c x : Int} (hlegal : move.Legal d) (hc : 0 ≤ c)
    (hcd : c < move.size d) (hx : move.source d c = some x) : 0 ≤ x ∧ x < d := by
  cases move with
  | expand size =>
    have hsize : d = size ∨ d = 1 := hlegal.2
    simp only [AxisMove.size, AxisMove.source, Option.some.injEq] at hcd hx
    split at hx <;> omega
  | pad before after =>
    simp only [AxisMove.source, Option.ite_none_right_eq_some, Option.some.injEq] at hx
    omega
  | shrink start stop =>
    obtain ⟨hstart, hle, hstop⟩ := hlegal
    simp only [AxisMove.size, AxisMove.source, Option.some.injEq] at hcd hx
    omega
  | stride step =>
    have hstep : step ≠ 0 := hlegal
    have hlast : (step.natAbs : Int) * c < d := (AxisMove.lt_ceil_iff (by omega)).mp hcd
    have hfirst : 0 ≤ (step.natAbs : Int) * c := mul_nonneg (by omega) hc
    simp only [AxisMove.source, Option.some.injEq] at hx
    split at hx
    · rw [Int.ofNat_natAbs_of_nonpos (by omega), neg_mul] at hlast hfirst
      omega
    · rw [Int.natAbs_of_nonneg (by omega)] at hlast hfirst
      omega

namespace Move

variable {shape coords xs : List Int} {move : Move}

theorem sourceAlong_inShape {moves : List AxisMove} (hlegal : LegalAlong moves shape)
    (hin : InShape (moves.zipWith AxisMove.size shape) coords)
    (hxs : sourceAlong moves shape coords = some xs) : InShape shape xs := by
  induction moves generalizing shape coords xs with
  | nil =>
    cases shape with
    | nil => simpa [sourceAlong, eq_comm] using hxs
    | cons d shape => exact hlegal.elim
  | cons move moves ih =>
    cases shape with
    | nil => exact hlegal.elim
    | cons d shape =>
      obtain ⟨c, coords, rfl, ⟨hc, hcd⟩, hin⟩ := inShape_cons.mp hin
      simp only [sourceAlong, Option.bind_eq_bind, Option.bind_eq_some_iff, Option.pure_def,
        Option.some.injEq] at hxs
      obtain ⟨x, hx, ys, hys, rfl⟩ := hxs
      exact ⟨AxisMove.source_mem hlegal.1 hc hcd hx, ih hlegal.2 hin hys⟩

theorem source_inShape (hlegal : move.Legal shape) (hdims : ∀ d ∈ shape, 0 ≤ d)
    (hin : InShape (move.target shape) coords) (hxs : move.source shape coords = some xs) :
    InShape shape xs := by
  cases move with
  | reshape new =>
    obtain ⟨-, -, hsize⟩ := hlegal
    have hin : InShape new coords := hin
    obtain ⟨hlow, hhigh⟩ := ravel_nonneg_and_lt hin
    obtain rfl : unravel shape (ravel new coords) = xs := Option.some.inj hxs
    exact inShape_unravel (dims_pos_of_lt_product hdims hlow (hsize ▸ hhigh)) _
  | permute axes =>
    obtain ⟨hlength, hlt, hnodup⟩ := hlegal
    have hin : InShape (axes.map fun i => shape.getD i 0) coords := hin
    obtain rfl : sourceOfPermute axes coords = xs := Option.some.inj hxs
    have hcoords : coords.length = axes.length := by simpa using hin.length_eq
    have hreads := (permuted_reads (hlength ▸ hlt) hnodup hcoords hlength.symm
      (show (fullRanges shape).length = axes.length by simp [fullRanges, hlength])).1
    refine hreads.mp ?_
    have hget : ∀ i, (fullRanges shape).getD i (0, 0) = (0, shape.getD i 0) := fun i => by
      rw [fullRanges, List.getD_map]
    simp only [hget]
    simpa only [InShape, fullRanges, List.map_map, Function.comp_def] using hin
  | expand new | pad padding | shrink ranges | stride steps | flip axes =>
    exact sourceAlong_inShape hlegal hin hxs

theorem target_ne_nil (hlegal : move.Legal shape) (hrank : shape ≠ []) :
    move.target shape ≠ [] := by
  have halong : ∀ {moves : List AxisMove}, LegalAlong moves shape →
      moves.zipWith AxisMove.size shape ≠ [] := by
    intro moves h hnil
    rcases List.zipWith_eq_nil_iff.mp hnil with hnil | hnil
    · exact hrank (List.length_eq_zero_iff.mp (h.length_eq.symm.trans (by rw [hnil]; rfl)))
    · exact hrank hnil
  cases move with
  | reshape new => exact List.ne_nil_of_length_pos hlegal.1
  | permute axes =>
    intro hnil
    have hlength : axes.length = shape.length := hlegal.1
    rw [target, List.map_eq_nil_iff] at hnil
    exact hrank (List.length_eq_zero_iff.mp (by rw [← hlength, hnil]; rfl))
  | expand new | pad padding | shrink ranges | stride steps | flip axes => exact halong hlegal

end Move

/-! ### One movement -/

theorem Move.eq_reshape_or (move : Move) :
    (∃ new, move = .reshape new) ∨ ∀ new, move.toMovement ≠ .reshape new := by
  cases move with
  | reshape new => exact .inl ⟨new, rfl⟩
  | permute _ | expand _ | pad _ | shrink _ | stride _ | flip _ =>
    exact .inr fun _ h => Movement.noConfusion h

theorem Move.alongAxes_flip (axes : List Bool) :
    (Move.flip axes).alongAxes
      = (axes.map fun f => if f then (-1 : Int) else 1).map AxisMove.stride := by
  rw [List.map_map]
  rfl

section TopView

variable [Width] {m : Movement} (hne : ∀ new, m ≠ .reshape new)

include hne

theorem Movement.exists_onTop :
    ∃ f : View → Except BuildError View,
      (∀ l : Layout, l.apply m = l.move f) ∧ ∀ v : View, v.apply m = some <$> f v := by
  cases m with
  | reshape new => exact absurd rfl (hne new)
  | permute _ | expand _ | pad _ | shrink _ | stride _ | flip _ =>
    exact ⟨_, fun _ => rfl, fun _ => rfl⟩

theorem Layout.apply_eq_ok_iff {l l' : Layout} :
    l.apply m = .ok l' ↔ ∃ v, l.top.apply m = .ok (some v) ∧ l' = { l with top := v } := by
  obtain ⟨f, hlayout, hview⟩ := Movement.exists_onTop hne
  rw [hlayout, hview, Layout.move]
  cases f l.top with
  | error e =>
    refine ⟨nofun, ?_⟩
    rintro ⟨w, hw, -⟩
    cases hw
  | ok v =>
    refine ⟨fun h => ⟨v, rfl, (Except.ok.inj h).symm⟩, ?_⟩
    rintro ⟨w, hw, rfl⟩
    cases hw
    rfl

end TopView

theorem View.Located.apply [Width] {bound n extent : Int} {v : View} {a : Affine} {move : Move}
    (h : v.Located a n extent) (hexact : Width.ExactTo bound) (hroom : HasRoom bound n extent)
    (hne : ∀ new, move.toMovement ≠ .reshape new) (hlegal : move.Legal a.shape)
    (hsum : (move.target a.shape).sum ≤ extent) :
    ∃ w, v.apply move.toMovement = .ok (some w) ∧
      w.ReadsFrom a (move.target a.shape) fun coords => move.source a.shape coords := by
  have hview : ∀ {r : Except BuildError View} {shape : List Int} {source},
      (∃ w, r = .ok w ∧ w.ReadsFrom a shape source) →
      ∃ w, some <$> r = .ok (some w) ∧ w.ReadsFrom a shape source := by
    rintro r shape source ⟨w, rfl, hreads⟩
    exact ⟨w, rfl, hreads⟩
  cases move with
  | reshape new => exact absurd rfl (hne _)
  | permute axes => exact hview (h.permute hexact hroom hlegal)
  | expand new => exact hview (h.expand hexact hroom hlegal hsum)
  | pad padding => exact hview (h.pad hexact hroom hlegal hsum)
  | shrink ranges => exact hview (h.shrink hexact hroom hlegal hsum)
  | stride steps => exact hview (h.stride hexact hroom hlegal hsum)
  | flip axes =>
    simp only [Move.Legal, Move.target, Move.source, Move.alongAxes_flip] at hlegal hsum ⊢
    exact hview (h.stride hexact hroom hlegal hsum)

namespace Layout

variable [Width] {bound n volume extent : Int} {l : Layout} {shape : List Int}
  {entry : List Int → Option Int} {move : Move} {moves : List Move}

theorem Reads.congr {entry' : List Int → Option Int} (h : l.Reads n volume extent shape entry)
    (heq : ∀ coords, InShape shape coords → entry coords = entry' coords) :
    l.Reads n volume extent shape entry' := by
  obtain ⟨a, size, read, hplaced, hstack, hshape, hentry⟩ := h
  exact ⟨a, size, read, hplaced, hstack, hshape,
    fun coords hin => (hentry coords hin).trans (heq coords hin)⟩

theorem exists_placed_of_readsFrom {v v' : View} {a : Affine} {size : Int}
    {read : Int → Option Int} (hplaced : v.Placed a size extent) (hlegal : move.Legal a.shape)
    (hsum : (move.target a.shape).sum ≤ extent)
    (hentry : ∀ coords, InShape a.shape coords → (a.index coords).bind read = entry coords)
    (hreads : v'.ReadsFrom a (move.target a.shape) fun coords => move.source a.shape coords) :
    ∃ a', v'.Placed a' size extent ∧ a'.shape = move.target a.shape ∧
      ∀ coords, InShape (move.target a.shape) coords →
        (a'.index coords).bind read = (move.source a.shape coords).bind entry := by
  obtain ⟨a', hlocated, hshape, hindex⟩ := hreads.located hplaced.toLocated hsum
  have hrank := Move.target_ne_nil hlegal hplaced.rank_pos
  refine ⟨a', ⟨hlocated, hshape ▸ hrank⟩, hshape, fun coords hin => ?_⟩
  rw [hindex coords hin, Option.bind_assoc]
  refine Option.bind_congr fun xs hxs => hentry xs ?_
  exact Move.source_inShape hlegal hplaced.isAffine.wellFormed.dims_nonneg hin hxs

section

variable (hexact : Width.ExactTo bound) (hroom : HasRoom bound volume extent) (hn : 0 ≤ n)

include hexact hroom hn

theorem Reads.reshape (h : l.Reads n volume extent shape entry) (hsize : product shape ≤ volume)
    {new : List Int} (hlegal : (Move.reshape new).Legal shape) (hsum : new.sum ≤ extent) :
    ∃ l', l.reshape (new.map .const) = .ok l' ∧ l'.Reads n volume extent new fun coords =>
      entry (unravel shape (ravel new coords)) := by
  obtain ⟨a, size, read, hplaced, hstack, rfl, hentry⟩ := h
  have hroom' := hroom.mono (hstack.size_nonneg hn) hstack.size_le
  rcases hplaced.reshape hexact (hsize.trans hroom.n_le) hroom' hlegal hsum with
    ⟨v, hv, hreads⟩ | ⟨hnone, hpos⟩
  · obtain ⟨a', hplaced', hshape, hentry'⟩ :=
      exists_placed_of_readsFrom hplaced hlegal hsum hentry hreads
    refine ⟨settle v l.below, by rw [Layout.reshape, hv]; rfl, ?_⟩
    have hsettled := settle_reads hexact hroom hn hstack hplaced'
    rw [hshape] at hsettled
    exact hsettled.congr hentry'
  · obtain ⟨hrank, hdims, hsize'⟩ := hlegal
    obtain ⟨b, hb, rfl, hindex⟩ := View.exists_located_ofShape hexact hdims hsum
      (hsize' ▸ hsize.trans hroom.n_le)
    have hplaced' : View.Placed _ b (product a.shape) extent :=
      ⟨hsize' ▸ hb, List.ne_nil_of_length_pos hrank⟩
    have hpushed : Stacked n volume extent (l.top :: l.below) (product a.shape) _ :=
      .view hplaced hpos hsize hstack
    refine ⟨l.push (.ofShape (b.shape.map .const)), by rw [Layout.reshape, hnone]; rfl, ?_⟩
    refine (settle_reads hexact hroom hn hpushed hplaced').congr fun coords hin => ?_
    simp only [hindex coords hin, Option.bind_some]
    exact hentry _ (inShape_unravel hpos _)

theorem Reads.apply (h : l.Reads n volume extent shape entry) (hsize : product shape ≤ volume)
    (hlegal : move.Legal shape) (hsum : (move.target shape).sum ≤ extent) :
    ∃ l', l.apply move.toMovement = .ok l' ∧ l'.Reads n volume extent (move.target shape)
      fun coords => (move.source shape coords).bind entry := by
  rcases move.eq_reshape_or with ⟨new, rfl⟩ | hne
  · exact h.reshape hexact hroom hn hsize hlegal hsum
  · obtain ⟨a, size, read, hplaced, hstack, rfl, hentry⟩ := h
    have hroom' := hroom.mono (hstack.size_nonneg hn) hstack.size_le
    obtain ⟨v, hv, hreads⟩ := hplaced.apply hexact hroom' hne hlegal hsum
    obtain ⟨a', hplaced', hshape, hentry'⟩ :=
      exists_placed_of_readsFrom hplaced hlegal hsum hentry hreads
    exact ⟨{ l with top := v }, (apply_eq_ok_iff hne).mpr ⟨v, hv, rfl⟩, a', size, read, hplaced',
      hstack, hshape, hentry'⟩

/-! ### Sequences of movements -/

theorem Reads.foldlM_apply {r : Reference} (h : l.Reads n volume extent r.shape r.entry)
    (hlegal : Move.LegalRun r.shape moves)
    (hvolume : ∀ s ∈ Move.shapesAlong r.shape moves, product s ≤ volume)
    (hextent : ∀ s ∈ Move.shapesAlong r.shape moves, s.sum ≤ extent) :
    ∃ l', moves.foldlM (fun l move => l.apply move.toMovement) l = .ok l' ∧
      l'.Reads n volume extent (moves.foldl Reference.apply r).shape
        (moves.foldl Reference.apply r).entry := by
  induction moves generalizing l r with
  | nil => exact ⟨l, rfl, h⟩
  | cons move moves ih =>
    rw [Move.shapesAlong, List.forall_mem_cons] at hvolume hextent
    obtain ⟨l', hl', hreads⟩ := h.apply hexact hroom hn hvolume.1 hlegal.1
      (hextent.2 _ (Move.head_mem_shapesAlong _ _))
    have hstep : l'.Reads n volume extent (r.apply move).shape (r.apply move).entry := by
      rw [Reference.shape_apply]
      exact hreads.congr fun coords hin => (r.entry_apply h.dims_nonneg hlegal.1 hin).symm
    rw [List.foldlM_cons, hl']
    rw [← Reference.shape_apply] at hvolume hextent
    exact ih hstep (by rw [Reference.shape_apply]; exact hlegal.2) hvolume.2 hextent.2

end

end Layout

end LazyTensor

import LazyTensor.Proofs.Except
import LazyTensor.Proofs.Movement.Layout

/-!
# Layouts stay inside their buffer

Whatever movements succeed, one after the other, on a row-major layout, the layout reads elements of
its buffer only. Two things have to be asked for. A repetition has to keep empty arrays empty, since
it gives any shape to them; and an empty buffer must not be seen through a shape without dimensions,
where nothing can be masked out.
-/

namespace LazyTensor

open Merge

/-! ### Views -/

section Views

variable [Width] {bound n extent : Int} {v : View} {a b : Affine}

theorem View.exists_located_ofShape_empty (hexact : Width.ExactTo bound) (hbound : 0 ≤ bound)
    {shape : List Int} (hdims : ∀ d ∈ shape, 0 ≤ d) (hzero : 0 ∈ shape) (hsum : shape.sum ≤ extent) :
    ∃ a, (View.ofShape (shape.map .const)).Located a n extent ∧ a.shape = shape := by
  have hsize : product shape ≤ bound := (product_eq_zero_iff.mpr hzero).trans_le hbound
  obtain ⟨a, ha, rfl, -⟩ := View.exists_isAffine_ofShape hexact hdims hsize
  exact ⟨a, ha.located hsum fun coords hin => absurd (hin.dims_pos 0 hzero) (lt_irrefl 0), rfl⟩

/-- Without dimensions the view that should read nothing reads the first element. -/
theorem View.exists_located_invalid_nil (hn : 0 < n) (hextent : 0 ≤ extent) :
    ∃ c, (View.invalid []).Located c n extent ∧ c.shape = [] := by
  have hinvalid : (View.invalid []).IsAffine _ := @View.isAffine_invalid _ [] (by simp)
  refine ⟨_, hinvalid.located hextent fun coords hin p hp => ?_, rfl⟩
  cases coords with
  | nil =>
    obtain rfl : 0 = p := Option.some.inj hp
    exact ⟨le_rfl, hn⟩
  | cons c coords => exact hin.elim

variable (h : v.Located a n extent) (hexact : Width.ExactTo bound) (hroom : HasRoom bound n extent)
  (hsize : product a.shape ≤ bound)

include h hexact hroom hsize

theorem View.Located.exists_located_of_merge? {w u : View}
    (houter : w.Located b (product a.shape) extent) (hrank : b.shape = [] → 0 < n)
    (hmerge : v.merge? w = some u) : ∃ c, u.Located c n extent ∧ c.shape = b.shape := by
  rcases h.merge? houter hexact hroom hsize hmerge with ⟨c, hc, hshape, -⟩ | ⟨hnil, rfl, -⟩
  · exact ⟨c, hc, hshape⟩
  · obtain ⟨c, hc, hshape⟩ := View.exists_located_invalid_nil (hrank hnil) hroom.extent_nonneg
    exact ⟨c, hc, hshape.trans hnil.symm⟩

theorem View.Located.exists_located_of_reshape {new : List Int} (hnew : ∀ d ∈ new, |d| ≤ extent)
    (hsize' : product new ≤ bound) (hsum : new.sum ≤ extent) (hrank : new = [] → 0 < n)
    {result : Option View} (hok : v.reshape (new.map .const) = .ok result) :
    (∀ d ∈ new, 0 ≤ d) ∧
      ((∃ w b, result = some w ∧ w.Located b n extent ∧ b.shape = new) ∨
        result = none ∧ product new = product a.shape ∧ ∀ d ∈ a.shape, 0 < d) := by
  obtain ⟨hdims, hproduct, hcases⟩ := h.reshape hexact hsize hroom hnew hsize' hsum hok
  refine ⟨hdims, ?_⟩
  rcases hcases with ⟨w, rfl, hreads⟩ | ⟨rfl, rfl, -⟩ | ⟨rfl, hpos⟩
  · obtain ⟨b, hb, hshape, -⟩ := hreads.located h hsum
    exact .inl ⟨w, b, rfl, hb, hshape⟩
  · obtain ⟨b, hb⟩ := View.exists_located_invalid_nil (hrank rfl) hroom.extent_nonneg
    exact .inl ⟨_, b, rfl, hb⟩
  · exact .inr ⟨rfl, hproduct, hpos⟩

end Views

/-! ### Movements of one view that succeed -/

namespace Move

/-- A repetition makes no negative dimension, and nothing out of an empty array. -/
def Fair (shape : List Int) : Move → Prop
  | .expand new => (∀ d ∈ new, 0 ≤ d) ∧ (0 ∈ shape → 0 ∈ new)
  | _ => True

instance (shape : List Int) : (move : Move) → Decidable (move.Fair shape)
  | .expand new => inferInstanceAs (Decidable ((∀ d ∈ new, 0 ≤ d) ∧ (0 ∈ shape → 0 ∈ new)))
  | .reshape _ | .permute _ | .pad _ | .shrink _ | .stride _ | .flip _ => .isTrue trivial

def FairRun : (shape : List Int) → List Move → Prop
  | _, [] => True
  | shape, move :: moves => move.Fair shape ∧ FairRun (move.target shape) moves

instance decidableFairRun : (shape : List Int) → (moves : List Move) →
    Decidable (FairRun shape moves)
  | _, [] => .isTrue trivial
  | shape, move :: moves =>
    have := decidableFairRun (move.target shape) moves
    inferInstanceAs (Decidable (move.Fair shape ∧ FairRun (move.target shape) moves))

/-- The numbers of a movement are no larger than dimensions can be. -/
def Within (extent : Int) : Move → Prop
  | .reshape new => ∀ d ∈ new, |d| ≤ extent
  | .shrink ranges => ∀ r ∈ ranges, |r.1| ≤ extent ∧ |r.2| ≤ extent
  | _ => True

end Move

variable {shape new : List Int} {move : Move} {extent : Int} {w v : View} {a : Affine}

theorem Move.legalAlong_of_forall {moves : List AxisMove} (hlength : moves.length = shape.length)
    (h : ∀ m ∈ moves, ∀ d, m.Legal d) : LegalAlong moves shape := by
  induction moves generalizing shape with
  | nil =>
    rw [List.eq_nil_of_length_eq_zero hlength.symm]
    trivial
  | cons m moves ih =>
    cases shape with
    | nil => cases hlength
    | cons d shape =>
      rw [List.forall_mem_cons] at h
      exact ⟨h.1 d, ih (Nat.succ.inj hlength) h.2⟩

theorem Move.target_expand (hlength : new.length = shape.length) :
    (Move.expand new).target shape = new := by
  show (new.map AxisMove.expand).zipWith AxisMove.size shape = new
  induction new generalizing shape with
  | nil => rfl
  | cons d new ih =>
    cases shape with
    | nil => cases hlength
    | cons o shape => exact congrArg (d :: ·) (ih (Nat.succ.inj hlength))

theorem ok_of_map_some {r : Except BuildError View} (h : some <$> r = .ok (some w)) :
    r = .ok w := by
  obtain ⟨v, rfl, hv⟩ := map_eq_ok h
  rw [Option.some.inj hv]

section Legality

variable [Width] {bound extent : Int} {v w : View} {dims : List Int} {move : Move}
  (hv : v.shape = dims.map .const)

include hv

theorem View.legal_of_permute {axes : List Nat} (hok : v.permute axes = .ok w) :
    (Move.permute axes).Legal dims := by
  rw [View.permute, View.rank, hv, List.length_map] at hok
  split at hok
  next hperm => exact View.isPermutation_iff.mp hperm
  next => cases hok

theorem View.legal_of_pad {padding : List (Nat × Nat)} (hok : v.pad padding = .ok w) :
    (Move.pad padding).Legal dims := by
  rw [View.pad, View.rank, hv, List.length_map] at hok
  split at hok
  next => cases hok
  next hlength =>
    refine Move.legalAlong_of_forall ?_ fun m hm d => ?_
    · rw [Move.alongAxes, List.length_map]
      exact not_not.mp hlength
    · obtain ⟨p, -, rfl⟩ := List.mem_map.mp hm
      trivial

theorem View.legal_of_stride {steps : List Int} (hok : v.stride steps = .ok w) :
    (Move.stride steps).Legal dims := by
  rw [View.stride, View.rank, hv, List.length_map] at hok
  split at hok
  next => cases hok
  next hlength =>
    split at hok
    next => cases hok
    next hnone =>
      refine Move.legalAlong_of_forall ?_ fun m hm d => ?_
      · rw [Move.alongAxes, List.length_map]
        exact not_not.mp hlength
      · obtain ⟨step, hstep, rfl⟩ := List.mem_map.mp hm
        rw [List.findIdx?_eq_none_iff] at hnone
        intro hzero
        have := hnone step hstep
        rw [hzero] at this
        cases this

theorem View.legal_of_shrink (hexact : Width.ExactTo bound) (hroom : 1 + 4 * extent ≤ bound)
    (hdims : ∀ d ∈ dims, 0 ≤ d ∧ d ≤ extent) {ranges : List (Int × Int)}
    (hranges : ∀ r ∈ ranges, |r.1| ≤ extent ∧ |r.2| ≤ extent)
    (hok : v.shrink (ranges.map fun r => (.const r.1, .const r.2)) = .ok w) :
    (Move.shrink ranges).Legal dims := by
  rw [View.shrink, View.rank, hv, List.length_map, List.length_map] at hok
  split at hok
  next => cases hok
  next hlength =>
    obtain ⟨u, hu, -⟩ := bind_eq_ok hok
    exact (View.checkShrink_eq_ok_iff hexact hroom hdims hranges (not_not.mp hlength) 0).mp hu

theorem View.legal_of_expand (hnew : ∀ d ∈ new, 0 ≤ d) (hzero : 0 ∉ dims)
    (hok : v.expand (new.map .const) = .ok w) : (Move.expand new).Legal dims := by
  rw [View.expand, View.rank, hv, List.length_map, List.length_map] at hok
  split at hok
  next => cases hok
  next hlength =>
    split at hok
    next hany =>
      exact absurd (by simpa using hany) hzero
    next =>
      obtain ⟨u, hu, -⟩ := bind_eq_ok hok
      exact (View.checkExpand_eq_ok_iff hnew (not_not.mp hlength) 0).mp hu

/-- A movement of a view that succeeds is legal, unless it repeats an empty array. -/
theorem View.legal_of_apply (hexact : Width.ExactTo bound) (hroom : 1 + 4 * extent ≤ bound)
    (hdims : ∀ d ∈ dims, 0 ≤ d ∧ d ≤ extent) (hne : ∀ new, move.toMovement ≠ .reshape new)
    (hwithin : move.Within extent)
    (hexpand : ∀ new, move = .expand new → (∀ d ∈ new, 0 ≤ d) ∧ 0 ∉ dims)
    (hok : v.apply move.toMovement = .ok (some w)) : move.Legal dims := by
  cases move with
  | reshape new => exact absurd rfl (hne _)
  | permute axes => exact View.legal_of_permute hv (ok_of_map_some hok)
  | expand new =>
    obtain ⟨hnew, hzero⟩ := hexpand new rfl
    exact View.legal_of_expand hv hnew hzero (ok_of_map_some hok)
  | pad padding => exact View.legal_of_pad hv (ok_of_map_some hok)
  | shrink ranges =>
    exact View.legal_of_shrink hv hexact hroom hdims hwithin (ok_of_map_some hok)
  | stride steps => exact View.legal_of_stride hv (ok_of_map_some hok)
  | flip axes =>
    have hlegal := View.legal_of_stride hv (ok_of_map_some hok)
    show Move.LegalAlong (Move.flip axes).alongAxes dims
    rw [Move.alongAxes_flip]
    exact hlegal

end Legality

theorem View.expand_of_zero_mem [Width] (h : v.IsAffine a) (hzero : 0 ∈ a.shape)
    (hok : v.expand (new.map .const) = .ok w) :
    new.length = a.shape.length ∧ w = .ofShape (new.map .const) := by
  rw [View.expand, View.rank, h.any_zero_iff.mpr hzero, h.shape_eq, List.length_map, List.length_map] at hok
  split at hok
  next => cases hok
  next hlength => exact ⟨not_not.mp hlength, (Except.ok.inj hok).symm⟩

theorem View.Located.of_apply [Width] {bound n : Int} (h : v.Located a n extent)
    (hexact : Width.ExactTo bound) (hroom : HasRoom bound n extent)
    (hne : ∀ new, move.toMovement ≠ .reshape new) (hsum : (move.target a.shape).sum ≤ extent)
    (hfair : move.Fair a.shape) (hwithin : move.Within extent)
    (hok : v.apply move.toMovement = .ok (some w)) :
    ∃ b, w.Located b n extent ∧ b.shape = move.target a.shape := by
  by_cases hempty : 0 ∈ a.shape ∧ ∃ new, move = .expand new
  · obtain ⟨hzero, new, rfl⟩ := hempty
    obtain ⟨hlength, rfl⟩ := View.expand_of_zero_mem h.isAffine hzero (ok_of_map_some hok)
    rw [Move.target_expand hlength] at hsum ⊢
    exact View.exists_located_ofShape_empty hexact
      (by linarith [hroom.extent_le, hroom.extent_nonneg]) hfair.1 (hfair.2 hzero) hsum
  · have hlegal : move.Legal a.shape := by
      refine View.legal_of_apply h.isAffine.shape_eq hexact hroom.extent_le
        (fun d hd => ⟨h.isAffine.wellFormed.dims_nonneg d hd, h.dim_le d hd⟩) hne hwithin ?_ hok
      rintro new rfl
      exact ⟨hfair.1, fun hzero => hempty ⟨hzero, new, rfl⟩⟩
    obtain ⟨w', hw', hreads⟩ := h.apply hexact hroom hne hlegal hsum
    cases hok.symm.trans hw'
    obtain ⟨b, hb, hshape, -⟩ := hreads.located h hsum
    exact ⟨b, hb, hshape⟩

/-! ### Layouts -/

section Layouts

variable [Width] {bound n volume extent : Int}

/-- A stack of views over a buffer of `n` elements that takes positions below `size`. Only a view
without empty dimensions stays under another one. -/
inductive Nested (n volume extent : Int) : List View → (size : Int) → Prop
  | buffer : n ≤ volume → Nested n volume extent [] n
  | view {v : View} {a : Affine} {rest : List View} {size : Int} :
      v.Located a size extent → (∀ d ∈ a.shape, 0 < d) → product a.shape ≤ volume →
      Nested n volume extent rest size → Nested n volume extent (v :: rest) (product a.shape)

namespace Nested

variable {views : List View} {size : Int} (h : Nested n volume extent views size)

include h

theorem size_le : size ≤ volume := by
  cases h with
  | buffer hle | view _ _ hle _ => exact hle

theorem size_pos (hn : 0 < n) : 0 < size := by
  cases h with
  | buffer _ => exact hn
  | view _ hpos _ _ => exact product_pos hpos

theorem size_nonneg (hn : 0 ≤ n) : 0 ≤ size := by
  cases h with
  | buffer _ => exact hn
  | view _ hpos _ _ => exact (product_pos hpos).le

theorem mem_of_indexBelow (hexact : Width.ExactTo bound) (hvolume : volume ≤ bound)
    {position i : Int} (hlow : 0 ≤ position) (hhigh : position < size)
    (hi : Layout.indexBelow views position = some i) : 0 ≤ i ∧ i < n := by
  induction h generalizing position with
  | buffer _ =>
    obtain rfl := Option.some.inj hi
    exact ⟨hlow, hhigh⟩
  | view hlocated hpos hle hrest ih =>
    rw [hlocated.indexBelow_cons hexact (hrest.size_le.trans hvolume) (hle.trans hvolume) hpos hlow
      hhigh] at hi
    obtain ⟨q, hq, hi⟩ := Option.bind_eq_some_iff.mp hi
    obtain ⟨hlow', hhigh'⟩ := hlocated.mem_of_index hq
    exact ih hlow' hhigh' hi

end Nested

namespace Layout

variable {l l' : Layout} {shape new : List Int}

/-- A layout of the given shape over a buffer of `n` elements. -/
def Inside (l : Layout) (n volume extent : Int) (shape : List Int) : Prop :=
  ∃ a size, l.top.Located a size extent ∧ Nested n volume extent l.below size ∧ a.shape = shape

theorem Inside.shape_eq (h : l.Inside n volume extent shape) : l.shape = shape.map .const := by
  obtain ⟨a, size, hlocated, -, rfl⟩ := h
  exact hlocated.isAffine.shape_eq

theorem Inside.mem_of_index (h : l.Inside n volume extent shape) (hexact : Width.ExactTo bound)
    (hvolume : volume ≤ bound) {coords : List Int} (hin : InShape shape coords) {i : Int}
    (hi : l.index coords = some i) : 0 ≤ i ∧ i < n := by
  obtain ⟨a, size, hlocated, hnested, rfl⟩ := h
  rw [Layout.index, hlocated.index_eq hexact (hnested.size_le.trans hvolume) hin] at hi
  obtain ⟨p, hp, hi⟩ := Option.bind_eq_some_iff.mp hi
  obtain ⟨hlow, hhigh⟩ := hlocated.mem_of_index hp
  exact hnested.mem_of_indexBelow hexact hvolume hlow hhigh hi

theorem inside_settle (hexact : Width.ExactTo bound) (hroom : HasRoom bound volume extent)
    (hn : 0 ≤ n) {views : List View} {size : Int} (hnested : Nested n volume extent views size)
    {top : View} (hrank : a.shape = [] → 0 < n) (htop : top.Located a size extent) :
    (settle top views).Inside n volume extent a.shape := by
  induction hnested generalizing top a with
  | buffer hle => exact ⟨a, n, htop, .buffer hle, rfl⟩
  | @view v b rest size hlocated hpos hle hrest ih =>
    rw [settle]
    cases hmerge : v.merge? top with
    | none => exact ⟨a, _, htop, .view hlocated hpos hle hrest, rfl⟩
    | some merged =>
      have hroom' := hroom.mono (hrest.size_nonneg hn) hrest.size_le
      obtain ⟨c, hc, hshape⟩ := hlocated.exists_located_of_merge? hexact hroom' (hle.trans hroom.n_le)
        htop (fun hnil => hrest.size_pos (hrank hnil)) hmerge
      rw [← hshape]
      exact ih (fun hnil => hrank (hshape ▸ hnil)) hc

theorem Inside.reshape (h : l.Inside n volume extent shape) (hexact : Width.ExactTo bound)
    (hroom : HasRoom bound volume extent) (hn : 0 ≤ n) (hsize : product shape ≤ volume)
    (hnew : ∀ d ∈ new, |d| ≤ extent) (hsize' : product new ≤ volume) (hsum : new.sum ≤ extent)
    (hrank : new = [] → 0 < n) (hok : l.reshape (new.map .const) = .ok l') :
    l'.Inside n volume extent new := by
  obtain ⟨a, size, hlocated, hnested, rfl⟩ := h
  have hroom' := hroom.mono (hnested.size_nonneg hn) hnested.size_le
  obtain ⟨result, hresult, hok⟩ := bind_eq_ok hok
  obtain ⟨hdims, hcases⟩ := hlocated.exists_located_of_reshape hexact hroom' (hsize.trans hroom.n_le) hnew
    (hsize'.trans hroom.n_le) hsum (fun hnil => hnested.size_pos (hrank hnil)) hresult
  rcases hcases with ⟨v, a', rfl, hlocated', rfl⟩ | ⟨rfl, hproduct, hpos⟩
  · obtain rfl := Except.ok.inj hok
    exact inside_settle hexact hroom hn hnested hrank hlocated'
  · obtain rfl := Except.ok.inj hok
    obtain ⟨b, hb, rfl, -⟩ :=
      View.exists_located_ofShape hexact hdims hsum (hsize'.trans hroom.n_le)
    rw [hproduct] at hb
    exact inside_settle hexact hroom hn (.view hlocated hpos hsize hnested) hrank hb

end Layout

end Layouts

/-! ### Sequences of movements -/

namespace Layout

variable [Width] {bound n volume extent : Int} {l l' : Layout} {shape : List Int} {move : Move}
  {moves : List Move}

theorem Inside.apply (h : l.Inside n volume extent shape) (hexact : Width.ExactTo bound)
    (hroom : HasRoom bound volume extent) (hn : 0 ≤ n) (hsize : product shape ≤ volume)
    (hsize' : product (move.target shape) ≤ volume) (hsum : (move.target shape).sum ≤ extent)
    (hrank : move.target shape = [] → 0 < n) (hfair : move.Fair shape) (hwithin : move.Within extent)
    (hok : l.apply move.toMovement = .ok l') : l'.Inside n volume extent (move.target shape) := by
  rcases move.eq_reshape_or with ⟨new, rfl⟩ | hne
  · exact h.reshape hexact hroom hn hsize hwithin hsize' hsum hrank hok
  · obtain ⟨a, size, hlocated, hnested, rfl⟩ := h
    obtain ⟨v, hv, rfl⟩ := (apply_eq_ok_iff hne).mp hok
    have hroom' := hroom.mono (hnested.size_nonneg hn) hnested.size_le
    obtain ⟨b, hlocated', hshape⟩ := hlocated.of_apply hexact hroom' hne hsum hfair hwithin hv
    exact ⟨b, size, hlocated', hnested, hshape⟩

theorem Inside.foldlM_apply (h : l.Inside n volume extent shape) (hexact : Width.ExactTo bound)
    (hroom : HasRoom bound volume extent) (hn : 0 ≤ n)
    (hvolume : ∀ s ∈ Move.shapesAlong shape moves, product s ≤ volume)
    (hextent : ∀ s ∈ Move.shapesAlong shape moves, s.sum ≤ extent)
    (hrank : [] ∈ Move.shapesAlong shape moves → 0 < n) (hfair : Move.FairRun shape moves)
    (hwithin : ∀ move ∈ moves, move.Within extent)
    (hok : moves.foldlM (fun l move => l.apply move.toMovement) l = .ok l') :
    l'.Inside n volume extent (moves.foldl Move.target shape) := by
  induction moves generalizing l shape with
  | nil =>
    obtain rfl := Except.ok.inj hok
    exact h
  | cons move moves ih =>
    rw [Move.shapesAlong, List.forall_mem_cons] at hvolume hextent
    rw [Move.shapesAlong, List.mem_cons] at hrank
    rw [List.forall_mem_cons] at hwithin
    rw [List.foldlM_cons] at hok
    obtain ⟨l₁, hl₁, hok⟩ := bind_eq_ok hok
    have hhead := Move.head_mem_shapesAlong (move.target shape) moves
    have hstep := h.apply hexact hroom hn hvolume.1 (hvolume.2 _ hhead) (hextent.2 _ hhead)
      (fun hnil => hrank (.inr (hnil ▸ hhead))) hfair.1 hwithin.1 hl₁
    exact ih hstep hvolume.2 hextent.2 (fun hmem => hrank (.inr hmem)) hfair.2 hwithin.2 hok

end Layout

section Masked

variable [Width] {v w : View} {a : Affine} {move : Move} {volume extent : Int}

theorem Layout.apply_singleton (hok : v.apply move.toMovement = .ok (some w)) :
    Layout.apply ⟨v, []⟩ move.toMovement = .ok ⟨w, []⟩ := by
  rcases move.eq_reshape_or with ⟨new, rfl⟩ | hne
  · show (v.reshape (new.map .const) >>= _) = _
    rw [show v.reshape (new.map .const) = .ok (some w) from hok]
    rfl
  · exact (Layout.apply_eq_ok_iff hne).mpr ⟨w, hok, rfl⟩

/-- A view with elements none of which is read stays so in every movement that succeeds and leaves a
dimension. Without dimensions nothing can be masked out. -/
theorem View.apply_stays_masked (hv : v.IsAffine a) (hpos : ∀ d ∈ a.shape, 0 < d)
    (hmasked : ∀ coords, InShape a.shape coords → v.index coords = none)
    (hok : v.apply move.toMovement = .ok (some w)) (hrank : move.target a.shape ≠ [])
    (hvolume : ∀ s ∈ [a.shape, move.target a.shape], product s ≤ volume)
    (hextent : ∀ s ∈ [a.shape, move.target a.shape], s.sum ≤ extent) (hwithin : move.Within extent)
    (hexact : Width.ExactTo ((1 + volume) * (1 + 4 * extent))) :
    ∀ coords, InShape (move.target a.shape) coords → w.index coords = none := by
  intro coords hin
  have hdims := hv.wellFormed.dims_nonneg
  rw [List.forall_mem_cons, List.forall_mem_singleton] at hvolume hextent
  have hvolume' : 0 ≤ volume := (product_nonneg hdims).trans hvolume.1
  have hroom : HasRoom ((1 + volume) * (1 + 4 * extent)) volume extent :=
    ⟨hvolume', (List.sum_nonneg hdims).trans hextent.1, le_rfl⟩
  -- Nothing is read just when what is read lies among no elements.
  have hstart : Layout.Inside ⟨v, []⟩ 0 volume extent a.shape := by
    refine ⟨a, 0, hv.located hextent.1 fun xs hxs p hp => ?_, .buffer hvolume', rfl⟩
    have hnone := hmasked xs hxs
    rw [hv.index_eq_map hxs, hp] at hnone
    cases hnone
  have hfair : move.Fair a.shape := by
    cases move with
    | expand new =>
      have hlength : new.length = a.shape.length := by
        by_contra hne
        have herror : v.expand (new.map .const) = .error (.expandRank v.rank new.length) := by
          rw [View.expand, View.rank, hv.shape_eq, List.length_map, List.length_map, if_pos hne]
        have hok' : some <$> v.expand (new.map .const) = .ok (some w) := hok
        rw [herror] at hok'
        cases hok'
      refine ⟨fun d hd => ?_, fun hzero => absurd (hpos 0 hzero) (lt_irrefl 0)⟩
      rw [Move.target_expand hlength] at hin
      exact (hin.dims_pos d hd).le
    | reshape _ | permute _ | pad _ | shrink _ | stride _ | flip _ => trivial
  have hend := hstart.apply hexact hroom le_rfl hvolume.1 hvolume.2 hextent.2
    (fun hnil => absurd hnil hrank) hfair hwithin (Layout.apply_singleton hok)
  cases hindex : w.index coords with
  | none => rfl
  | some i =>
    have hread : Layout.index ⟨w, []⟩ coords = some i := by
      rw [Layout.index, hindex]
      rfl
    have := hend.mem_of_index hexact hroom.n_le hin hread
    omega

end Masked

section Witness

attribute [local instance] Width.word64

/-- Padding around masked elements, in 64-bit arithmetic. -/
theorem View.apply_stays_masked_padded :
    ∃ w, (View.invalid [.const 1, .const 2]).apply (Move.pad [(0, 0), (1, 1)]).toMovement
        = .ok (some w) ∧ w.index [0, 1] = none := by
  have hview : (View.invalid [.const 1, .const 2]).IsAffine _ :=
    @View.isAffine_invalid _ [1, 2] (by decide)
  have hmasked : ∀ coords, InShape [1, 2] coords →
      (View.invalid [.const 1, .const 2]).index coords = none := fun coords hin => by
    rw [hview.index_eq_map hin, Affine.index_invalid (by decide), Option.map_none]
  refine ⟨_, rfl, @View.apply_stays_masked _ _ _ _ (.pad [(0, 0), (1, 1)]) 4 5 hview (by decide) hmasked
    rfl (by decide) (by decide) (by decide) trivial (Width.exactTo_word64 (by decide)) _ ?_⟩
  exact ⟨⟨by decide, by decide⟩, ⟨by decide, by decide⟩, trivial⟩

end Witness

end LazyTensor

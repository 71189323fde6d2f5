import LazyTensor.Proofs.Layout.Shape
import LazyTensor.Proofs.Movement.Bounds

/-!
# Movements without padding

A movement that adds no padding keeps a layout reading everywhere. Which movements are legal need not
be assumed: a movement by numbers within the limits that succeeds is legal.
-/

namespace LazyTensor

namespace Move

/-- A movement that adds no padding and is legal where its legality is not left to the sizes. -/
def Dense (shape : List Int) : Move → Prop
  | .pad _ => False
  | .reshape _ => True
  | move => move.Legal shape

theorem exists_sourceAlong {moves : List AxisMove}
    (hmoves : ∀ move ∈ moves, ∀ d c, ∃ x, move.source d c = some x) (shape coords : List Int) :
    ∃ xs, sourceAlong moves shape coords = some xs := by
  induction moves generalizing shape coords with
  | nil => exact ⟨[], rfl⟩
  | cons move moves ih =>
    rw [List.forall_mem_cons] at hmoves
    cases shape with
    | nil => exact ⟨[], rfl⟩
    | cons d shape =>
      cases coords with
      | nil => exact ⟨[], rfl⟩
      | cons c coords =>
        obtain ⟨x, hx⟩ := hmoves.1 d c
        obtain ⟨xs, hxs⟩ := ih hmoves.2 shape coords
        exact ⟨x :: xs, by rw [sourceAlong, hx, hxs]; rfl⟩

variable {move : Move} {shape : List Int}

theorem Dense.legal (h : move.Dense shape) (hne : ∀ new, move.toMovement ≠ .reshape new) :
    move.Legal shape := by
  cases move with
  | reshape new => exact absurd rfl (hne _)
  | pad padding => exact h.elim
  | permute _ | expand _ | shrink _ | stride _ | flip _ => exact h

theorem Dense.exists_source (h : move.Dense shape) (coords : List Int) :
    ∃ xs, move.source shape coords = some xs := by
  cases move with
  | reshape new | permute axes => exact ⟨_, rfl⟩
  | pad padding => exact h.elim
  | expand _ | shrink _ | stride _ | flip _ =>
    refine exists_sourceAlong (fun move hmove d c => ?_) shape coords
    obtain ⟨x, -, rfl⟩ := List.mem_map.mp hmove
    exact ⟨_, rfl⟩

end Move

namespace Layout

variable [Width] {lim : Limits} {n : Int} {l l' : Layout} {shape : List Int} {move : Move}

/-- A movement without padding that succeeds reads everywhere what was read at the source. -/
theorem Total.apply (h : l.Total n lim shape) (hexact : lim.Exact) (hdense : move.Dense shape)
    (hsum : (move.target shape).sum ≤ lim.extent)
    (happly : l.apply move.toMovement = .ok l')
    (hadmits : l'.shape = (move.target shape).map .const → lim.Admits (move.target shape)) :
    l'.Total n lim (move.target shape) ∧ ∀ coords xs, InShape (move.target shape) coords →
      move.source shape coords = some xs → l'.index coords = l.index xs := by
  rcases move.eq_reshape_or with ⟨new, rfl⟩ | hne
  · obtain ⟨-, htotal, hindex⟩ := h.reshape hexact (hadmits (shape_reshape happly)) happly
    exact ⟨htotal, fun coords xs hin hxs => Option.some.inj hxs ▸ hindex coords hin⟩
  have hlegal := hdense.legal hne
  obtain ⟨a, size, htop, hstack, rfl⟩ := h
  obtain ⟨v, hv, b, hb, hshape, hindex⟩ := htop.located.apply hexact.exactTo
    (hexact.hasRoom.mono htop.n_pos.le hstack.size_le) hne hlegal hsum
  obtain ⟨v', hv', rfl⟩ := (apply_eq_ok_iff hne).mp happly
  cases hv.symm.trans hv'
  have hadmits : lim.Admits (move.target a.shape) := hadmits (by
    rw [← hshape]
    exact hb.shape_eq)
  have hreads : ∀ coords xs, InShape (move.target a.shape) coords →
      move.source a.shape coords = some xs → InShape a.shape xs ∧ b.index coords = a.index xs := by
    intro coords xs hin hxs
    refine ⟨Move.source_inShape hlegal htop.admits.dims_nonneg hin hxs, ?_⟩
    simp only [hindex coords hin, hxs, Option.bind_some]
  rw [← hshape] at hadmits hreads ⊢
  have htotal : v.Total b size lim := .of_index hb hadmits fun coords hin => by
    obtain ⟨xs, hxs⟩ := hdense.exists_source coords
    obtain ⟨hin', hread⟩ := hreads coords xs hin hxs
    exact ⟨_, hread.trans (htop.affine_index hin'), htop.position_mem hin'⟩
  refine ⟨⟨b, size, htotal, hstack, rfl⟩, fun coords xs hin hxs => ?_⟩
  obtain ⟨hin', hread⟩ := hreads coords xs hin hxs
  have hle := hstack.size_le.trans hexact.volume_le
  rw [index, index, htotal.located.index_eq hexact.exactTo hle hin, hread,
    htop.located.index_eq hexact.exactTo hle hin']

end Layout

/-! ### Legality -/

section Legality

variable [Width] {lim : Limits}

/-- A movement without padding, by numbers within the limits. Whether a shape is one of numbers shows
in the result. -/
def Movement.Plain (lim : Limits) : Movement → Prop
  | .pad _ => False
  | .shrink ranges => ∀ r ∈ ranges, ∃ start stop : Int, r = (.const start, .const stop) ∧
      |start| ≤ lim.extent ∧ |stop| ≤ lim.extent
  | _ => True

omit [Width] in
theorem exists_windows {ranges : List (SymInt × SymInt)}
    (h : ∀ r ∈ ranges, ∃ start stop : Int, r = (.const start, .const stop) ∧
      |start| ≤ lim.extent ∧ |stop| ≤ lim.extent) :
    ∃ windows : List (Int × Int), ranges = windows.map (fun r => (.const r.1, .const r.2)) ∧
      ∀ r ∈ windows, |r.1| ≤ lim.extent ∧ |r.2| ≤ lim.extent := by
  induction ranges with
  | nil => exact ⟨[], rfl, nofun⟩
  | cons r ranges ih =>
    rw [List.forall_mem_cons] at h
    obtain ⟨start, stop, rfl, hfits⟩ := h.1
    obtain ⟨windows, rfl, hwindows⟩ := ih h.2
    exact ⟨(start, stop) :: windows, rfl, List.forall_mem_cons.mpr ⟨hfits, hwindows⟩⟩

omit [Width] in
theorem sum_sizes_le {moves : List AxisMove} {shape : List Int} (hlegal : Move.LegalAlong moves shape)
    (hsize : ∀ m ∈ moves, ∀ d ∈ shape, m.Legal d → m.size d ≤ d) :
    (moves.zipWith AxisMove.size shape).sum ≤ shape.sum := by
  induction shape generalizing moves with
  | nil => rw [List.zipWith_nil_right]
  | cons d shape ih =>
    cases moves with
    | nil => exact hlegal.elim
    | cons m moves =>
      have hrest := ih hlegal.2 fun m' hm' d' hd' =>
        hsize m' (List.mem_cons_of_mem m hm') d' (List.mem_cons_of_mem d hd')
      have hfirst := hsize m List.mem_cons_self d List.mem_cons_self hlegal.1
      rw [List.zipWith_cons_cons, List.sum_cons, List.sum_cons]
      exact add_le_add hfirst hrest

omit [Width] in
theorem AxisMove.size_stride_le {step d : Int} (hstep : step ≠ 0) (hd : 0 < d) :
    (AxisMove.stride step).size d ≤ d := by
  have hpos : (1 : Int) ≤ step.natAbs := by omega
  show (d + step.natAbs - 1) / step.natAbs ≤ d
  refine Int.ediv_le_of_le_mul (by omega) ?_
  nlinarith

namespace Layout

variable {n : Int} {l l' : Layout} {shape dims : List Int} {m : Movement}

namespace Total

variable (h : l.Total n lim shape)
include h

theorem legal_of_apply {move : Move} (hexact : lim.Exact)
    (hne : ∀ new, move.toMovement ≠ .reshape new) (hwithin : move.Within lim.extent)
    (hnew : ∀ new, move = .expand new → ∀ d ∈ new, 0 ≤ d)
    (happly : l.apply move.toMovement = .ok l') : move.Legal shape := by
  obtain ⟨v, hv, -⟩ := (apply_eq_ok_iff hne).mp happly
  refine View.legal_of_apply h.shape_eq hexact.exactTo hexact.hasRoom.extent_le (fun d hd => ?_) hne
    hwithin (fun new hmove => ⟨hnew new hmove, fun hzero => ?_⟩) hv
  · exact ⟨h.admits.dims_nonneg d hd,
      (List.single_le_sum h.admits.dims_nonneg d hd).trans h.admits.extent_le⟩
  · exact (h.admits.dims_pos 0 hzero).false

theorem sum_stride_le {steps : List Int} (hlegal : Move.LegalAlong (steps.map .stride) shape) :
    ((steps.map .stride).zipWith AxisMove.size shape).sum ≤ lim.extent := by
  refine (sum_sizes_le hlegal fun m hm d hd hm' => ?_).trans h.admits.extent_le
  obtain ⟨step, -, rfl⟩ := List.mem_map.mp hm
  exact AxisMove.size_stride_le hm' (h.admits.dims_pos d hd)

variable (hexact : lim.Exact) (hm : m.Plain lim) (happly : l.apply m = .ok l')
  (hshape : l'.shape = dims.map .const) (hadmits : lim.Admits dims)

include hexact hm happly hshape hadmits

theorem exists_dense :
    ∃ move : Move, move.toMovement = m ∧ move.Dense shape ∧
      (move.target shape).sum ≤ lim.extent := by
  cases m with
  | pad padding => exact hm.elim
  | reshape new =>
    obtain rfl : new = dims.map .const := (shape_reshape happly).symm.trans hshape
    exact ⟨.reshape dims, rfl, trivial, hadmits.extent_le⟩
  | expand new =>
    obtain rfl : new = dims.map .const := (shape_expand happly).symm.trans hshape
    have hlegal : (Move.expand dims).Legal shape := h.legal_of_apply hexact nofun trivial
      (fun _ hmove => Move.expand.inj hmove ▸ hadmits.dims_nonneg) happly
    refine ⟨.expand dims, rfl, hlegal, ?_⟩
    rw [Move.target_expand ((List.length_map _).symm.trans hlegal.length_eq)]
    exact hadmits.extent_le
  | permute axes =>
    have hlegal : (Move.permute axes).Legal shape := h.legal_of_apply hexact
      nofun trivial nofun happly
    refine ⟨.permute axes, rfl, hlegal, ?_⟩
    obtain ⟨hlength, hlt, hnodup⟩ := hlegal
    have hperm := (perm_range_of_nodup (hlength ▸ hlt) hnodup).map (shape.getD · 0)
    rw [hlength, map_getD_range] at hperm
    exact hperm.sum_eq.trans_le h.admits.extent_le
  | shrink ranges =>
    obtain ⟨windows, rfl, hwindows⟩ := exists_windows hm
    have hlegal : (Move.shrink windows).Legal shape := h.legal_of_apply hexact
      nofun hwindows nofun happly
    refine ⟨.shrink windows, rfl, hlegal, ?_⟩
    refine (sum_sizes_le hlegal fun x hx d hd hx' => ?_).trans h.admits.extent_le
    obtain ⟨r, -, rfl⟩ := List.mem_map.mp hx
    show r.2 - r.1 ≤ d
    obtain ⟨hstart, -, hstop⟩ := hx'
    omega
  | stride steps =>
    have hlegal : (Move.stride steps).Legal shape := h.legal_of_apply hexact nofun trivial nofun
      happly
    exact ⟨.stride steps, rfl, hlegal, h.sum_stride_le hlegal⟩
  | flip axes =>
    have hlegal : (Move.flip axes).Legal shape := h.legal_of_apply hexact nofun trivial nofun happly
    refine ⟨.flip axes, rfl, hlegal, ?_⟩
    show ((Move.flip axes).alongAxes.zipWith AxisMove.size shape).sum ≤ lim.extent
    rw [Move.alongAxes_flip]
    exact h.sum_stride_le (Move.alongAxes_flip axes ▸ hlegal)

theorem apply_plain : l'.Total n lim dims := by
  obtain ⟨move, rfl, hdense, hsum⟩ := h.exists_dense hexact hm happly hshape hadmits
  obtain ⟨hlayout, -⟩ := h.apply hexact hdense hsum happly fun hl => by
    rw [map_const_injective (hl.symm.trans hshape)]
    exact hadmits
  rw [map_const_injective (hlayout.shape_eq.symm.trans hshape)] at hlayout
  exact hlayout

end Total

end Layout

end Legality

end LazyTensor

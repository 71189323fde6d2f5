import LazyTensor.Linear.Scope
import LazyTensor.Proofs.Graph.Sound
import LazyTensor.Proofs.Order

/-!
# Branches around gated stores

Putting gated stores under branches keeps a graph sound and leaves every node alone that is not a
store. A branch waits for the operands of the last store on its condition.
-/

namespace LazyTensor

theorem concat_eq_append_cons {α : Type} {done before after : List α} {r x : α}
    (h : done ++ [r] = before ++ x :: after) :
    (done = before ∧ r = x ∧ after = []) ∨
      ∃ after', after = after' ++ [r] ∧ done = before ++ x :: after' := by
  rcases List.eq_nil_or_concat after with rfl | ⟨after, y, rfl⟩
  · obtain ⟨hdone, hlast⟩ := List.append_inj' h rfl
    exact .inl ⟨hdone, List.singleton_inj.mp hlast, rfl⟩
  · rw [List.concat_eq_append, ← List.cons_append, ← List.append_assoc] at h
    obtain ⟨hdone, hlast⟩ := List.append_inj' h rfl
    exact .inr ⟨after, by rw [List.concat_eq_append, List.singleton_inj.mp hlast], hdone⟩

def Op.gate? : Op → Option Ref
  | .store _ _ _ gate => gate
  | _ => none

theorem Op.mem_sources_of_gate? {o : Op} {c : Ref} (h : c ∈ o.gate?) : c ∈ o.sources := by
  cases o with
  | store b i v gate =>
    obtain rfl : gate = some c := h
    simp [sources]
  | _ => cases h

namespace Graph

variable {g g' : Graph} {r s x sink b i v c : Ref} {n : Instr} {waits : List (Ref × List Ref)}

theorem gatedStore?_eq_some (h : g.gatedStore? r = some (b, i, v, c)) :
    g.op r = .store b i v (some c) ∧ g.dtype c = .bool := by
  rw [gatedStore?] at h
  split at h
  case h_1 hop =>
    split at h
    case isTrue hbool =>
      cases h
      exact ⟨hop, hbool⟩
    case isFalse => cases h
  case h_2 => cases h

/-- A store leaves the graph alone, or is overwritten by one under a branch on its condition. -/
theorem branchStore_cases (g : Graph) (waits : List (Ref × List Ref)) (r : Ref) :
    g.branchStore waits r = (g, waits) ∨ ∃ b i v c, g.op r = .store b i v (some c) ∧
      g.branchStore waits r =
        ((g.insert ⟨.branch c, .void⟩).2.replace r
          ⟨.store b i v (some (g.insert ⟨.branch c, .void⟩).1), .void⟩,
        insertKey compare (g.insert ⟨.branch c, .void⟩).1 [b, i, v] waits) := by
  rw [branchStore]
  cases hgated : g.gatedStore? r with
  | none => exact .inl rfl
  | some parts =>
    obtain ⟨b, i, v, c⟩ := parts
    exact .inr ⟨b, i, v, c, (gatedStore?_eq_some hgated).1, rfl⟩

theorem Sound.branchStore (hg : g.Sound) (hr : r < g.size) : (g.branchStore waits r).1.Sound := by
  rcases branchStore_cases g waits r with heq | ⟨b, i, v, c, hop, heq⟩
  · rwa [heq]
  rw [heq]
  have hsources : ∀ s ∈ [b, i, v, c], s < g.size := fun s hs => hg.source_lt hr (by rwa [hop])
  obtain ⟨hgrows, hholds⟩ := insert_spec hg.wellFormed ⟨.branch c, .void⟩
  have hbranch : (g.insert ⟨.branch c, .void⟩).2.Sound :=
    hg.insert (List.forall_mem_singleton.mpr (hsources c (by simp)))
  generalize hinsert : g.insert ⟨.branch c, .void⟩ = p at hgrows hholds hbranch
  obtain ⟨branch, g₁⟩ := p
  have hlt : r < g₁.size := Nat.lt_of_lt_of_le hr hgrows.size_le
  have hop₁ : g₁.op r = .store b i v (some c) := by rw [op, hgrows.get_eq hg.wellFormed hr, ← op, hop]
  -- What the store read does not lead back to it.
  have hbelow : ∀ s ∈ [b, i, v, c], ¬Walk.Reaches g₁.sources (g₁.resolve s) (g₁.resolve r) := by
    intro s hs
    refine Founded.not_reaches (hbranch.wellFormed.founded_resolve.mpr (hbranch.founded hlt)) ?_
    rw [hbranch.wellFormed.sources_resolve, sources, hop₁]
    exact List.mem_map_of_mem hs
  -- Nor does the branch, which reads only the condition.
  have hnew : ¬Walk.Reaches g₁.sources (g₁.resolve branch) (g₁.resolve r) := by
    intro hreach
    have hbop : g₁.op branch = .branch (g.resolve c) := congrArg Instr.op hholds.get_eq
    rcases hreach.cases_head with hself | ⟨t, ht, hreach⟩
    · have hstore : g₁.op branch = .store b i v (some c) := by
        rw [← hop₁, op, op, ← get_resolve hbranch.wellFormed branch, hself,
          get_resolve hbranch.wellFormed]
      rw [hbop] at hstore
      cases hstore
    · rw [hbranch.wellFormed.sources_resolve, sources, hbop] at ht
      rw [List.mem_singleton.mp ht, ← hgrows.resolve_eq hg.wellFormed (hsources c (by simp)),
        hbranch.wellFormed.resolve_resolve] at hreach
      exact hbelow c (by simp) hreach
  refine hbranch.replace hlt (fun s hs => ?_) fun s hs => ?_
  · rcases List.mem_append.mp (show s ∈ [b, i, v] ++ [branch] from hs) with hs | hs
    · exact Nat.lt_of_lt_of_le (hsources s (List.mem_append_left [c] hs)) hgrows.size_le
    · exact List.mem_singleton.mp hs ▸ hholds.lt_size
  · rcases List.mem_append.mp (show s ∈ [b, i, v] ++ [branch] from hs) with hs | hs
    · exact hbelow s (List.mem_append_left [c] hs)
    · exact List.mem_singleton.mp hs ▸ hnew

theorem size_le_branchStore (hg : g.Sound) : g.size ≤ (g.branchStore waits r).1.size := by
  rcases branchStore_cases g waits r with heq | ⟨b, i, v, c, -, heq⟩
  · rw [heq]
  · rw [heq, replace_size]
    exact (insert_spec hg.wellFormed _).1.size_le

theorem replace_resolve_of_ne (hg : g.WellFormed) (hr : r < g.size) (hlive : g.resolve r = r)
    (hne : r ≠ g.resolve x) : (g.replace x n).resolve r = r := by
  refine resolve_of_home ?_
  have hhome := hg.home_of_lt hr
  rw [hlive] at hhome
  rcases replace_cases g x n with ⟨j, -, -, heq⟩ | ⟨-, heq⟩
  · rw [heq, Array.getElem?_map, hhome, Option.map_some, if_neg hne]
  · rw [heq, hhome]

theorem branchStore_frame (hg : g.Sound) (hr : r < g.size) (hx : x < g.size)
    (hlive : g.resolve x = x) (hop : (g.op x).kind ≠ .store) :
    (g.branchStore waits r).1.get x = g.get x ∧ (g.branchStore waits r).1.resolve x = x := by
  rcases branchStore_cases g waits r with heq | ⟨b, i, v, c, hstore, heq⟩
  · rw [heq]
    exact ⟨rfl, hlive⟩
  rw [heq]
  have hgrows := (insert_spec hg.wellFormed ⟨.branch c, .void⟩).1
  generalize g.insert ⟨.branch c, .void⟩ = p at hgrows
  have hlive' : p.2.resolve x = x := by rw [hgrows.resolve_eq hg.wellFormed hx, hlive]
  have hne : x ≠ p.2.resolve r := by
    intro h
    rw [hgrows.resolve_eq hg.wellFormed hr] at h
    rw [h, op, get_resolve hg.wellFormed, ← op, hstore] at hop
    exact hop rfl
  constructor
  · have hget := replace_get (n := ⟨.store b i v (some p.1), .void⟩) hgrows.wellFormed
      (Nat.lt_of_lt_of_le hr hgrows.size_le) x
    rw [hget, hlive', if_neg hne, hgrows.get_eq hg.wellFormed hx]
  · exact replace_resolve_of_ne hgrows.wellFormed (Nat.lt_of_lt_of_le hx hgrows.size_le) hlive' hne

section Insert

variable (hg : g.Sound) (hsink : sink < g.size)

include hg hsink

theorem insertBranches_induction
    {P : List Ref → Graph → List (Ref × List Ref) → Prop} (hstart : P [] g [])
    (hstep : ∀ done r rest g' waits, g.order sink = done ++ r :: rest → g'.Sound → g.size ≤ g'.size →
      P done g' waits → P (done ++ [r]) (g'.branchStore waits r).1 (g'.branchStore waits r).2) :
    P (g.order sink) (g.insertBranches sink).1 (g.insertBranches sink).2 := by
  suffices hfold : ∀ (rest done : List Ref) (g' : Graph) (waits : List (Ref × List Ref)),
      g.order sink = done ++ rest → g'.Sound → g.size ≤ g'.size → P done g' waits →
      P (done ++ rest) (rest.foldl (fun p r => p.1.branchStore p.2 r) (g', waits)).1
        (rest.foldl (fun p r => p.1.branchStore p.2 r) (g', waits)).2 from
    hfold (g.order sink) [] g [] rfl hg (Nat.le_refl _) hstart
  intro rest
  induction rest with
  | nil =>
    intro done g' waits _ _ _ h
    rwa [List.append_nil]
  | cons r rest ih =>
    intro done g' waits hsplit hg' hsize h
    have hr : r ∈ g.order sink := hsplit ▸ List.mem_append_right done List.mem_cons_self
    have hnext := hstep done r rest g' waits hsplit hg' hsize h
    rw [List.append_cons]
    exact ih (done ++ [r]) _ _ (hsplit.trans (List.append_cons done r rest))
      (hg'.branchStore (Nat.lt_of_lt_of_le (hg.order_lt hsink hr) hsize))
      (hsize.trans (size_le_branchStore hg')) hnext

theorem insertBranches_keeps {P : Graph → Prop} (hstart : P g)
    (hstep : ∀ g' waits r, g'.Sound → g.size ≤ g'.size → r ∈ g.order sink → P g' →
      P (g'.branchStore waits r).1) : P (g.insertBranches sink).1 :=
  insertBranches_induction hg hsink (P := fun _ g' _ => P g') hstart
    fun done r _ g' waits hsplit hg' hsize =>
      hstep g' waits r hg' hsize (hsplit ▸ List.mem_append_right done List.mem_cons_self)

theorem Sound.insertBranches : (g.insertBranches sink).1.Sound :=
  insertBranches_keeps hg hsink hg
    fun _ _ _ hg' hsize hr _ => hg'.branchStore (Nat.lt_of_lt_of_le (hg.order_lt hsink hr) hsize)

theorem size_le_insertBranches : g.size ≤ (g.insertBranches sink).1.size :=
  insertBranches_keeps hg hsink (P := fun g' => g.size ≤ g'.size) (Nat.le_refl _)
    fun _ _ _ hg' hsize _ _ => hsize.trans (size_le_branchStore hg')

theorem insertBranches_frame (hx : x < g.size) (hlive : g.resolve x = x)
    (hop : (g.op x).kind ≠ .store) :
    (g.insertBranches sink).1.get x = g.get x ∧ (g.insertBranches sink).1.resolve x = x := by
  refine insertBranches_keeps hg hsink (P := fun g' => g'.get x = g.get x ∧ g'.resolve x = x)
    ⟨rfl, hlive⟩ fun g' waits r hg' hsize hr h => ?_
  have hop' : (g'.op x).kind ≠ .store := by rwa [op, h.1, ← op]
  obtain ⟨hget, hresolve⟩ := branchStore_frame hg'
    (Nat.lt_of_lt_of_le (hg.order_lt hsink hr) hsize) (Nat.lt_of_lt_of_le hx hsize) h.2 hop'
  exact ⟨hget.trans h.1, hresolve⟩

end Insert

/-! ### What branches wait for -/

/-- A store is under a branch on a condition, with the given operands up to what replaces them. -/
structure Guarded (g : Graph) (r b i v c branch : Ref) : Prop where
  holds : g.Holds branch ⟨.branch c, .void⟩
  resolved_get : g.resolved (g.get r) = g.resolved ⟨.store b i v (some branch), .void⟩

theorem resolved_resolved (h : ∀ y, g'.resolve (g.resolve y) = g'.resolve y) (n : Instr) :
    g'.resolved (g.resolved n) = g'.resolved n := by
  rw [resolved, resolved, resolved, Op.mapSources_mapSources]
  exact congrArg (Instr.mk · n.dtype) (Op.mapSources_congr fun s _ => h s)

theorem WellFormed.get_congr (hg : g.WellFormed) (h : g.resolve r = g.resolve s) : g.get r = g.get s := by
  rw [← get_resolve hg r, h, get_resolve hg]

section Gated

variable {b i v c : Ref} (hg : g.Sound) (hr : r < g.size) (h : g.gatedStore? r = some (b, i, v, c))

include hg hr h

theorem branchStore_gated (waits : List (Ref × List Ref)) :
    ∃ branch, (g.branchStore waits r).2 = insertKey compare branch [b, i, v] waits ∧
      (g.branchStore waits r).1.Guarded r b i v (g.resolve c) branch ∧
      (∀ y, (g.branchStore waits r).1.resolve (g.resolve y) = (g.branchStore waits r).1.resolve y) ∧
      ∀ x < g.size, g.resolve x ≠ g.resolve r → (g.branchStore waits r).1.get x = g.get x ∧
        (g.branchStore waits r).1.resolve x = g.resolve x := by
  have hbranches : g.branchStore waits r =
      ((g.insert ⟨.branch c, .void⟩).2.replace r
        ⟨.store b i v (some (g.insert ⟨.branch c, .void⟩).1), .void⟩,
      insertKey compare (g.insert ⟨.branch c, .void⟩).1 [b, i, v] waits) := by
    rw [branchStore, h]
  rw [hbranches]
  obtain ⟨hop, -⟩ := gatedStore?_eq_some h
  obtain ⟨hgrows, hholds⟩ := insert_spec hg.wellFormed ⟨.branch c, .void⟩
  generalize g.insert ⟨.branch c, .void⟩ = p at hgrows hholds
  obtain ⟨branch, g₁⟩ := p
  dsimp only at hgrows hholds ⊢
  have hwf := hgrows.wellFormed
  have hlt : r < g₁.size := Nat.lt_of_lt_of_le hr hgrows.size_le
  obtain ⟨j, -, hresolve⟩ := replace_resolve (n := ⟨.store b i v (some branch), .void⟩) hwf hlt
  have hget := replace_get (n := ⟨.store b i v (some branch), .void⟩) hwf hlt
  have hwf' := replace_wellFormed (x := r) (n := ⟨.store b i v (some branch), .void⟩) hwf
  have hsize : (g₁.replace r ⟨.store b i v (some branch), .void⟩).size = g₁.size := replace_size
  generalize g₁.replace r ⟨.store b i v (some branch), .void⟩ = g₂ at *
  have hcoarser : ∀ y, g₂.resolve (g₁.resolve y) = g₂.resolve y := fun y => by
    rw [hresolve, hresolve, hwf.resolve_resolve]
  have hother : ∀ x, g₁.resolve x ≠ g₁.resolve r →
      g₂.get x = g₁.get x ∧ g₂.resolve x = g₁.resolve x := fun x hx =>
    ⟨(hget x).trans (if_neg hx), (hresolve x).trans (if_neg hx)⟩
  have hne : g₁.resolve branch ≠ g₁.resolve r := by
    intro heq
    have hstore : g₁.op branch = .store b i v (some c) := by
      rw [op, hwf.get_congr heq, hgrows.get_eq hg.wellFormed hr, ← op, hop]
    rw [op, hholds.get_eq] at hstore
    cases hstore
  refine ⟨branch, rfl, ⟨?_, ?_⟩, fun y => ?_, fun x hx hxr => ?_⟩
  · have hslot := hwf'.holds_resolve (hsize.symm ▸ hholds.lt_size)
    rwa [(hother branch hne).1, (hother branch hne).2, hholds.resolve_eq, hholds.get_eq] at hslot
  · rw [hget, if_pos rfl]
    exact resolved_resolved hcoarser _
  · by_cases hy : y < g.size
    · rw [← hgrows.resolve_eq hg.wellFormed hy, hcoarser]
    · rw [resolve_of_ge hg.wellFormed (Nat.le_of_not_lt hy)]
  · rw [← hgrows.resolve_eq hg.wellFormed hx, ← hgrows.get_eq hg.wellFormed hx]
    refine hother x ?_
    rwa [hgrows.resolve_eq hg.wellFormed hx, hgrows.resolve_eq hg.wellFormed hr]

theorem Guarded.branchStore {b' i' v' c' branch : Ref} (hx : x < g.size)
    (hguarded : g.Guarded x b' i' v' c' branch) :
    (g.branchStore waits r).1.Guarded x b' i' v' c' branch := by
  obtain ⟨hholds, hresolved⟩ := hguarded
  obtain ⟨hop, hbool⟩ := gatedStore?_eq_some h
  obtain ⟨-, -, -, hcoarser, hother⟩ := branchStore_gated hg hr h waits
  have hwf : (g.branchStore waits r).1.WellFormed := (hg.branchStore hr).wellFormed
  have hsize : g.size ≤ (g.branchStore waits r).1.size := size_le_branchStore hg
  have hbranch : g.resolve branch ≠ g.resolve r := by
    intro heq
    rw [op, ← hg.wellFormed.get_congr heq, hholds.get_eq] at hop
    cases hop
  -- One store is gated on a branch and the other on a condition, so they are not the same.
  have hxr : g.resolve x ≠ g.resolve r := by
    intro heq
    have hgates : (g.op r).mapSources g.resolve
        = .store (g.resolve b') (g.resolve i') (g.resolve v') (some (g.resolve branch)) :=
      congrArg Instr.op (hg.wellFormed.get_congr heq ▸ hresolved)
    rw [hop] at hgates
    obtain ⟨-, -, -, hgate⟩ := Op.store.inj hgates
    rw [dtype, hg.wellFormed.get_congr (Option.some.inj hgate), hholds.get_eq] at hbool
    cases hbool
  constructor
  · obtain ⟨hget, hresolve⟩ := hother branch hholds.lt_size hbranch
    have hslot := hwf.holds_resolve (Nat.lt_of_lt_of_le hholds.lt_size hsize)
    rwa [hget, hresolve, hholds.resolve_eq, hholds.get_eq] at hslot
  · rw [(hother x hx hxr).1, ← resolved_resolved hcoarser (g.get x), hresolved,
      resolved_resolved hcoarser]

end Gated

/-- Some of the stores are under branches, and each branch waits for the operands of the last of them
on its condition. -/
structure Gates (g : Graph) (done : List Ref) (g' : Graph) (waits : List (Ref × List Ref)) : Prop where
  coarser : ∀ y, g'.resolve (g.resolve y) = g'.resolve y
  kept : ∀ x < g.size, g.resolve x = x → (x ∈ done → (g.op x).kind ≠ .store) →
    g'.get x = g.get x ∧ g'.resolve x = x
  guarded : ∀ {before r after b i v c}, done = before ++ r :: after → r < g.size →
    g.gatedStore? r = some (b, i, v, c) → ∃ branch, g'.Guarded r b i v (g.resolve c) branch ∧
      ((∀ r' ∈ after, ∀ c' ∈ (g.op r').gate?, g.resolve c' ≠ g.resolve c) →
        waits.lookup branch = some [b, i, v])

theorem Gates.start (hg : g.WellFormed) : g.Gates [] g [] where
  coarser := hg.resolve_resolve
  kept _ _ hlive _ := ⟨rfl, hlive⟩
  guarded hsplit := absurd hsplit.symm (List.append_ne_nil_of_right_ne_nil _ (List.cons_ne_nil _ _))

section Step

variable {done : List Ref} (hg : g.Sound) (h : g.Gates done g' waits) (hr : r < g.size)
  (hgate : ∀ c ∈ (g.op r).gate?, (g.op c).kind ≠ .store)

include hg h hr hgate

theorem Gates.gate_eq (hc : c ∈ (g.op r).gate?) :
    g'.get c = g.get c ∧ g'.resolve c = g.resolve c := by
  have hlt : c < g.size := hg.source_lt hr (Op.mem_sources_of_gate? hc)
  have hkind : (g.op (g.resolve c)).kind ≠ .store := by
    rw [op, get_resolve hg.wellFormed, ← op]
    exact hgate c hc
  obtain ⟨hget, hresolve⟩ := h.kept (g.resolve c) (hg.wellFormed.resolve_lt hlt)
    (hg.wellFormed.resolve_resolve c) fun _ => hkind
  rw [get, h.coarser, ← get, get_resolve hg.wellFormed] at hget
  exact ⟨hget, (h.coarser c).symm.trans hresolve⟩

variable (hlive : g.resolve r = r) (hnew : r ∉ done)

include hlive hnew

theorem Gates.gatedStore?_eq : g'.gatedStore? r = g.gatedStore? r := by
  have hget := (h.kept r hr hlive fun hdone => absurd hdone hnew).1
  have hgate_eq := fun c => h.gate_eq hg hr hgate (c := c)
  rw [gatedStore?, gatedStore?, op, hget, ← op]
  cases hop : g.op r with
  | store b i v gate =>
    rw [hop] at hgate_eq
    cases gate with
    | none => rfl
    | some c =>
      dsimp only
      rw [dtype, (hgate_eq c rfl).1, ← dtype]
  | _ => rfl

theorem Gates.step (hg' : g'.Sound) (hsize : g.size ≤ g'.size) :
    g.Gates (done ++ [r]) (g'.branchStore waits r).1 (g'.branchStore waits r).2 := by
  have heq := h.gatedStore?_eq hg hr hgate hlive hnew
  have hlt : r < g'.size := Nat.lt_of_lt_of_le hr hsize
  cases hgated : g'.gatedStore? r with
  | none =>
    have hsame : g'.branchStore waits r = (g', waits) := by rw [branchStore, hgated]
    rw [hsame]
    refine ⟨h.coarser, fun x hx hl hd => h.kept x hx hl fun hm => hd (List.mem_append_left _ hm),
      fun hsplit hlt hx => ?_⟩
    rcases concat_eq_append_cons hsplit with ⟨-, rfl, -⟩ | ⟨after', rfl, hdone⟩
    · rw [← heq, hgated] at hx
      cases hx
    · obtain ⟨branch, hguarded, hlast⟩ := h.guarded hdone hlt hx
      exact ⟨branch, hguarded, fun hfree => hlast fun r' hr' => hfree r' (List.mem_append_left _ hr')⟩
  | some parts =>
    obtain ⟨b, i, v, c⟩ := parts
    have hop : g.op r = .store b i v (some c) := (gatedStore?_eq_some (heq ▸ hgated)).1
    have hc : c ∈ (g.op r).gate? := by rw [hop]; rfl
    obtain ⟨branch, hwaits, hguarded, hcoarser, hother⟩ := branchStore_gated hg' hlt hgated waits
    rw [(h.gate_eq hg hr hgate hc).2] at hguarded
    refine ⟨fun y => ?_, fun x hx hl hd => ?_, fun {before x after b' i' v' c'} hsplit hxlt hx => ?_⟩
    · rw [← hcoarser, h.coarser, hcoarser]
    · obtain ⟨hget, hresolve⟩ := h.kept x hx hl fun hm => hd (List.mem_append_left _ hm)
      have hxr : g'.resolve x ≠ g'.resolve r := by
        rw [hresolve, (h.kept r hr hlive fun hdone => absurd hdone hnew).2]
        rintro rfl
        exact hd (List.mem_append_right _ List.mem_cons_self) (by rw [hop]; rfl)
      obtain ⟨hget', hresolve'⟩ := hother x (Nat.lt_of_lt_of_le hx hsize) hxr
      exact ⟨hget'.trans hget, hresolve'.trans hresolve⟩
    rw [hwaits]
    rcases concat_eq_append_cons hsplit with ⟨-, rfl, rfl⟩ | ⟨after', rfl, hdone⟩
    · rw [← heq, hgated] at hx
      cases hx
      exact ⟨branch, hguarded, fun _ => (lookup_insertKey ..).trans List.lookup_cons_self⟩
    · obtain ⟨branch', hguarded', hlast⟩ := h.guarded hdone hxlt hx
      have hstays : (g'.branchStore waits r).1.Guarded x b' i' v' (g.resolve c') branch' :=
        hguarded'.branchStore hg' hlt hgated (Nat.lt_of_lt_of_le hxlt hsize)
      refine ⟨branch', hstays, fun hfree => ?_⟩
      rw [lookup_insertKey, List.lookup_cons, beq_false_of_ne]
      · exact hlast fun r' hr' => hfree r' (List.mem_append_left _ hr')
      · rintro rfl
        have hcond := Op.branch.inj (congrArg Instr.op (hguarded.holds.unique hstays.holds))
        exact hfree r (List.mem_append_right _ List.mem_cons_self) c hc hcond

end Step

/-- Every store under `sink` that is gated on a condition is put under a branch on that condition, with
its other operands as they were, up to stores that turn out to be the same. The branch waits for these
operands unless a later store has the same condition: it waits for the last store on its condition
alone. -/
theorem insertBranches_guards (hg : g.Sound) (hsink : sink < g.size)
    (hgate : ∀ r ∈ g.order sink, ∀ c ∈ (g.op r).gate?, (g.op c).kind ≠ .store)
    {before after : List Ref} {b i v c : Ref} (hsplit : g.order sink = before ++ r :: after)
    (hgated : g.gatedStore? r = some (b, i, v, c)) :
    ∃ branch, (g.insertBranches sink).1.Guarded r b i v (g.resolve c) branch ∧
      ((∀ r' ∈ after, ∀ c' ∈ (g.op r').gate?, g.resolve c' ≠ g.resolve c) →
        (g.insertBranches sink).2.lookup branch = some [b, i, v]) := by
  have hrun : g.Gates (g.order sink) (g.insertBranches sink).1 (g.insertBranches sink).2 := by
    refine insertBranches_induction hg hsink (Gates.start hg.wellFormed)
      fun done r rest g' waits hsplit hg' hsize h => ?_
    have hr : r ∈ g.order sink := hsplit ▸ List.mem_append_right done List.mem_cons_self
    have hnodup := g.nodup_order sink
    rw [hsplit, List.nodup_append] at hnodup
    exact h.step hg (hg.order_lt hsink hr) (hgate r hr) (hg.resolve_order hsink r hr)
      (fun hdone => hnodup.2.2 r hdone r List.mem_cons_self rfl) hg' hsize
  have hr : r ∈ g.order sink := hsplit ▸ List.mem_append_right before List.mem_cons_self
  exact hrun.guarded hsplit (hg.order_lt hsink hr) hgated

/-- Two stores on one condition. -/
def twoStores : Graph :=
  [⟨.defineGlobal 0, .pointer .int32 .global none⟩, ⟨.defineGlobal 1, .pointer .int32 .global none⟩,
    ⟨.const (.int 0), .index⟩, ⟨.const (.bool true), .bool⟩, ⟨.const (.int 7), .int32⟩,
    ⟨.const (.int 9), .int32⟩, ⟨.store 0 2 4 (some 3), .void⟩, ⟨.store 1 2 5 (some 3), .void⟩,
    ⟨.sink [6, 7], .void⟩].foldl (fun g n => (g.insert n).2) {}

theorem insertBranches_guards_twoStores :
    (∃ branch, (twoStores.insertBranches 8).1.Guarded 6 0 2 4 3 branch) ∧
      ∃ branch, (twoStores.insertBranches 8).1.Guarded 7 1 2 5 3 branch ∧
        (twoStores.insertBranches 8).2.lookup branch = some [1, 2, 5] := by
  have hbuilt : twoStores.Built := by
    refine .insert (.insert (.insert (.insert (.insert (.insert (.insert (.insert (.insert .empty
      ?_) ?_) ?_) ?_) ?_) ?_) ?_) ?_) ?_
    all_goals decide +kernel
  have hsink : 8 < twoStores.size := by decide +kernel
  have hgate : ∀ r ∈ twoStores.order 8, ∀ c ∈ (twoStores.op r).gate?,
      (twoStores.op c).kind ≠ .store := by decide +kernel
  have hfirst : twoStores.order 8 = [0, 2, 4, 3] ++ 6 :: [1, 5, 7, 8] := by decide +kernel
  have hlast : twoStores.order 8 = [0, 2, 4, 3, 6, 1, 5] ++ 7 :: [8] := by decide +kernel
  obtain ⟨branch, hguarded, -⟩ := insertBranches_guards hbuilt.sound hsink hgate hfirst
    (show _ = some (0, 2, 4, 3) by decide +kernel)
  obtain ⟨branch', hguarded', hwaits⟩ := insertBranches_guards hbuilt.sound hsink hgate hlast
    (show _ = some (1, 2, 5, 3) by decide +kernel)
  exact ⟨⟨branch, hguarded⟩, branch', hguarded', hwaits (by decide +kernel)⟩

end Graph

end LazyTensor

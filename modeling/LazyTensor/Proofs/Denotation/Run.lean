import LazyTensor.Proofs.Buffer
import LazyTensor.Proofs.Denotation.Elements

/-!
# What a schedule does to memory

An item is carried out by the meaning of its tree: its slots hold what its buffers hold before it,
and every store writes its elements one after the other. The items of a schedule follow each other.
-/

namespace LazyTensor

namespace Memory

def slots (m : Memory) (buffers : List BufferId) (slot : Nat) (position : Int) : Option Value :=
  buffers[slot]?.bind fun id => m.element id position

def allocate (m : Memory) (id : BufferId) : Option Memory := do
  let b ← m.get? id
  return m.set id (← b.allocate.toOption)

def put (m : Memory) (id : BufferId) (position : Int) (v : Value) : Option Memory := do
  let b ← m.get? id
  return m.set id (← (b.writeElement position v).toOption)

def values (m : Memory) (id : BufferId) : Option (List Value) :=
  (m.get? id).bind fun b => (List.range b.size).mapM fun k : Nat => m.element id k

end Memory

section Run

variable [Width]

def Layout.write (l : Layout) (id : BufferId) (get : List Int → Option Value) (m : Memory)
    (coords : List Int) : Option Memory :=
  match l.index coords with
  | some position => do m.put id position (← get coords)
  | none => some m

/-- Carries out the store at a place of a tree whose slots hold `args`. -/
def Expr.runStore (e : Expr) (args : Nat → Int → Option Value) (buffers : List BufferId)
    (m : Memory) (i : Nat) : Option Memory :=
  match (e.node i).op with
  | .store slot l a => do
    let id ← buffers[slot]?
    (coordinates (dimsOf l.shape)).foldlM (l.write id (e.elements args a).get) (← m.allocate id)
  | _ => none

def ScheduleItem.run (i : ScheduleItem) (m : Memory) : Option Memory :=
  i.tree.stores.foldlM (i.tree.runStore (m.slots i.buffers) i.buffers) m

def Schedule.run (schedule : Schedule) (m : Memory) : Option Memory :=
  schedule.items.foldlM (fun m i => i.run m) m

end Run

/-! ### Memory by its buffers -/

namespace Memory

variable {m m' : Memory} {id other : BufferId} {b : Buffer} {type : ScalarType}

theorem get?_set_self (h : m.get? id = some b) (b' : Buffer) : (m.set id b').get? id = some b' := by
  have hlt : id < m.buffers.size := (Array.getElem?_eq_some_iff.mp h).1
  rw [get?, set, Array.getElem?_setIfInBounds, if_pos rfl, if_pos hlt]

theorem get?_set_of_ne (hne : other ≠ id) (b' : Buffer) : (m.set id b').get? other = m.get? other := by
  rw [get?, set, Array.getElem?_setIfInBounds, if_neg hne.symm]
  rfl

theorem element_congr (h : m'.get? id = m.get? id) (position : Int) :
    m'.element id position = m.element id position := by
  rw [element, element, h]

theorem element_of_get? (h : m.get? id = some b) (position : Int) :
    m.element id position = (b.readElement position).toOption := by
  rw [element, h, Option.bind_some]

theorem values_eq (h : m.get? id = some b) :
    m.values id = (List.range b.size).mapM fun k : Nat => m.element id k := by
  rw [values, h, Option.bind_some]

theorem exists_allocate (h : m.get? id = some b) (hdtype : b.dtype = .scalar type)
    (hdevice : b.device = .cpu) (hdata : b.data = none) :
    ∃ m' b', m.allocate id = some m' ∧ m'.get? id = some b' ∧ b'.Filled type ∧ b'.size = b.size ∧
      ∀ other, other ≠ id → m'.get? other = m.get? other := by
  obtain ⟨b', hallocate, hfilled, hsize⟩ := Buffer.exists_allocate hdtype hdevice hdata
  refine ⟨m.set id b', b', ?_, get?_set_self h b', hfilled, hsize,
    fun other hne => get?_set_of_ne hne b'⟩
  simp only [allocate, h, Option.bind_eq_bind, Option.bind_some, hallocate]
  rfl

theorem set_set (m : Memory) (id : BufferId) (b b' : Buffer) :
    (m.set id b).set id b' = m.set id b' := by
  rw [set, set, set, Array.setIfInBounds_setIfInBounds]

theorem allocate_eq_self (h : m.get? id = some b) (hallocated : b.isAllocated = true) :
    m.allocate id = some m := by
  have hset : m.set id b = m := by
    obtain ⟨hlt, hget⟩ := Array.getElem?_eq_some_iff.mp h
    rw [set, ← hget, Array.setIfInBounds_def, dif_pos hlt, Array.set_getElem_self]
  rw [allocate, h, Option.bind_eq_bind, Option.bind_some, Buffer.allocate, if_pos hallocated]
  exact congrArg some hset

theorem allocate_of_allocate (h : m.allocate id = some m') : m'.allocate id = some m' := by
  obtain ⟨b, hb, h⟩ := Option.bind_eq_some_iff.mp h
  obtain ⟨b', hb', h⟩ := Option.bind_eq_some_iff.mp h
  obtain rfl : m.set id b' = m' := Option.some.inj h
  have hagain : b'.allocate = .ok b' := by
    rw [Buffer.allocate] at hb' ⊢
    split at hb'
    next hallocated =>
      obtain rfl : b = b' := Option.some.inj hb'
      exact if_pos hallocated
    next =>
      cases hname : allocatorName b.device with
      | error e =>
        rw [hname] at hb'
        cases hb'
      | ok name =>
        rw [hname] at hb'
        obtain rfl := Option.some.inj hb'
        rfl
  rw [allocate, get?_set_self hb b', Option.bind_eq_bind, Option.bind_some, hagain]
  exact congrArg some (set_set m id b' b')

theorem exists_put (h : m.get? id = some b) (hfilled : b.Filled type)
    (hplain : (DType.scalar type).IsPlain) {position : Int} (hlow : 0 ≤ position)
    (hhigh : position < b.size) {v : Value} (hv : v.HasType (.scalar type)) :
    ∃ m' b', m.put id position v = some m' ∧ m'.get? id = some b' ∧ b'.Filled type ∧
      b'.size = b.size ∧ m'.element id position = some v ∧
      (∀ other, 0 ≤ other → other ≠ position → m'.element id other = m.element id other) ∧
      ∀ other, other ≠ id → m'.get? other = m.get? other := by
  obtain ⟨b', hwrite, hfilled', hsize, hself, hothers⟩ :=
    hfilled.writeElement hlow hhigh hplain (show v.castTo type = some v from hv)
  have hget := get?_set_self h b'
  refine ⟨m.set id b', b', ?_, hget, hfilled', hsize, ?_, fun other _ hne => ?_,
    fun other hne => get?_set_of_ne hne b'⟩
  · simp only [put, h, Option.bind_eq_bind, Option.bind_some, hwrite]
    rfl
  · rw [element_of_get? hget, hself]
    rfl
  · rw [element_of_get? hget, element_of_get? h, hothers other hne]

section Put

variable {p q : Int} {v w : Value}

theorem put_eq (h : m.get? id = some b) :
    m.put id p v = (b.writeElement p v).toOption.map (m.set id) := by
  rw [put, h, Option.bind_eq_bind, Option.bind_some]
  cases (b.writeElement p v).toOption <;> rfl

theorem put_comm (hne : p ≠ q) :
    (m.put id p v).bind (fun m => m.put id q w) = (m.put id q w).bind fun m => m.put id p v := by
  cases hb : m.get? id with
  | none => simp only [put, hb, Option.bind_eq_bind, Option.bind_none]
  | some b =>
    have hput : ∀ b' position u, (m.set id b').put id position u
        = (b'.writeElement position u).toOption.map (m.set id) := by
      intro b' position u
      rw [put_eq (get?_set_self hb b')]
      exact congrArg (Option.map · _) (funext fun b'' => set_set m id b' b'')
    rw [put_eq hb, put_eq hb, Option.bind_map, Option.bind_map]
    calc (b.writeElement p v).toOption.bind (fun b' => (m.set id b').put id q w)
        = ((b.writeElement p v).toOption.bind fun b' => (b'.writeElement q w).toOption).map
            (m.set id) := by simp only [hput, Option.map_bind, Function.comp_def]
      _ = ((b.writeElement q w).toOption.bind fun b' => (b'.writeElement p v).toOption).map
            (m.set id) := by rw [Buffer.writeElement_comm hne]
      _ = (b.writeElement q w).toOption.bind (fun b' => (m.set id b').put id p v) := by
          simp only [hput, Option.map_bind, Function.comp_def]

theorem element_of_put (h : m.put id p v = some m') (hne : other ≠ id ∨ q ≠ p) :
    m'.element other q = m.element other q := by
  cases hb : m.get? id with
  | none =>
    rw [put, hb] at h
    cases h
  | some b =>
    rw [put_eq hb] at h
    obtain ⟨b', hb', rfl⟩ := Option.map_eq_some_iff.mp h
    by_cases hid : other = id
    · subst hid
      rw [element_of_get? (get?_set_self hb b'), element_of_get? hb,
        Buffer.readElement_of_writeElement hb' (hne.resolve_left (not_not.mpr rfl))]
    · exact element_congr (get?_set_of_ne hid b') q

end Put

theorem exists_fill (hplain : (DType.scalar type).IsPlain) {step : Memory → Nat → Option Memory}
    {value : Nat → Value} {n : Nat}
    (hstep : ∀ m : Memory, ∀ k < n, step m k = m.put id k (value k))
    (htype : ∀ k < n, (value k).HasType (.scalar type)) (h : m.get? id = some b)
    (hfilled : b.Filled type) (hn : n ≤ b.size) :
    ∃ m' b', (List.range n).foldlM step m = some m' ∧ m'.get? id = some b' ∧ b'.Filled type ∧
      b'.size = b.size ∧ (∀ k < n, m'.element id k = some (value k)) ∧
      ∀ other, other ≠ id → m'.get? other = m.get? other := by
  induction n with
  | zero => exact ⟨m, b, rfl, h, hfilled, rfl, nofun, fun _ _ => rfl⟩
  | succ n ih =>
    obtain ⟨m₁, b₁, hrun, hget, hfilled₁, hsize, hheld, hothers⟩ :=
      ih (fun m k hk => hstep m k (by omega)) (fun k hk => htype k (by omega)) (by omega)
    obtain ⟨m₂, b₂, hput, hget₂, hfilled₂, hsize₂, hself, hkept, hothers₂⟩ :=
      exists_put hget hfilled₁ hplain (Int.natCast_nonneg n) (by omega) (htype n (by omega))
    refine ⟨m₂, b₂, ?_, hget₂, hfilled₂, hsize₂.trans hsize, fun k hk => ?_,
      fun other hne => (hothers₂ other hne).trans (hothers other hne)⟩
    · rw [List.range_succ, List.foldlM_append, hrun]
      show (do let m ← step m₁ n; [].foldlM step m) = _
      rw [hstep m₁ n (by omega), hput]
      rfl
    · by_cases hlast : k = n
      · rw [hlast, hself]
      · rw [hkept k (Int.natCast_nonneg k) (by omega), hheld k (by omega)]

end Memory

/-! ### Items -/

theorem ScheduleItem.exists_run [Width] {i : ScheduleItem} {m : Memory} {b : Buffer}
    {type : ScalarType} {store : Layout} {dims : List Int} {j x : Nat} (value : Nat → Value)
    (hstores : i.tree.stores = [j]) (hop : (i.tree.node j).op = .store 0 store x)
    (hdims : dimsOf store.shape = dims) (hpos : ∀ d ∈ dims, 0 < d)
    (hindex : ∀ coords, InShape dims coords → store.index coords = some (ravel dims coords))
    (hvalue : ∀ k < (product dims).toNat,
      (i.tree.elements (m.slots i.buffers) x).get (unravel dims k) = some (value k))
    (htype : ∀ k < (product dims).toNat, (value k).HasType (.scalar type))
    (hplain : (DType.scalar type).IsPlain) (hb : m.get? i.output = some b)
    (hdtype : b.dtype = .scalar type) (hdevice : b.device = .cpu) (hdata : b.data = none)
    (hsize : b.size = (product dims).toNat) :
    ∃ m' b', i.run m = some m' ∧ m'.get? i.output = some b' ∧ b'.Filled type ∧ b'.size = b.size ∧
      (∀ k < (product dims).toNat, m'.element i.output k = some (value k)) ∧
      ∀ other, other ≠ i.output → m'.get? other = m.get? other := by
  obtain ⟨m₁, b₁, hallocate, hb₁, hfilled, hsize₁, hothers⟩ :=
    Memory.exists_allocate hb hdtype hdevice hdata
  have hstep : ∀ m' : Memory, ∀ k < (product dims).toNat,
      store.write i.output (i.tree.elements (m.slots i.buffers) x).get m' (unravel dims k)
        = m'.put i.output k (value k) := by
    intro m' k hk
    have hravel : ravel dims (unravel dims k) = k :=
      ravel_unravel (fun d hd => (hpos d hd).le) (Int.natCast_nonneg k) (by omega)
    simp only [Layout.write, hindex _ (inShape_unravel hpos k), hravel, hvalue k hk,
      Option.bind_eq_bind, Option.bind_some]
  obtain ⟨m₂, b₂, hrun, hb₂, hfilled₂, hsize₂, hheld, hothers₂⟩ :=
    Memory.exists_fill hplain hstep htype hb₁ hfilled (by omega)
  refine ⟨m₂, b₂, ?_, hb₂, hfilled₂, hsize₂.trans hsize₁, hheld,
    fun other hne => (hothers₂ other hne).trans (hothers other hne)⟩
  have hstore : i.tree.runStore (m.slots i.buffers) i.buffers m j = some m₂ := by
    simp only [Expr.runStore, hop, hdims, ScheduleItem.buffers, List.getElem?_cons_zero, hallocate,
      Option.bind_eq_bind, Option.bind_some, coordinates, List.foldlM_map]
    exact hrun
  rw [run, hstores, List.foldlM_cons, hstore]
  rfl

end LazyTensor

import LazyTensor.Machine.Run
import LazyTensor.Proofs.Except

/-!
# What a run leaves alone

A run fills the storage of buffers and does nothing else to them: each stays on its device, with its
type and size. It complains about its arguments before it starts or not at all.
-/

namespace LazyTensor

/-! ### Frames -/

def Buffer.frame (b : Buffer) : Buffer := { b with data := none }

variable {b b' : Buffer}

theorem Buffer.dtype_eq_of_frame (h : b'.frame = b.frame) : b'.dtype = b.dtype := by
  cases b
  cases b'
  cases h
  rfl

namespace Memory

variable {m m' m'' : Memory} {id : BufferId} {b b' : Buffer} {written : BufferId → Prop}

/-- Every buffer stays what it is, apart from what it holds. -/
def SameFrames (m m' : Memory) : Prop :=
  ∀ id, (m'.get? id).map Buffer.frame = (m.get? id).map Buffer.frame

theorem SameFrames.refl (m : Memory) : m.SameFrames m := fun _ => rfl

theorem SameFrames.trans (h : m.SameFrames m') (h' : m'.SameFrames m'') : m.SameFrames m'' :=
  fun id => (h' id).trans (h id)

theorem SameFrames.exists_frame (h : m.SameFrames m') (hb : m.get? id = some b) :
    ∃ b', m'.get? id = some b' ∧ b'.frame = b.frame := by
  have hframe := h id
  rw [hb, Option.map_some, Option.map_eq_some_iff] at hframe
  exact hframe

/-- Buffers stay what they are, apart from what they hold. One that has storage keeps it, and what it
holds too unless it is written. -/
structure Alters (written : BufferId → Prop) (m m' : Memory) : Prop where
  sameFrames : m.SameFrames m'
  kept : ∀ id b, ¬ written id → m.get? id = some b → b.isAllocated = true → m'.get? id = some b
  allocated : ∀ id b, m.get? id = some b → b.isAllocated = true →
    ∃ b', m'.get? id = some b' ∧ b'.isAllocated = true

theorem Alters.refl (written : BufferId → Prop) (m : Memory) : m.Alters written m :=
  ⟨.refl m, fun _ _ _ hb _ => hb, fun _ b hb halloc => ⟨b, hb, halloc⟩⟩

theorem Alters.trans (h : m.Alters written m') (h' : m'.Alters written m'') :
    m.Alters written m'' := by
  refine ⟨h.sameFrames.trans h'.sameFrames, ?_, ?_⟩
  · intro id b hid hb halloc
    exact h'.kept id b hid (h.kept id b hid hb halloc) halloc
  · intro id b hb halloc
    obtain ⟨b', hb', halloc'⟩ := h.allocated id b hb halloc
    exact h'.allocated id b' hb' halloc'

theorem Alters.mono {written' : BufferId → Prop} (h : m.Alters written m')
    (hle : ∀ id, written id → written' id) : m.Alters written' m' :=
  ⟨h.sameFrames, fun id b hid => h.kept id b fun hwritten => hid (hle id hwritten), h.allocated⟩

theorem alters_of_get (h : m.get? id = some b)
    (hget : ∀ other, m'.get? other = if id = other then some b' else m.get? other)
    (hframe : b'.frame = b.frame)
    (hkept : b.isAllocated = true → b'.isAllocated = true ∧ (written id ∨ b' = b)) :
    m.Alters written m' := by
  refine ⟨fun other => ?_, fun other c hother hc halloc => ?_, fun other c hc halloc => ?_⟩
  all_goals
    rw [hget]
    by_cases heq : id = other
  · subst heq
    rw [if_pos rfl, h, Option.map_some, Option.map_some, hframe]
  · rw [if_neg heq]
  · subst heq
    obtain rfl := Option.some.inj (h.symm.trans hc)
    rw [if_pos rfl, (hkept halloc).2.resolve_left hother]
  · rwa [if_neg heq]
  · subst heq
    obtain rfl := Option.some.inj (h.symm.trans hc)
    exact ⟨b', if_pos rfl, (hkept halloc).1⟩
  · exact ⟨c, by rwa [if_neg heq], halloc⟩

theorem get?_set (h : m.get? id = some b) (other : BufferId) :
    (m.set id b').get? other = if id = other then some b' else m.get? other := by
  have hlt : id < m.buffers.size := (Array.getElem?_eq_some_iff.mp h).1
  rw [get?, set, Array.getElem?_setIfInBounds, if_pos hlt]
  rfl

theorem get?_write (m : Memory) (id : BufferId) (start : Nat) (bytes : List UInt8) (other : BufferId) :
    (m.write id start bytes).get? other
      = if id = other then (m.get? id).map (·.write start bytes) else m.get? other := by
  rw [get?, write, Array.getElem?_modify]
  split
  next heq =>
    subst heq
    rfl
  next => rfl

theorem alters_write (m : Memory) (hid : written id) (start : Nat) (bytes : List UInt8) :
    m.Alters written (m.write id start bytes) := by
  have hget := get?_write m id start bytes
  cases h : m.get? id with
  | none =>
    have hsame : ∀ other, (m.write id start bytes).get? other = m.get? other := by
      intro other
      rw [hget, h]
      split
      next heq => rw [← heq, h, Option.map_none]
      next => rfl
    refine ⟨fun other => by rw [hsame], fun other c _ hc _ => ?_, fun other c hc halloc => ?_⟩
    · rwa [hsame]
    · exact ⟨c, by rwa [hsame], halloc⟩
  | some b =>
    rw [h, Option.map_some] at hget
    refine alters_of_get h hget rfl fun halloc => ⟨?_, .inl hid⟩
    rw [Buffer.isAllocated] at halloc ⊢
    rw [Buffer.write, Option.isSome_map]
    exact halloc

end Memory

theorem Buffer.allocate_eq_ok (h : b.allocate = .ok b') :
    b'.frame = b.frame ∧ b'.isAllocated = true ∧ (b.isAllocated = true → b' = b) := by
  rw [allocate] at h
  split at h
  next halloc =>
    cases h
    exact ⟨rfl, halloc, fun _ => rfl⟩
  next halloc =>
    obtain ⟨name, -, rfl⟩ := map_eq_ok h
    exact ⟨rfl, rfl, fun h => absurd h halloc⟩

/-- The complaint is about the arguments of a kernel. -/
def MachineError.isArgument : MachineError → Bool
  | argumentCount .. | argumentType .. => true
  | _ => false

def Kernel.slots (k : Kernel) (buffers : List BufferId) : List (Nat × BufferId) :=
  ((k.globals.zip buffers).map fun x => (x.1.slot, x.2)).reverse

namespace Machine

/-! ### Actions that spare buffers -/

section Calculus

variable {α β γ : Type} {written : BufferId → Prop} {fails : MachineError → Prop} {s : State}
  {act : RunM α} {f : α → RunM β} {e : Except MachineError α} {l : List γ}

theorem run_bind (act : RunM α) (f : α → RunM β) (s : State) :
    (act >>= f).run.run s = match act.run.run s with
      | (.ok a, s') => (f a).run.run s'
      | (.error e, s') => (.error e, s') := by
  rw [ExceptT.run_bind, StateT.run_bind]
  rcases act.run.run s with ⟨_ | a, s'⟩ <;> rfl

/-- Only what some buffers hold changes, and errors are of the given kind. -/
def Spares (written : BufferId → Prop) (fails : MachineError → Prop) (act : RunM α) (s : State) :
    Prop :=
  s.memory.Alters written (act.run.run s).2.memory ∧ ∀ e, (act.run.run s).1 = .error e → fails e

theorem spares_pure (a : α) (s : State) : Spares written fails (pure a) s :=
  ⟨.refl _ _, fun _ => nofun⟩

theorem spares_throw {e : MachineError} (he : fails e) (s : State) :
    Spares written fails (throw e : RunM α) s := by
  refine ⟨.refl _ _, fun e' h => ?_⟩
  cases h
  exact he

theorem spares_bind_of_run (hact : Spares written fails act s)
    (hf : ∀ a s', act.run.run s = (.ok a, s') → Spares written fails (f a) s') :
    Spares written fails (act >>= f) s := by
  rw [Spares] at hact
  rw [Spares, run_bind]
  generalize act.run.run s = result at hact hf ⊢
  obtain ⟨_ | a, s'⟩ := result
  · refine ⟨hact.1, fun e' he => hact.2 e' ?_⟩
    cases he
    rfl
  · obtain ⟨halters, hfails⟩ := hf a s' rfl
    exact ⟨hact.1.trans halters, hfails⟩

theorem spares_bind (hact : Spares written fails act s)
    (hf : ∀ a s', s.memory.Alters written s'.memory → Spares written fails (f a) s') :
    Spares written fails (act >>= f) s := by
  refine spares_bind_of_run hact fun a s' hrun => hf a s' ?_
  have halters := hact.1
  rwa [hrun] at halters

theorem spares_lift_bind (he : ∀ err, e = .error err → fails err)
    (hf : ∀ a, e = .ok a → Spares written fails (f a) s) :
    Spares written fails ((liftM e : RunM α) >>= f) s := by
  cases e with
  | error err => exact spares_throw (he err rfl) s
  | ok a => exact hf a rfl

theorem spares_mapM {f : γ → RunM α}
    (h : ∀ c ∈ l, ∀ s', s.memory.Alters written s'.memory → Spares written fails (f c) s') :
    Spares written fails (l.mapM f) s := by
  induction l generalizing s with
  | nil => exact spares_pure _ s
  | cons c l ih =>
    rw [List.forall_mem_cons] at h
    rw [List.mapM_cons]
    apply spares_bind (h.1 s (.refl _ _))
    intro a s₁ hs₁
    apply spares_bind (ih fun c hc s' hs' => h.2 c hc s' (hs₁.trans hs'))
    intro as s₂ _
    exact spares_pure _ s₂

theorem run_liftMemory (mem : MemoryM α) (s : State) :
    (liftMemory mem).run.run s = ((mem.run.run s.memory).1.mapError .device,
      { s with memory := (mem.run.run s.memory).2 }) := by
  have hget : ∀ f : State → RunM α, (get >>= f).run.run s = (f s).run.run s := fun _ => rfl
  have hmem : mem.run.run s.memory = mem.run s.memory := rfl
  rw [liftMemory, hget, hmem]
  rcases mem.run s.memory with ⟨_ | a, m⟩ <;> rfl

end Calculus

/-! ### Actions that are not about arguments -/

section Keeps

variable {α β γ : Type} {written : BufferId → Prop} {act act' : RunM α} {f : α → RunM β}
  {x : Except MachineError α} {e : MachineError}

/-- If this is an error, then not one about arguments. -/
def Blameless (x : Except MachineError α) : Prop := ∀ e, x = .error e → e.isArgument = false

theorem blameless_ok (a : α) : Blameless (.ok a) := fun _ => nofun

theorem blameless_error (he : e.isArgument = false) :
    Blameless (.error e : Except MachineError α) := by
  rintro _ ⟨⟩
  exact he

theorem Blameless.bind {f : α → Except MachineError β} (hx : Blameless x)
    (hf : ∀ a, Blameless (f a)) : Blameless (x >>= f) :=
  fun e h => (error_of_bind h).elim (hx e) fun ⟨a, ha⟩ => hf a e ha

/-- From every state only what some buffers hold changes, and errors are not about arguments. -/
def Keeps (written : BufferId → Prop) (act : RunM α) : Prop :=
  ∀ s, Spares written (·.isArgument = false) act s

theorem keeps_pure (a : α) : Keeps written (pure a) := spares_pure a

theorem keeps_throw (he : e.isArgument = false) : Keeps written (throw e : RunM α) := spares_throw he

theorem keeps_get_bind {f : State → RunM β} (h : ∀ s, Keeps written (f s)) :
    Keeps written (get >>= f) :=
  fun s => h s s

theorem keeps_modify {update : State → State}
    (h : ∀ s : State, s.memory.Alters written (update s).memory) :
    Keeps written (modify update : RunM PUnit) :=
  fun s => ⟨h s, blameless_ok _⟩

theorem keeps_ite {p : Prop} [Decidable p] (h : Keeps written act) (h' : Keeps written act') :
    Keeps written (if p then act else act') := by
  split
  · exact h
  · exact h'

theorem keeps_lift (hx : Blameless x) : Keeps written (liftM x : RunM α) := by
  cases x with
  | error e => exact keeps_throw (hx e rfl)
  | ok a => exact keeps_pure a

theorem Keeps.bind (hact : Keeps written act) (hf : ∀ a, Keeps written (f a)) :
    Keeps written (act >>= f) :=
  fun s => spares_bind (hact s) fun a s' _ => hf a s'

theorem Keeps.map {g : α → β} (hact : Keeps written act) : Keeps written (g <$> act) :=
  hact.bind fun a => keeps_pure (g a)

theorem keeps_forM {f : γ → RunM PUnit} {l : List γ} (h : ∀ c ∈ l, Keeps written (f c)) :
    Keeps written (l.forM f) := by
  induction l with
  | nil => exact keeps_pure _
  | cons c l ih =>
    rw [List.forall_mem_cons] at h
    exact h.1.bind fun _ => ih h.2

end Keeps

/-! ### Memory -/

theorem run_fetch (id : BufferId) (m : Memory) :
    (Memory.fetch id).run.run m = match m.get? id with
      | some b => (.ok b, m)
      | none => (.error (.notAllocated id), m) := by
  show StateT.run (ExceptT.run (match m.get? id with
    | some b => return b
    | none => throw (.notAllocated id) : MemoryM Buffer)) m = _
  cases m.get? id <;> rfl

theorem alters_ensureAllocated (written : BufferId → Prop) (id : BufferId) (m : Memory) :
    m.Alters written ((Memory.ensureAllocated id).run.run m).2 ∧
      (((Memory.ensureAllocated id).run.run m).1 = .ok () → ∃ b,
        ((Memory.ensureAllocated id).run.run m).2.get? id = some b ∧ b.isAllocated = true) := by
  have hrun : (Memory.ensureAllocated id).run.run m = match m.get? id with
      | some b => match b.allocate with
        | .ok b' => (.ok (), m.set id b')
        | .error e => (.error e, m)
      | none => (.error (.notAllocated id), m) := by
    rw [Memory.ensureAllocated, ExceptT.run_bind, StateT.run_bind, run_fetch]
    cases m.get? id with
    | none => rfl
    | some b =>
      dsimp only
      show StateT.run (ExceptT.run ((liftM b.allocate : MemoryM Buffer) >>= fun b =>
        modify fun m => m.set id b)) m = _
      cases b.allocate <;> rfl
  rw [hrun]
  cases hget : m.get? id with
  | none =>
    refine ⟨.refl written m, fun h => ?_⟩
    cases h
  | some b =>
    dsimp only
    cases hb : b.allocate with
    | error e =>
      refine ⟨.refl written m, fun h => ?_⟩
      cases h
    | ok b' =>
      obtain ⟨hframe, halloc, hsame⟩ := Buffer.allocate_eq_ok hb
      have hset : ∀ other, (m.set id b').get? other = if id = other then some b' else m.get? other :=
        Memory.get?_set hget
      refine ⟨Memory.alters_of_get hget hset hframe fun h => ⟨halloc, .inr (hsame h)⟩, fun _ => ?_⟩
      exact ⟨b', by rw [hset, if_pos rfl], halloc⟩

/-! ### Lookups -/

section Lookups

variable {l : Launch}

theorem blameless_asInt (v : Value) (position : Nat) : Blameless (asInt v position) := by
  rw [asInt]
  split
  · exact blameless_ok _
  · exact blameless_error rfl

theorem blameless_valueOf (l : Launch) (name : String) : Blameless (valueOf l name) := by
  rw [valueOf]
  split
  · exact blameless_ok _
  · exact blameless_error rfl

theorem blameless_defined (l : Launch) (position : Nat) (v : Option Value) :
    Blameless (defined l position v) := by
  cases v with
  | some v => exact blameless_ok v
  | none => exact blameless_error rfl

theorem blameless_endOf (l : Launch) (position : Nat) : Blameless (endOf l position) := by
  rw [endOf]
  split
  · exact blameless_ok _
  · exact blameless_error rfl

theorem bufferOf_eq_ok {position slot : Nat} {r : Ref} {id : BufferId}
    (h : bufferOf l position r = .ok (slot, id)) :
    l.program.opAt r = .defineGlobal slot ∧ l.slots.lookup slot = some id := by
  rw [bufferOf] at h
  split at h
  next slot' hop =>
    split at h
    next id' hid =>
      cases h
      exact ⟨hop, hid⟩
    next => cases h
  next => cases h

theorem blameless_bufferOf (l : Launch) (position : Nat) (r : Ref) :
    Blameless (bufferOf l position r) := by
  rw [bufferOf]
  split
  · split
    · exact blameless_ok _
    · exact blameless_error rfl
  · exact blameless_error rfl

theorem blameless_ofInstrs (is : Array Instr) : Blameless (Program.ofInstrs is) := by
  have hscan : ∀ (p : Program) (i : Instr × Nat), Blameless (p.scan i) := by
    intro p i
    rw [Program.scan]
    split
    any_goals split
    all_goals first | exact blameless_ok _ | exact blameless_error rfl
  have hfold : ∀ (is : List (Instr × Nat)) (p : Program), Blameless (is.foldlM Program.scan p) := by
    intro is
    induction is with
    | nil => exact blameless_ok
    | cons i is ih => exact fun p => (hscan p i).bind ih
  exact hfold _ _

theorem blameless_evalStatic (l : Launch) (depth : Nat) (r : Ref) :
    Blameless (evalStatic l depth r) := by
  induction depth generalizing r with
  | zero => exact blameless_error rfl
  | succ depth ih =>
    rw [evalStatic]
    split
    · exact blameless_ok _
    · exact (blameless_valueOf l _).bind fun _ => blameless_ok _
    · exact (ih _).bind fun _ => blameless_defined l _ _
    · exact (ih _).bind fun _ => blameless_defined l _ _
    · exact (ih _).bind fun _ => (ih _).bind fun _ => blameless_defined l _ _
    · exact blameless_error rfl

theorem blameless_grid (l : Launch) : Blameless (grid l) := by
  have haxis : ∀ position, Blameless (gridAxis? l position) := by
    intro position
    rw [gridAxis?]
    split
    · exact (blameless_evalStatic l _ _).bind fun v =>
        (blameless_asInt v position).bind fun _ => blameless_ok _
    · exact blameless_ok _
  refine Blameless.bind (fun e h => ?_) fun _ => blameless_ok _
  obtain ⟨position, -, h⟩ := exists_of_mapM_error h
  exact haxis position e h

end Lookups

/-! ### Instructions -/

section Actions

variable {written : BufferId → Prop} {l : Launch} {point : List (Nat × Int)} {position : Nat}

theorem keeps_fetch (id : BufferId) : Keeps written (liftMemory (Memory.fetch id)) := by
  intro s
  rw [Spares, run_liftMemory, run_fetch]
  cases s.memory.get? id with
  | none => exact ⟨.refl _ _, blameless_error rfl⟩
  | some b => exact ⟨.refl _ _, blameless_ok b⟩

theorem isArgument_elementError (slot : Nat) (id : BufferId) (b : Buffer) (index : Int)
    (e : ElementError) : (elementError slot id b index e).isArgument = false := by
  cases e <;> rfl

theorem keeps_readElement (slot : Nat) (id : BufferId) (index : Int) :
    Keeps written (readElement slot id index) := by
  refine (keeps_fetch id).bind fun b => ?_
  split
  · exact keeps_pure _
  · exact keeps_throw (isArgument_elementError ..)

theorem keeps_writeElement (slot : Nat) {id : BufferId} (hid : written id) (index : Int)
    (v : Value) : Keeps written (writeElement slot id index v) := by
  refine (keeps_fetch id).bind fun b => ?_
  split
  · exact keeps_modify fun s => s.memory.alters_write hid _ _
  · exact keeps_throw (isArgument_elementError ..)

theorem keeps_register (position : Nat) (r : Ref) : Keeps written (register position r) := by
  refine keeps_get_bind fun s => ?_
  split
  · exact keeps_pure _
  · exact keeps_throw rfl

theorem keeps_intRegister (position : Nat) (r : Ref) : Keeps written (intRegister position r) :=
  (keeps_register position r).bind fun v => keeps_lift (blameless_asInt v position)

theorem keeps_load (buffer index : Ref) : Keeps written (load l position buffer index) :=
  (keeps_lift (blameless_bufferOf l position buffer)).bind fun _ =>
    (keeps_intRegister position index).bind fun _ => keeps_readElement _ _ _

theorem keeps_gatedLoad (buffer index : Ref) (gate : Option (Ref × Ref)) :
    Keeps written (gatedLoad l position buffer index gate) := by
  cases gate with
  | none => exact keeps_load buffer index
  | some gate =>
    refine (keeps_register position gate.1).bind fun _ => ?_
    exact keeps_ite (keeps_load buffer index) (keeps_register position gate.2)

theorem keeps_compute (i : Instr) : Keeps written (compute l point position i) := by
  have hoperand : ∀ r : Ref, Keeps written (register position r) := keeps_register position
  have hresult : ∀ v : Option Value,
      Keeps written ((liftM (defined l position v) : RunM Value) >>= fun v => pure (some v)) :=
    fun v => (keeps_lift (blameless_defined l position v)).bind fun _ => keeps_pure _
  rw [compute]
  split
  · exact keeps_pure _
  · exact (keeps_lift (blameless_valueOf l _)).bind fun _ => keeps_pure _
  · exact keeps_pure _
  · exact keeps_pure _
  · exact (hoperand _).map
  · exact (keeps_gatedLoad _ _ _).map
  · exact (hoperand _).bind fun _ => hresult _
  · exact (hoperand _).bind fun _ => hresult _
  · exact (hoperand _).bind fun _ => (hoperand _).bind fun _ => hresult _
  · exact (hoperand _).bind fun _ => (hoperand _).bind fun _ => (hoperand _).bind fun _ => hresult _
  · exact keeps_pure _

theorem keeps_gateHolds (gate : Option Ref) : Keeps written (gateHolds l position gate) := by
  cases gate with
  | none => exact keeps_pure _
  | some gate =>
    rw [gateHolds]
    split
    · exact keeps_pure _
    · exact (keeps_register position gate).bind fun _ => keeps_pure _

/-- The buffers that some store of a program is bound to. -/
def Launch.MayWrite (l : Launch) (id : BufferId) : Prop :=
  ∃ position buffer index value gate slot, l.program.opAt position = .store buffer index value gate ∧
    l.program.opAt buffer = .defineGlobal slot ∧ l.slots.lookup slot = some id

section

variable (hwritten : ∀ id, l.MayWrite id → written id)

include hwritten

theorem keeps_store {buffer index value : Ref} {gate : Option Ref}
    (hop : l.program.opAt position = .store buffer index value gate) :
    Keeps written (store l position buffer index value) := by
  refine fun s => spares_lift_bind (blameless_bufferOf l position buffer) ?_
  rintro ⟨slot, id⟩ hplace
  obtain ⟨hslot, hid⟩ := bufferOf_eq_ok hplace
  have hwrites := hwritten id ⟨position, buffer, index, value, gate, slot, hop, hslot, hid⟩
  exact ((keeps_intRegister position index).bind fun _ =>
    (keeps_register position value).bind fun _ => keeps_writeElement slot hwrites _ _) s

omit hwritten in
theorem keeps_setRegister (r : Ref) (v : Value) : Keeps written (setRegister r v) :=
  keeps_modify fun s => .refl written s.memory

theorem keeps_step (position : Nat) : Keeps written (step l point position) := by
  have hown : ∀ v (next : Next), Keeps written (do setRegister position v; return next) :=
    fun v next => (keeps_setRegister position v).bind fun _ => keeps_pure next
  rw [step]
  dsimp only
  split
  next =>
    refine (keeps_intRegister position _).bind fun _ => (keeps_intRegister position _).bind fun _ => ?_
    exact keeps_ite ((keeps_lift (blameless_endOf l _)).map.bind fun _ => hown _ _)
      ((keeps_pure _).bind fun _ => hown _ _)
  next range _ =>
    refine (keeps_forM fun w _ => keeps_get_bind fun s => ?_).bind fun _ => ?_
    · split
      · exact keeps_setRegister _ _
      · exact keeps_pure _
    · split
      · refine (keeps_intRegister position range).bind fun _ =>
          (keeps_intRegister position _).bind fun _ => keeps_ite ?_ (keeps_pure _)
        exact (keeps_setRegister range _).bind fun _ => keeps_pure _
      · exact keeps_throw rfl
  next =>
    refine (keeps_register position _).bind fun _ => keeps_ite (keeps_pure _) ?_
    exact (keeps_lift (blameless_endOf l _)).bind fun _ => keeps_pure _
  next buffer index value gate hop =>
    refine (keeps_gateHolds gate).bind fun _ => keeps_ite ?_ (keeps_pure _)
    exact (keeps_store hwritten hop).bind fun _ => keeps_pure _
  next =>
    refine (keeps_compute _).bind fun v => ?_
    split
    · exact hown _ _
    · exact keeps_pure _

/-! ### Runs -/

theorem keeps_forward (fuel position : Nat) : Keeps written (forward l point fuel position) := by
  induction fuel generalizing position with
  | zero => exact keeps_pure _
  | succ fuel ih =>
    refine keeps_ite ((keeps_step hwritten position).bind fun next => ?_) (keeps_pure _)
    split
    · exact ih _
    · exact keeps_pure _

omit hwritten in
theorem keeps_repeatBody {range : Nat} {body : RunM (Option Nat)}
    (hbody : Keeps written body) (count : Nat) :
    Keeps written (repeatBody range body count) := by
  induction count with
  | zero => exact keeps_throw rfl
  | succ count ih =>
    refine hbody.bind fun result => ?_
    split
    · exact keeps_ite ih (keeps_pure _)
    · exact keeps_pure _

theorem keeps_runLoops (loops : List Nat) (position : Nat) :
    Keeps written (runLoops l point loops position) := by
  induction loops generalizing position with
  | nil => exact keeps_forward hwritten _ _
  | cons range inner ih =>
    refine (ih position).bind fun result => ?_
    split
    · refine keeps_ite (((keeps_intRegister range range).bind fun _ => keeps_pure _).bind ?_)
        (keeps_pure _)
      exact keeps_repeatBody (ih (range + 1))
    · exact keeps_pure _

theorem spares_points (s : State) : Spares written (·.isArgument = false)
    ((liftM (grid l) : RunM (List GridAxis)) >>= fun axes =>
      (List.range (product (axes.map (·.size))).toNat).forM fun flat =>
        runPoint l ((axes.map (·.position)).zip (unravel (axes.map (·.size)) flat))) s := by
  have hpoint : ∀ point, Keeps written (runPoint l point) := by
    refine fun point => (keeps_modify ?_).bind fun _ => (keeps_runLoops hwritten _ _).map
    exact fun s => .refl written s.memory
  exact (keeps_lift (blameless_grid l)).bind (fun _ => keeps_forM fun _ _ => hpoint _) s

end

end Actions

/-! ### Arguments -/

theorem run_bindArg {arg : GlobalArg} {id : BufferId} {s s' : State} {x : Nat × BufferId}
    (h : (bindArg arg id).run.run s = (.ok x, s')) :
    x = (arg.slot, id) ∧ ∃ b, s'.memory.get? id = some b ∧ b.isAllocated = true := by
  obtain ⟨b, s₁, -, h⟩ := run_eq_ok_of_bind h
  split at h
  · obtain ⟨u, s₂, hensure, h⟩ := run_eq_ok_of_bind h
    cases h
    rw [run_liftMemory] at hensure
    have hallocated := (alters_ensureAllocated (fun _ => True) id s₁.memory).2
    obtain ⟨hok, rfl⟩ := Prod.mk.inj hensure
    refine ⟨rfl, hallocated ?_⟩
    cases hresult : ((Memory.ensureAllocated id).run.run s₁.memory).1 with
    | error e =>
      rw [hresult] at hok
      cases hok
    | ok u => rfl
  · cases h

section Arguments

variable {written : BufferId → Prop} {fails : MachineError → Prop}
  (hfails : ∀ e, e.isArgument = false → fails e) {s : State}

include hfails

theorem spares_bindArg {arg : GlobalArg} {id : BufferId}
    (htype : ∀ b, s.memory.get? id = some b → b.dtype ≠ arg.dtype → fails (.argumentType arg.slot
      arg.dtype b.dtype)) : Spares written fails (bindArg arg id) s := by
  rw [Spares, bindArg, run_bind, run_liftMemory, run_fetch]
  cases hget : s.memory.get? id with
  | none =>
    refine ⟨.refl _ _, fun e he => ?_⟩
    cases he
    exact hfails _ rfl
  | some b =>
    show Spares written fails (if b.dtype = arg.dtype then do
      liftMemory (Memory.ensureAllocated id)
      return (arg.slot, id)
      else throw (.argumentType arg.slot arg.dtype b.dtype)) s
    split
    · refine spares_bind ?_ fun _ s' _ => spares_pure _ s'
      rw [Spares, run_liftMemory]
      refine ⟨(alters_ensureAllocated written id _).1, fun e he => ?_⟩
      generalize ((Memory.ensureAllocated id).run.run s.memory).1 = result at he
      cases result <;> cases he
      exact hfails _ rfl
    · next hne => exact spares_throw (htype b hget hne) s

omit hfails in
theorem run_bindArgs {xs : List (GlobalArg × BufferId)} {s' : State}
    {slots : List (Nat × BufferId)}
    (h : (xs.mapM fun x => bindArg x.1 x.2).run.run s = (.ok slots, s')) :
    slots = xs.map (fun x => (x.1.slot, x.2)) ∧
      ∀ x ∈ xs, ∃ b, s'.memory.get? x.2 = some b ∧ b.isAllocated = true := by
  induction xs generalizing s slots with
  | nil =>
    cases h
    exact ⟨rfl, nofun⟩
  | cons x xs ih =>
    rw [List.mapM_cons] at h
    obtain ⟨place, s₁, hfirst, h⟩ := run_eq_ok_of_bind h
    obtain ⟨places, s₂, hrest, h⟩ := run_eq_ok_of_bind h
    cases h
    obtain ⟨rfl, b, hb, halloc⟩ := run_bindArg hfirst
    obtain ⟨rfl, hall⟩ := ih hrest
    refine ⟨rfl, List.forall_mem_cons.mpr ⟨?_, hall⟩⟩
    -- The arguments that are bound later leave it its storage.
    have hlater : Spares (fun _ => True) (fun _ => True) (xs.mapM fun x => bindArg x.1 x.2) s₁ :=
      spares_mapM fun x _ s _ => spares_bindArg (fun _ _ => trivial) fun _ _ _ => trivial
    have halters := hlater.1
    rw [hrest] at halters
    exact halters.allocated x.2 b hb halloc

theorem spares_run {k : Kernel} {p : Program} {buffers : List BufferId}
    {vars : List (String × Int)}
    (hcount : buffers.length ≠ k.globals.length → fails (.argumentCount k.name k.globals.length
      buffers.length))
    (htypes : ∀ arg id, (arg, id) ∈ k.globals.zip buffers → ∀ s' : State, s.memory.Alters written
      s'.memory → ∀ b, s'.memory.get? id = some b → b.dtype ≠ arg.dtype → fails (.argumentType
      arg.slot arg.dtype b.dtype))
    (hwritten : ∀ id, Launch.MayWrite { program := p, slots := k.slots buffers, vars } id → written
      id) : Spares written fails (run k p buffers vars) s := by
  rw [run]
  split
  · next hne => exact spares_throw (hcount hne) s
  · refine spares_bind_of_run (spares_mapM fun c hc s' hs' => ?_) fun slots s₁ hslots => ?_
    · exact spares_bindArg hfails fun b hb hne => htypes c.1 c.2 hc s' hs' b hb hne
    · obtain ⟨rfl, -⟩ := run_bindArgs hslots
      exact (spares_points hwritten s₁).imp_right fun h e he => hfails e (h e he)

end Arguments

end Machine

theorem Program.instrs_of_ofInstrs {is : Array Instr} {p : Program} (h : ofInstrs is = .ok p) :
    p.instrs = is := by
  have hscan : ∀ (i : Instr × Nat) (p q : Program), p.scan i = .ok q → q.instrs = p.instrs := by
    intro i p q h
    rw [scan] at h
    split at h
    all_goals
      first
        | split at h <;> cases h <;> rfl
        | cases h; rfl
  have hfold : ∀ (l : List (Instr × Nat)) (p q : Program), l.foldlM scan p = .ok q →
      q.instrs = p.instrs := by
    intro l
    induction l with
    | nil =>
      intro p q h
      cases h
      rfl
    | cons i l ih =>
      intro p q h
      rw [List.foldlM_cons] at h
      obtain ⟨p', hp', h⟩ := bind_eq_ok h
      exact (ih p' q h).trans (hscan i p p' hp')
  exact hfold _ _ _ h

namespace Kernel

variable {k : Kernel} {buffers : List BufferId} {vars : List (String × Int)} {m : Memory}

/-- The buffers that some store of a kernel is bound to when it is launched. -/
def MayWrite (k : Kernel) (buffers : List BufferId) (id : BufferId) : Prop :=
  ∃ position buffer index value gate slot,
    (instrAt k.instrs position).op = .store buffer index value gate ∧
    (instrAt k.instrs buffer).op = .defineGlobal slot ∧ (k.slots buffers).lookup slot = some id

theorem spares_run {written : BufferId → Prop} {fails : MachineError → Prop}
    (hfails : ∀ e, e.isArgument = false → fails e) {s : Machine.State}
    (hcount : buffers.length ≠ k.globals.length →
      fails (.argumentCount k.name k.globals.length buffers.length))
    (htypes : ∀ arg id, (arg, id) ∈ k.globals.zip buffers → ∀ s' : Machine.State,
      s.memory.Alters written s'.memory → ∀ b, s'.memory.get? id = some b → b.dtype ≠ arg.dtype →
        fails (.argumentType arg.slot arg.dtype b.dtype))
    (hwritten : ∀ id, k.MayWrite buffers id → written id) :
    Machine.Spares written fails (k.run buffers vars) s := by
  rw [run]
  refine Machine.spares_lift_bind (fun e he => hfails e (Machine.blameless_ofInstrs k.instrs e he)) ?_
  intro p hp
  have hinstrs := Program.instrs_of_ofInstrs hp
  refine Machine.spares_run hfails hcount htypes fun id hid => hwritten id ?_
  obtain ⟨position, buffer, index, value, gate, slot, hstore, hglobal, hslot⟩ := hid
  rw [Program.opAt, Program.instr, hinstrs] at hstore hglobal
  exact ⟨position, buffer, index, value, gate, slot, hstore, hglobal, hslot⟩

/-- A run changes what buffers hold that its stores are bound to, and nothing else about them. -/
theorem alters_run (k : Kernel) (buffers : List BufferId) (vars : List (String × Int)) (m : Memory) :
    m.Alters (k.MayWrite buffers) ((k.run buffers vars).run.run { memory := m }).2.memory :=
  (spares_run (fun _ _ => trivial) (fun _ => trivial) (fun _ _ _ _ _ _ _ _ => trivial)
    fun _ hid => hid : Machine.Spares (k.MayWrite buffers) (fun _ => True) (k.run buffers vars)
      { memory := m }).1

theorem allocated_of_run (hcount : buffers.length = k.globals.length) {u : Unit} {s' : Machine.State}
    (h : (k.run buffers vars).run.run { memory := m } = (.ok u, s')) {id : BufferId}
    (hid : id ∈ buffers) : ∃ b, s'.memory.get? id = some b ∧ b.isAllocated = true := by
  obtain ⟨p, s₀, -, h⟩ := run_eq_ok_of_bind h
  rw [Machine.run, if_neg (not_not_intro hcount)] at h
  obtain ⟨slots, s₁, hslots, h⟩ := run_eq_ok_of_bind h
  obtain ⟨arg, harg⟩ : ∃ arg, (arg, id) ∈ k.globals.zip buffers := by
    obtain ⟨j, hj, rfl⟩ := List.mem_iff_getElem.mp hid
    refine ⟨k.globals[j], List.mem_iff_getElem.mpr ⟨j, ?_, List.getElem_zip⟩⟩
    rw [List.length_zip]
    omega
  obtain ⟨b, hb, halloc⟩ := (Machine.run_bindArgs hslots).2 _ harg
  have halters := (Machine.spares_points (l := ⟨p, slots.reverse, vars⟩) (fun _ _ => trivial) s₁ :
    Machine.Spares (fun _ => True) _ _ s₁).1
  rw [h] at halters
  exact halters.allocated id b hb halloc

/-- A run on as many buffers as there are arguments, of their types, does not complain about them. -/
theorem isArgument_of_run (hcount : buffers.length = k.globals.length)
    (htypes : ∀ arg id, (arg, id) ∈ k.globals.zip buffers → ∀ b, m.get? id = some b →
      b.dtype = arg.dtype) {e : MachineError}
    (h : ((k.run buffers vars).run.run { memory := m }).1 = .error e) : e.isArgument = false := by
  refine (spares_run (fun _ he => he) (fun hne => absurd hcount hne) ?_ (fun _ _ => trivial) :
    Machine.Spares (fun _ => True) (·.isArgument = false) (k.run buffers vars) { memory := m }).2 e h
  intro arg id harg s' hs' b' hb' hne
  have hframe := hs'.sameFrames id
  rw [hb', Option.map_some, eq_comm, Option.map_eq_some_iff] at hframe
  obtain ⟨b, hb, hframe⟩ := hframe
  have htype := htypes arg id harg b hb
  rw [Buffer.dtype_eq_of_frame hframe] at htype
  exact absurd htype hne

end Kernel

end LazyTensor

import LazyTensor.Proofs.Buffer
import LazyTensor.Proofs.Machine.Outcome

/-!
# Elements that a run reads and writes

A write changes one element of a buffer, which then holds the value brought to the type of the
buffer. Outside the buffer it changes nothing.
-/

namespace LazyTensor.Machine

variable {s : State} {id : BufferId} {b : Buffer} {t : ScalarType}

theorem run_readElement (hb : s.memory.get? id = some b) (slot : Nat) (i : Int) :
    (readElement slot id i).run.run s
      = ((b.readElement i).mapError (elementError slot id b i), s) := by
  rw [readElement, run_bind, run_liftMemory, run_fetch, hb]
  simp only [Except.mapError]
  cases b.readElement i <;> rfl

theorem run_writeElement (hb : s.memory.get? id = some b) (slot : Nat) (i : Int) (v : Value) :
    (writeElement slot id i v).run.run s = match b.encodeElement i v with
      | .ok (start, bytes) => (.ok (), { s with memory := s.memory.write id start bytes })
      | .error e => (.error (elementError slot id b i e), s) := by
  rw [writeElement, run_bind, run_liftMemory, run_fetch, hb]
  show ((match b.encodeElement i v with
    | .ok (start, bytes) => modify fun s => { s with memory := s.memory.write id start bytes }
    | .error e => throw (elementError slot id b i e) : RunM Unit)).run.run s = _
  cases b.encodeElement i v <;> rfl

/-- In a buffer of an integer type or of truth values, a write outside the bounds fails and changes
nothing. Inside, it makes the element what the value is in the type of the buffer, and every other
element reads as before. -/
theorem writeElement_spec (hb : s.memory.get? id = some b) (hfilled : b.Filled t)
    (ht : (DType.scalar t).IsPlain) (slot : Nat) (i : Int) (v : Value) :
    (¬ (0 ≤ i ∧ i < b.size) →
      (writeElement slot id i v).run.run s = (.error (.outOfBounds slot i b.size), s)) ∧
    (0 ≤ i ∧ i < b.size → ∃ w s', v.castTo t = some w ∧
      (writeElement slot id i v).run.run s = (.ok (), s') ∧
      (readElement slot id i).run.run s' = (.ok w, s') ∧
      ∀ j : Int, 0 ≤ j ∧ j < b.size → j ≠ i → ∃ u, (readElement slot id j).run.run s = (.ok u, s) ∧
        (readElement slot id j).run.run s' = (.ok u, s')) := by
  refine ⟨fun hout => ?_, fun hin => ?_⟩
  · rw [run_writeElement hb, Buffer.encodeElement, if_neg (mt Buffer.inBounds_iff.mp hout)]
    rfl
  · obtain ⟨w, hw⟩ : ∃ w, v.castTo t = some w := by
      cases t with
      | void => exact absurd ht (by decide)
      | _ => exact ⟨_, rfl⟩
    obtain ⟨b', hwrite, -, -, hself, hothers⟩ := hfilled.writeElement hin.1 hin.2 ht hw
    rw [run_writeElement hb]
    rw [Buffer.writeElement] at hwrite
    generalize b.encodeElement i v = place at hwrite ⊢
    obtain _ | ⟨start, bytes⟩ := place
    · cases hwrite
    obtain rfl := Except.ok.inj hwrite
    have hb' : (s.memory.write id start bytes).get? id = some (b.write start bytes) := by
      rw [Memory.get?_write, if_pos rfl, hb, Option.map_some]
    refine ⟨w, _, hw, rfl, ?_, fun j hj hne => ?_⟩
    · rw [run_readElement hb', hself]
      rfl
    · obtain ⟨u, hu, -⟩ := hfilled.exists_readElement hj.1 hj.2 ht
      refine ⟨u, ?_, ?_⟩
      · rw [run_readElement hb, hu]
        rfl
      · rw [run_readElement hb', hothers j hne, hu]
        rfl

/-- A byte between two others, for which only a residue of the value is kept. -/
theorem writeElement_spec_int8 :
    ∃ s' : State, (writeElement 0 0 1 (.uint 511)).run.run
        { memory := ⟨#[.ofValues .int8 [.int 5, .int 6, .int 7]]⟩ } = (.ok (), s') ∧
      (readElement 0 0 1).run.run s' = (.ok (.int (-1)), s') ∧
      (readElement 0 0 2).run.run s' = (.ok (.int 7), s') := by
  obtain ⟨b, hb⟩ : ∃ b, Buffer.ofValues .int8 [.int 5, .int 6, .int 7] = b := ⟨_, rfl⟩
  rw [hb]
  have hfilled : b.Filled .int8 := hb ▸ ⟨rfl, _, rfl, rfl⟩
  have hsize : b.size = 3 := hb ▸ rfl
  have hlast : b.readElement 2 = .ok (.int 7) := hb ▸ by decide +kernel
  have hget : ({ memory := ⟨#[b]⟩ } : State).memory.get? 0 = some b := rfl
  obtain ⟨w, s', hw, hwrite, hself, hothers⟩ :=
    (writeElement_spec hget hfilled (by decide) 0 1 (.uint 511)).2 (by rw [hsize]; decide)
  obtain ⟨u, hbefore, hafter⟩ := hothers 2 (by rw [hsize]; decide) (by decide)
  rw [run_readElement hget, hlast] at hbefore
  cases hbefore
  obtain rfl : .int (-1) = w := Option.some.inj hw
  exact ⟨s', hwrite, hself, hafter⟩

end LazyTensor.Machine

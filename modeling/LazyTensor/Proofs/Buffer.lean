import LazyTensor.Buffer
import LazyTensor.Proofs.Value.Bytes

/-!
# Elements of buffers

Writing an element of a buffer makes it the one that is read at its position and leaves every other
element as it was.
-/

namespace LazyTensor.Buffer

/-! ### Bytes -/

@[simp]
theorem size_splice (data : Array UInt8) (start : Nat) (bytes : List UInt8) :
    (splice data start bytes).size = data.size := by
  induction bytes generalizing data start with
  | nil => rfl
  | cons byte bytes ih => rw [splice, ih, Array.size_setIfInBounds]

variable {data : Array UInt8} {start k : Nat} {bytes : List UInt8} {i : Int} {v : Value}

theorem getElem?_splice_of_not_mem (hk : k < start ∨ start + bytes.length ≤ k) :
    (splice data start bytes)[k]? = data[k]? := by
  induction bytes generalizing data start with
  | nil => rfl
  | cons byte bytes ih =>
    rw [List.length_cons] at hk
    rw [splice, ih (by omega), Array.getElem?_setIfInBounds, if_neg (by omega)]

theorem getElem?_splice_of_mem (hk : k < bytes.length) (hsize : start + bytes.length ≤ data.size) :
    (splice data start bytes)[start + k]? = bytes[k]? := by
  induction bytes generalizing data start k with
  | nil => simp at hk
  | cons byte bytes ih =>
    rw [List.length_cons] at hk hsize
    rw [splice]
    cases k with
    | zero =>
      show (splice _ _ bytes)[start]? = _
      rw [getElem?_splice_of_not_mem (.inl (Nat.lt_succ_self start)),
        Array.getElem?_setIfInBounds, if_pos rfl, if_pos (by omega)]
      rfl
    | succ k =>
      rw [show start + (k + 1) = start + 1 + k by omega,
        ih (by omega) (by rw [Array.size_setIfInBounds]; omega), List.getElem?_cons_succ]

theorem extract_splice_self (hsize : start + bytes.length ≤ data.size) :
    ((splice data start bytes).extract start (start + bytes.length)).toList = bytes := by
  apply List.ext_getElem?
  intro k
  rw [Array.getElem?_toList, Array.getElem?_extract, size_splice]
  by_cases hk : k < bytes.length
  · rw [if_pos (by omega), getElem?_splice_of_mem hk hsize]
  · rw [if_neg (by omega), List.getElem?_eq_none (Nat.le_of_not_lt hk)]

theorem extract_splice_of_disjoint {first stop : Nat}
    (hdisjoint : stop ≤ start ∨ start + bytes.length ≤ first) :
    (splice data start bytes).extract first stop = data.extract first stop := by
  apply Array.ext_getElem?
  intro k
  rw [Array.getElem?_extract, Array.getElem?_extract, size_splice]
  split
  · exact getElem?_splice_of_not_mem (by omega)
  · rfl

theorem splice_setIfInBounds (byte : UInt8) (hk : k < start ∨ start + bytes.length ≤ k) :
    splice (data.setIfInBounds k byte) start bytes = (splice data start bytes).setIfInBounds k byte := by
  induction bytes generalizing data start with
  | nil => rfl
  | cons first bytes ih =>
    rw [List.length_cons] at hk
    rw [splice, splice, Array.setIfInBounds_comm _ _ (by omega : k ≠ start), ih (by omega)]

theorem splice_comm {start' : Nat} {bytes' : List UInt8}
    (hdisjoint : start + bytes.length ≤ start' ∨ start' + bytes'.length ≤ start) :
    splice (splice data start bytes) start' bytes' = splice (splice data start' bytes') start bytes := by
  induction bytes generalizing data start with
  | nil => rfl
  | cons byte bytes ih =>
    rw [List.length_cons] at hdisjoint
    rw [splice, splice, ih (by omega), splice_setIfInBounds byte (by omega)]

/-! ### Elements of any type -/

variable {b b' : Buffer} {j : Int} {w : Value}

theorem inBounds_iff : b.inBounds i = true ↔ 0 ≤ i ∧ i < b.size := by
  rw [inBounds, Bool.and_eq_true, decide_eq_true_eq, decide_eq_true_eq]

theorem encodeElement_ok (h : b.encodeElement i v = .ok (start, bytes)) :
    0 ≤ i ∧ start = i.toNat * b.dtype.bytes ∧ bytes.length = b.dtype.bytes := by
  rw [encodeElement] at h
  split at h
  next hin =>
    split at h
    next bytes' hbytes =>
      cases h
      obtain ⟨s, hs, hbytes⟩ := Option.bind_eq_some_iff.mp hbytes
      obtain ⟨u, -, hu⟩ := Option.bind_eq_some_iff.mp hbytes
      have hwidth : b.dtype.bytes = s.bytes := by
        cases hdtype : b.dtype with
        | scalar t =>
          rw [hdtype] at hs
          cases hs
          rfl
        | pointer base _ _ =>
          rw [hdtype] at hs
          cases hs
      refine ⟨(inBounds_iff.mp hin).1, rfl, ?_⟩
      rw [hwidth]
      exact Value.length_encode hu
    next => cases h
  next => cases h

theorem disjoint_elements (width : Nat) (hi : 0 ≤ i) (hj : 0 ≤ j) (hne : i ≠ j) :
    i.toNat * width + width ≤ j.toNat * width ∨ j.toNat * width + width ≤ i.toNat * width := by
  rw [← Nat.succ_mul, ← Nat.succ_mul]
  rcases lt_or_gt_of_ne hne with hlt | hlt
  · exact .inl (Nat.mul_le_mul_right _ (by omega))
  · exact .inr (Nat.mul_le_mul_right _ (by omega))

theorem toOption_writeElement : (b.writeElement i v).toOption
    = (b.encodeElement i v).toOption.map fun r => b.write r.1 r.2 := by
  rw [writeElement]
  cases b.encodeElement i v <;> rfl

theorem writeElement_comm (hne : i ≠ j) :
    (b.writeElement i v).toOption.bind (fun b => (b.writeElement j w).toOption)
      = (b.writeElement j w).toOption.bind fun b => (b.writeElement i v).toOption := by
  have hencode : ∀ start bytes k (u : Value),
      (b.write start bytes).encodeElement k u = b.encodeElement k u := fun _ _ _ _ => rfl
  simp only [toOption_writeElement, Option.bind_map, Function.comp_def, hencode]
  cases hi : b.encodeElement i v with
  | error e => cases b.encodeElement j w <;> rfl
  | ok r =>
    cases hj : b.encodeElement j w with
    | error e => rfl
    | ok r' =>
      obtain ⟨hlow, hstart, hlength⟩ := encodeElement_ok hi
      obtain ⟨hlow', hstart', hlength'⟩ := encodeElement_ok hj
      have hdisjoint := disjoint_elements b.dtype.bytes hlow hlow' hne
      have hcomm : ∀ data, splice (splice data r.1 r.2) r'.1 r'.2
          = splice (splice data r'.1 r'.2) r.1 r.2 := fun data => splice_comm (by omega)
      show some ((b.write r.1 r.2).write r'.1 r'.2) = some ((b.write r'.1 r'.2).write r.1 r.2)
      simp only [write, Option.map_map, Function.comp_def, hcomm]

theorem readElement_of_writeElement (h : (b.writeElement i v).toOption = some b') (hne : j ≠ i) :
    b'.readElement j = b.readElement j := by
  rw [toOption_writeElement] at h
  cases hi : b.encodeElement i v with
  | error e =>
    rw [hi] at h
    cases h
  | ok r =>
    rw [hi] at h
    obtain rfl : b.write r.1 r.2 = b' := Option.some.inj h
    obtain ⟨hlow, hstart, hlength⟩ := encodeElement_ok hi
    have hin : (b.write r.1 r.2).inBounds j = b.inBounds j := rfl
    rw [readElement, readElement, hin, write]
    by_cases hbounds : b.inBounds j = true
    · rw [if_pos hbounds, if_pos hbounds]
      have hdisjoint := disjoint_elements b.dtype.bytes hlow (inBounds_iff.mp hbounds).1 hne.symm
      cases b.data with
      | none => rfl
      | some data =>
        cases b.dtype.scalar? with
        | none => rfl
        | some s =>
          have hextract : (splice data r.1 r.2).extract (j.toNat * b.dtype.bytes)
              (j.toNat * b.dtype.bytes + b.dtype.bytes) = data.extract (j.toNat * b.dtype.bytes)
                (j.toNat * b.dtype.bytes + b.dtype.bytes) :=
            extract_splice_of_disjoint (by omega)
          simp only [Option.map_some, hextract]
    · rw [if_neg hbounds, if_neg hbounds]

/-! ### Elements of integer types and truth values -/

structure Filled (b : Buffer) (s : ScalarType) : Prop where
  dtype_eq : b.dtype = .scalar s
  storage : ∃ data, b.data = some data ∧ data.size = b.size * s.bytes

variable {s : ScalarType}

theorem exists_allocate (hdtype : b.dtype = .scalar s) (hdevice : b.device = .cpu)
    (hdata : b.data = none) :
    ∃ b', b.allocate = .ok b' ∧ b'.Filled s ∧ b'.size = b.size := by
  have hbytes : b.byteSize = b.size * s.bytes := by rw [byteSize, hdtype]; rfl
  refine ⟨{ b with data := some (Array.replicate b.byteSize 0) }, ?_, ⟨hdtype, _, rfl, ?_⟩, rfl⟩
  · rw [allocate, isAllocated, hdata, if_neg (by simp), hdevice]
    rfl
  · rw [Array.size_replicate, hbytes]

variable (h : b.Filled s) (hlow : 0 ≤ i) (hhigh : i < b.size)

include h hlow hhigh

theorem Filled.readElement_eq (hdata : b.data = some data)
    (hv : Value.decode s (data.extract (i.toNat * s.bytes) (i.toNat * s.bytes + s.bytes)).toList =
      some v) : b.readElement i = .ok v := by
  have hwidth : b.dtype.bytes = s.bytes := by rw [h.dtype_eq]; rfl
  have hscalar : b.dtype.scalar? = some s := by rw [h.dtype_eq]; rfl
  rw [readElement, if_pos (inBounds_iff.mpr ⟨hlow, hhigh⟩), hdata, hscalar]
  simp only [hwidth, hv]

theorem Filled.exists_readElement (hs : (DType.scalar s).IsPlain) :
    ∃ v, b.readElement i = .ok v ∧ v.HasType (.scalar s) := by
  obtain ⟨data, hdata, -⟩ := h.storage
  obtain ⟨v, hv⟩ : ∃ v, Value.decode s
      (data.extract (i.toNat * s.bytes) (i.toNat * s.bytes + s.bytes)).toList = some v := by
    rcases hs.cases with hint | hbool
    · rcases Value.codec_of_isInt hint with ⟨-, hdecode, -⟩ | ⟨-, hdecode, -⟩
      · exact ⟨_, hdecode _⟩
      · exact ⟨_, hdecode _⟩
    · obtain rfl : s = .bool := DType.scalar.inj hbool
      exact ⟨_, rfl⟩
  refine ⟨v, h.readElement_eq hlow hhigh hdata hv, Value.hasType_of_decode hs ?_ hv⟩
  rw [Array.length_toList, Array.size_extract]
  omega

/-- An element that is written is what is read there, brought to its type, and the others stay. -/
theorem Filled.writeElement (hs : (DType.scalar s).IsPlain) (hcast : v.castTo s = some w) :
    ∃ b', b.writeElement i v = .ok b' ∧ b'.Filled s ∧ b'.size = b.size ∧
      b'.readElement i = .ok w ∧ ∀ j, j ≠ i → b'.readElement j = b.readElement j := by
  obtain ⟨data, hdata, hsize⟩ := h.storage
  obtain ⟨bytes, hencode, hlength, hdecode⟩ :=
    (Value.hasType_of_cast hs (show v.cast (.scalar s) = some w from hcast)).exists_encode hs
  have hfits : i.toNat * s.bytes + bytes.length ≤ data.size := by
    rw [hsize, hlength, ← Nat.succ_mul]
    exact Nat.mul_le_mul_right _ (by omega)
  have hwritten : b.writeElement i v = .ok (b.write (i.toNat * s.bytes) bytes) := by
    rw [Buffer.writeElement, encodeElement, if_pos (inBounds_iff.mpr ⟨hlow, hhigh⟩), h.dtype_eq]
    simp only [show (DType.scalar s).scalar? = some s from rfl, Option.bind_some, hcast, hencode]
    rfl
  have hdata' : (b.write (i.toNat * s.bytes) bytes).data
      = some (splice data (i.toNat * s.bytes) bytes) := by rw [write, hdata]; rfl
  have h' : (b.write (i.toNat * s.bytes) bytes).Filled s :=
    ⟨h.dtype_eq, _, hdata', by rw [size_splice, hsize]; rfl⟩
  refine ⟨_, hwritten, h', rfl, h'.readElement_eq hlow hhigh hdata' ?_,
    fun j hne => readElement_of_writeElement (by rw [hwritten]; rfl) hne⟩
  have hself := extract_splice_self hfits
  rw [hlength] at hself
  rw [hself, hdecode]

end LazyTensor.Buffer

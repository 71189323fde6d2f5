import LazyTensor.Proofs.Value.Typed
import LazyTensor.Value.Bytes
import Mathlib.Tactic.NormNum

/-!
# Elements as bytes

Reading back the bytes of a value of an integer type, or of a truth value, gives the value.
-/

namespace LazyTensor

@[simp]
theorem length_bytesOfNat (width n : Nat) : (bytesOfNat width n).length = width := by
  induction width generalizing n with
  | zero => rfl
  | succ width ih => rw [bytesOfNat, List.length_cons, ih]

theorem natOfBytes_bytesOfNat (width n : Nat) : natOfBytes (bytesOfNat width n) = n % 256 ^ width := by
  induction width generalizing n with
  | zero => rw [bytesOfNat, natOfBytes, pow_zero, Nat.mod_one]
  | succ width ih =>
    have hbyte : (n % 256).toUInt8.toNat = n % 256 := by
      rw [UInt8.toNat_ofNat']
      exact Nat.mod_eq_of_lt (Nat.mod_lt n (by decide))
    rw [bytesOfNat, natOfBytes, ih, hbyte, pow_succ', Nat.mod_mul]

theorem natOfBytes_lt (bytes : List UInt8) : natOfBytes bytes < 256 ^ bytes.length := by
  induction bytes with
  | nil => exact Nat.one_pos
  | cons b bytes ih =>
    have hbyte := b.toNat_lt
    rw [natOfBytes, List.length_cons, pow_succ]
    omega

theorem ScalarType.two_pow_bits (s : ScalarType) : 2 ^ s.bits = 256 ^ s.bytes := by
  rw [ScalarType.bits, pow_mul]
  norm_num

namespace Value

variable {s : ScalarType} {v : Value} {bytes : List UInt8}

theorem codec_of_isInt (hs : s.isInt = true) :
    ((∀ x, encode s (int x) = some (bytesOfNat s.bytes (wrapUnsigned s.bits x))) ∧
      (∀ bytes, decode s bytes = some (int (wrapSigned s.bits (natOfBytes bytes)))) ∧
      ∀ v : Value, v.castTo s = some (int (v.toSigned s.bits))) ∨
    ((∀ n, encode s (uint n) = some (bytesOfNat s.bytes n)) ∧
      (∀ bytes, decode s bytes = some (uint (natOfBytes bytes))) ∧
      ∀ v : Value, v.castTo s = some (uint (v.toUnsigned s.bits))) := by
  cases s <;> first
    | exact .inl ⟨fun _ => rfl, fun _ => rfl, fun _ => rfl⟩
    | exact .inr ⟨fun _ => rfl, fun _ => rfl, fun _ => rfl⟩
    | cases hs

theorem wrapUnsigned_natCast {bits n : Nat} (h : n < 2 ^ bits) : wrapUnsigned bits (n : Int) = n := by
  rw [wrapUnsigned, ← Int.natCast_emod, Int.toNat_natCast]
  exact Nat.mod_eq_of_lt h

theorem wrapUnsigned_lt (bits : Nat) (x : Int) : wrapUnsigned bits x < 2 ^ bits := by
  have hpos : (0 : Int) < (Nat.pow 2 bits : Nat) := Int.natCast_pos.mpr (Nat.two_pow_pos bits)
  have hlow := Int.emod_nonneg x hpos.ne'
  have hhigh := Int.emod_lt_of_pos x hpos
  rw [wrapUnsigned, Int.toNat_lt hlow]
  exact hhigh

theorem HasType.exists_encode (hs : (DType.scalar s).IsPlain) (hv : v.HasType (.scalar s)) :
    ∃ bytes, encode s v = some bytes ∧ bytes.length = s.bytes ∧ decode s bytes = some v := by
  rcases hs.cases with hint | hbool
  · have hv : v.castTo s = some v := hv
    rcases codec_of_isInt hint with ⟨hencode, hdecode, hcast⟩ | ⟨hencode, hdecode, hcast⟩
    · obtain ⟨x, rfl⟩ : ∃ x, v = int x := ⟨_, (Option.some.inj ((hcast v).symm.trans hv)).symm⟩
      have hx : wrapSigned s.bits x = x := int.inj (Option.some.inj ((hcast _).symm.trans hv))
      refine ⟨_, hencode x, length_bytesOfNat _ _, ?_⟩
      rw [hdecode, natOfBytes_bytesOfNat, ← s.two_pow_bits, Nat.mod_eq_of_lt (wrapUnsigned_lt _ x),
        wrapSigned_congr (wrapUnsigned_modEq s.bits x), hx]
    · obtain ⟨n, rfl⟩ : ∃ n, v = uint n := ⟨_, (Option.some.inj ((hcast v).symm.trans hv)).symm⟩
      have hn : wrapUnsigned s.bits n = n := uint.inj (Option.some.inj ((hcast _).symm.trans hv))
      refine ⟨_, hencode n, length_bytesOfNat _ _, ?_⟩
      rw [hdecode, natOfBytes_bytesOfNat, ← s.two_pow_bits, Nat.mod_eq_of_lt]
      exact hn ▸ wrapUnsigned_lt _ _
  · obtain rfl : s = .bool := DType.scalar.inj hbool
    obtain ⟨b, rfl⟩ := hasType_bool_iff.mp hv
    exact ⟨_, rfl, rfl, by cases b <;> rfl⟩

theorem hasType_of_decode (hs : (DType.scalar s).IsPlain) (hlength : bytes.length ≤ s.bytes)
    (hv : decode s bytes = some v) : v.HasType (.scalar s) := by
  rcases hs.cases with hint | hbool
  · show v.castTo s = some v
    rcases codec_of_isInt hint with ⟨-, hdecode, hcast⟩ | ⟨-, hdecode, hcast⟩
    · obtain rfl := Option.some.inj ((hdecode bytes).symm.trans hv)
      rw [hcast, toSigned, wrapSigned_idem]
    · obtain rfl := Option.some.inj ((hdecode bytes).symm.trans hv)
      have hlt : natOfBytes bytes < 2 ^ s.bits := by
        rw [s.two_pow_bits]
        exact (natOfBytes_lt bytes).trans_le (Nat.pow_le_pow_right (by decide) hlength)
      rw [hcast, toUnsigned, wrapUnsigned_natCast hlt]
  · obtain rfl : s = .bool := DType.scalar.inj hbool
    obtain rfl := Option.some.inj hv
    exact hasType_bool_iff.mpr ⟨_, rfl⟩

theorem length_encode (h : encode s v = some bytes) : bytes.length = s.bytes := by
  cases s <;> cases v <;> cases h <;> rfl

end Value

end LazyTensor

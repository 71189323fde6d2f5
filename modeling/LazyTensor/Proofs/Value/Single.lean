import LazyTensor.Proofs.Value.Typed
import Mathlib.Algebra.Order.Ring.Nat
import Mathlib.Tactic.Ring

/-!
# Integers in single precision

A word that was rounded to 24 significant bits is a number of single precision already.
-/

namespace LazyTensor

namespace Binary64

theorem isSingle_negate (x : Binary64) : x.negate.isSingle = x.isSingle := by
  have hfraction : x.negate.fractionField = x.fractionField := by
    simp only [negate, fractionField, UInt64.toNat_xor, Nat.pow_eq, Nat.xor_mod_two_pow]
    exact Nat.xor_zero _
  have hexponent : x.negate.exponentField = x.exponentField := by
    simp only [negate, exponentField, UInt64.toNat_xor, Nat.pow_eq, Nat.xor_div_two_pow,
      Nat.xor_mod_two_pow]
    exact Nat.xor_zero _
  rw [isSingle, hfraction, hexponent, isSingle]

theorem roundSignificant_eq (n : Nat) :
    ∃ k ≤ 2 ^ 24, roundSignificant 24 n = k * 2 ^ (Nat.log2 n + 1 - 24) := by
  have hlt : n < 2 ^ (Nat.log2 n + 1 - 24) * 2 ^ 24 := by
    rw [← Nat.pow_add]
    exact Nat.lt_of_lt_of_le Nat.lt_log2_self (Nat.pow_le_pow_right (by decide) (by omega))
  have hbelow := Nat.div_lt_of_lt_mul hlt
  simp only [roundSignificant, Nat.pow_eq]
  split_ifs with h₁ h₂ hexcess
  · exact ⟨_, hbelow.le, rfl⟩
  · exact ⟨_, hbelow, rfl⟩
  · exact ⟨n, by simpa [hexcess] using hlt.le, by simp [hexcess]⟩
  · exact ⟨_, hbelow.le, rfl⟩
  · exact ⟨_, hbelow, rfl⟩

variable {k x : Nat}

theorem pow_log2_dvd (hk : k ≤ 2 ^ 24) (hn : k * 2 ^ x ≠ 0) :
    2 ^ Nat.log2 (k * 2 ^ x) ∣ k * 2 ^ x * 2 ^ 23 := by
  by_cases hle : Nat.log2 (k * 2 ^ x) ≤ x + 23
  · rw [Nat.mul_assoc, ← Nat.pow_add]
    exact Dvd.dvd.mul_left (Nat.pow_dvd_pow 2 hle) k
  · have hlow := (Nat.le_log2 hn).mp (show x + 24 ≤ _ by omega)
    have hhigh := Nat.mul_le_mul_right (2 ^ x) hk
    rw [← Nat.pow_add, Nat.add_comm] at hhigh
    rw [Nat.le_antisymm hhigh hlow, Nat.log2_two_pow]
    exact Nat.dvd_mul_right _ _

theorem isSingle_ofExactNat (hk : k ≤ 2 ^ 24) (hx : x ≤ 40) :
    (ofExactNat (k * 2 ^ x)).isSingle = true := by
  by_cases hn : k * 2 ^ x = 0
  · rw [hn]
    decide
  simp only [ofExactNat, Nat.pow_eq, if_neg hn]
  obtain ⟨j, hj⟩ := pow_log2_dvd hk hn
  have hlow := Nat.log2_self_le hn
  have hhigh := Nat.lt_log2_self (n := k * 2 ^ x)
  have he : Nat.log2 (k * 2 ^ x) ≤ 64 := by
    have hle := hlow.trans (Nat.mul_le_mul hk (Nat.pow_le_pow_right (by decide) hx))
    exact (Nat.pow_le_pow_iff_right (by decide)).mp hle
  generalize k * 2 ^ x = n at *
  generalize Nat.log2 n = e at *
  have hpos : 0 < 2 ^ e := Nat.two_pow_pos e
  have hj₁ : 2 ^ 23 ≤ j := Nat.le_of_mul_le_mul_left (by rw [← hj]; gcongr) hpos
  have hj₂ : j < 2 ^ 24 := by
    refine Nat.lt_of_mul_lt_mul_left (a := 2 ^ e) ?_
    calc 2 ^ e * j = n * 2 ^ 23 := hj.symm
      _ < 2 ^ (e + 1) * 2 ^ 23 := Nat.mul_lt_mul_of_pos_right hhigh (by decide)
      _ = 2 ^ e * 2 ^ 24 := by ring
  have hm : (if e ≤ 52 then n * 2 ^ (52 - e) else n / 2 ^ (e - 52)) = j * 2 ^ 29 := by
    split_ifs with hle
    · refine Nat.eq_of_mul_eq_mul_left hpos ?_
      calc 2 ^ e * (n * 2 ^ (52 - e)) = n * 2 ^ (e + (52 - e)) := by rw [Nat.pow_add]; ring
        _ = n * 2 ^ 23 * 2 ^ 29 := by rw [Nat.add_sub_cancel' hle]; ring
        _ = 2 ^ e * (j * 2 ^ 29) := by rw [hj]; ring
    · refine Nat.div_eq_of_eq_mul_left (Nat.two_pow_pos _) (Nat.eq_of_mul_eq_mul_right
        (show 0 < 2 ^ 23 by decide) ?_)
      have hsplit : 2 ^ e = 2 ^ 52 * 2 ^ (e - 52) := by rw [← Nat.pow_add]; congr 1; omega
      rw [hj, hsplit]
      ring
  rw [hm]
  simp only [isSingle, fractionField, exponentField, Nat.toUInt64, UInt64.toNat_ofNat', Nat.pow_eq,
    Bool.and_eq_true, Bool.or_eq_true, beq_iff_eq, decide_eq_true_eq]
  omega

theorem isSingle_ofInt {v : Int} (hv : v.natAbs < 2 ^ 64) : (ofInt 24 v).isSingle = true := by
  obtain ⟨k, hk, heq⟩ := roundSignificant_eq v.natAbs
  have hlog : Nat.log2 v.natAbs < 64 := by
    by_cases hzero : v.natAbs = 0
    · rw [hzero]; decide
    · exact (Nat.log2_lt hzero).mpr hv
  have hsingle := isSingle_ofExactNat hk (show Nat.log2 v.natAbs + 1 - 24 ≤ 40 by omega)
  rw [ofInt, heq]
  split_ifs
  · rwa [isSingle_negate]
  · exact hsingle

end Binary64

namespace Value

variable {v w : Value} {t u : DType}

theorem HasType.natAbs_toZ_lt (hv : v.HasType t) (ht : t.isInt = true) :
    v.toZ.natAbs < 2 ^ 64 := by
  have hpow : 2 ^ t.base.bits ≤ 2 ^ 64 := Nat.pow_le_pow_right (by decide) (cast_of_isInt ht).1
  have hpos : 0 < 2 ^ t.base.bits := Nat.two_pow_pos _
  rcases kind_of_isInt ht with ⟨hcast, hkind⟩ | ⟨hcast, hkind⟩
  · obtain ⟨x, rfl⟩ := hkind v hv
    have hx : wrapSigned t.base.bits x = x := int.inj (Option.some.inj ((hcast _).symm.trans hv))
    have hlow := Int.le_bmod (x := x) hpos
    have hhigh := Int.bmod_lt (x := x) hpos
    rw [show Int.bmod x (2 ^ t.base.bits) = x from hx] at hlow hhigh
    simp only [toZ]
    omega
  · obtain ⟨n, rfl⟩ := hkind v hv
    have hn : wrapUnsigned t.base.bits n = n := uint.inj (Option.some.inj ((hcast _).symm.trans hv))
    have hlt := Int.emod_lt_of_pos (n : Int) (Int.natCast_pos.mpr hpos)
    rw [wrapUnsigned, Nat.pow_eq] at hn
    simp only [toZ]
    omega

theorem normalize_of_cast (ht : t.IsPlain) (hv : v.HasType t) (hw : v.cast u = some w) :
    w.normalize u = w := by
  by_cases hu : u.IsPlain
  · exact (hasType_of_cast hu hw).normalize_eq
  have hsingle : (v.toBinary64 24).isSingle = true := by
    rcases ht.cases with ht | rfl
    · have hlt := hv.natAbs_toZ_lt ht
      rcases kind_of_isInt ht with ⟨-, hkind⟩ | ⟨-, hkind⟩
      all_goals
        obtain ⟨x, rfl⟩ := hkind v hv
        exact Binary64.isSingle_ofInt hlt
    · obtain ⟨b, rfl⟩ := hasType_bool_iff.mp hv
      cases b <;> decide
  cases u with
  | pointer => cases hw
  | scalar s =>
    cases s with
    | void => cases hw
    | float32 =>
      have hkept : (v.toBinary64 24).toSingle = v.toBinary64 24 := by
        rw [Binary64.toSingle, if_pos hsingle]
      obtain rfl : float (v.toBinary64 24).toSingle = w := Option.some.inj hw
      change float (v.toBinary64 24).toSingle.toSingle = _
      rw [hkept, hkept]
    | float64 =>
      obtain rfl := Option.some.inj hw
      rfl
    | _ => exact absurd (by decide) hu

end Value

end LazyTensor

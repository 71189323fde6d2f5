import LazyTensor.Proofs.Value.Typed
import LazyTensor.Simplify.Algebra

/-!
# Laws of the arithmetic on values

The identities that simplification relies on, for values of every integer type and for truth values.
Each says that where the left side has a value, the right side has the same one.
-/

namespace LazyTensor

open Value

variable {op : BinaryOp} {t : DType} {a b c d w u k : Value} {f : Nat → Nat → Nat}
  {g : Bool → Bool → Bool} {p q : Bool}

theorem bitwise_comm (hf : ∀ m n, f m n = f n m) (hg : ∀ p q, g p q = g q p) (a b : Value) :
    bitwise f g a b = bitwise f g b a := by
  cases a with
  | int x =>
    cases b with
    | int y => simp only [bitwise, hf (wrapUnsigned 64 x)]
    | _ => rfl
  | uint m =>
    cases b with
    | uint n => simp only [bitwise, hf m]
    | _ => rfl
  | bool p =>
    cases b with
    | bool q => simp only [bitwise, hg p]
    | _ => rfl
  | float f => cases b <;> rfl

theorem rawBinary_comm (hop : op.isCommutative = true) (ha : a.IsPlain) (hb : b.IsPlain) :
    rawBinary op a b = rawBinary op b a := by
  cases op with
  | and => exact bitwise_comm Nat.and_comm Bool.and_comm a b
  | or => exact bitwise_comm Nat.or_comm Bool.or_comm a b
  | xor => exact bitwise_comm Nat.xor_comm Bool.xor_comm a b
  | _ =>
    cases a with
    | float f => exact ha.elim
    | _ =>
      cases b with
      | float f => exact hb.elim
      | _ =>
        first
          | exact absurd hop (by decide)
          | rfl
          | simp only [rawBinary, add, mul, Value.max, Value.eq, Value.ne, sameKind,
              numEq, Int.add_comm, Int.mul_comm, Bool.or_comm, Bool.and_comm, max_comm,
              Bool.beq_comm]

theorem BinaryOp.eval_comm (hop : op.isCommutative = true) (ha : a.IsPlain) (hb : b.IsPlain) :
    op.eval t a b = op.eval t b a := by
  simp only [BinaryOp.eval, rawBinary_comm hop ha hb]

theorem toZ_eq_zero (hzero : c.isZero = true) (hc : c.IsPlain) : c.toZ = 0 := by
  cases c with
  | float f => exact hc.elim
  | int x | uint n | bool x => simpa [isZero, Value.toZ] using hzero

theorem toZ_eq_one (hone : c.isOne = true) (hc : c.IsPlain) : c.toZ = 1 := by
  cases c with
  | float f => exact hc.elim
  | int x | uint n | bool x => simpa [isOne, Value.toZ] using hone

theorem bitwise_right (ht : t.IsPlain) (ha : a.HasType t) (hc : c.HasType t)
    (hzero : c.isZero = true) (hf : ∀ n, f n 0 = n) (hg : ∀ p, g p false = p)
    (hw : (bitwise f g a c).bind (·.cast t) = some w) : w = a := by
  rcases ht.cases with ht | rfl
  · have hc' := toZ_eq_zero hzero (hc.isPlain (.inl ht))
    rcases kinds_of_isInt ht ha hc with ⟨x, y, rfl, rfl⟩ | ⟨m, n, rfl, rfl⟩
    · obtain rfl : y = 0 := hc'
      have hword : (int (wrapSigned 64 (wrapUnsigned 64 x))).cast t = some w := by
        simpa [bitwise, wrapUnsigned, hf] using hw
      rw [(cast_word ht _).1, Option.some.injEq] at hword
      rw [← hword, ofZ_congr ht (modEq_of_word ht (wrapUnsigned_modEq 64 x))]
      exact ofZ_toZ ht ha
    · obtain rfl : n = 0 := by simpa [Value.toZ] using hc'
      have hword : (uint m).cast t = some w := by simpa [bitwise, hf] using hw
      exact Option.some.inj (hword.symm.trans ha)
  · obtain ⟨p, rfl⟩ := hasType_bool_iff.mp ha
    obtain ⟨q, rfl⟩ := hasType_bool_iff.mp hc
    obtain rfl : q = false := by simpa [isZero] using hzero
    have hword : (Value.bool p).cast .bool = some w := by simpa [bitwise, hg] using hw
    exact Option.some.inj (hword.symm.trans ha)

theorem eval_idiv_one (ht : t.isInt = true) (ha : a.HasType t) (hc : c.HasType t)
    (hone : c.toZ = 1) : BinaryOp.idiv.eval t a c = some a := by
  rcases kinds_of_isInt ht ha hc with ⟨x, y, rfl, rfl⟩ | ⟨m, n, rfl, rfl⟩
  · obtain rfl : y = 1 := hone
    have hword := (cast_word ht x).1
    rw [show ofZ t x = int x from ofZ_toZ ht ha] at hword
    simpa [BinaryOp.eval, BinaryOp.isComparison, rawBinary, idiv] using hword
  · obtain rfl : n = 1 := by simpa [Value.toZ] using hone
    have hword : (uint m).cast t = some (uint m) := ha
    simpa [BinaryOp.eval, BinaryOp.isComparison, rawBinary, idiv] using hword

theorem eval_laws_bool (hw : op.eval .bool (.bool p) (.bool q) = some w) :
    (Rule.isRightIdentity op (.bool q) = true → w = .bool p) ∧
      (Rule.annihilates op (.bool q) = true → w = ofZ .bool 0) := by
  constructor <;> intro h <;> cases op <;> cases p <;> cases q <;> first
    | exact (Option.some.inj hw).symm
    | exact absurd h (by decide)
    | exact absurd hw.symm
        (by simp [BinaryOp.eval, BinaryOp.isComparison, rawBinary, sub, idiv, fdiv, mod])

theorem eval_rightIdentity (ht : t.IsPlain) (ha : a.HasType t) (hc : c.HasType t)
    (h : Rule.isRightIdentity op c = true) (hw : op.eval t a c = some w) : w = a := by
  rcases ht.cases with hint | rfl
  · have hplain := hc.isPlain ht
    cases op with
    | add =>
      rw [eval_add hint ha hc, toZ_eq_zero h hplain, add_zero, ofZ_toZ hint ha] at hw
      exact (Option.some.inj hw).symm
    | sub =>
      rw [eval_sub hint ha hc, toZ_eq_zero h hplain, sub_zero, ofZ_toZ hint ha] at hw
      exact (Option.some.inj hw).symm
    | mul =>
      rw [eval_mul hint ha hc, toZ_eq_one h hplain, mul_one, ofZ_toZ hint ha] at hw
      exact (Option.some.inj hw).symm
    | idiv =>
      rw [eval_idiv_one hint ha hc (toZ_eq_one h hplain)] at hw
      exact (Option.some.inj hw).symm
    | or => exact bitwise_right ht ha hc h Nat.or_zero Bool.or_false hw
    | xor => exact bitwise_right ht ha hc h Nat.xor_zero Bool.xor_false hw
    | fdiv =>
      rcases kind_of_isInt hint with ⟨-, hkind⟩ | ⟨-, hkind⟩
      · obtain ⟨x, rfl⟩ := hkind a ha
        cases hw
      · obtain ⟨m, rfl⟩ := hkind a ha
        cases hw
    | _ => cases h
  · obtain ⟨p, rfl⟩ := hasType_bool_iff.mp ha
    obtain ⟨q, rfl⟩ := hasType_bool_iff.mp hc
    exact (eval_laws_bool hw).1 h

theorem eval_eq_zero (ht : t.isInt = true) (hop : op.isComparison = false)
    (hraw : ∀ u, rawBinary op a b = some u → u = int 0 ∨ u = uint 0)
    (hw : op.eval t a b = some w) : w = ofZ t 0 := by
  rw [BinaryOp.eval, hop, if_neg Bool.false_ne_true] at hw
  obtain ⟨u, hu, hw⟩ := Option.bind_eq_some_iff.mp hw
  obtain ⟨hint, huint⟩ := cast_word ht 0
  rcases hraw u hu with rfl | rfl
  · exact Option.some.inj (hw.symm.trans hint)
  · exact Option.some.inj (hw.symm.trans huint)

theorem rawBinary_and_zero (ht : t.isInt = true) (ha : a.HasType t) (hc : c.HasType t)
    (hzero : c.toZ = 0) (hu : rawBinary .and a c = some u) : u = int 0 ∨ u = uint 0 := by
  rcases kinds_of_isInt ht ha hc with ⟨x, y, rfl, rfl⟩ | ⟨m, n, rfl, rfl⟩
  · obtain rfl : y = 0 := hzero
    refine .inl (Option.some.inj (hu.symm.trans ?_))
    rw [show rawBinary .and (int x) (int 0)
      = some (int (wrapSigned 64 (wrapUnsigned 64 x &&& 0 : Nat))) from rfl, Nat.and_zero]
    rfl
  · obtain rfl : n = 0 := by simpa [Value.toZ] using hzero
    exact .inr (Option.some.inj (hu.symm.trans (congrArg (some ∘ uint) (Nat.and_zero m))))

theorem rawBinary_xor_self (ht : t.isInt = true) (ha : a.HasType t)
    (hu : rawBinary .xor a a = some u) : u = int 0 ∨ u = uint 0 := by
  rcases kind_of_isInt ht with ⟨-, hkind⟩ | ⟨-, hkind⟩
  · obtain ⟨x, rfl⟩ := hkind a ha
    refine .inl (Option.some.inj (hu.symm.trans ?_))
    rw [show rawBinary .xor (int x) (int x)
      = some (int (wrapSigned 64 (wrapUnsigned 64 x ^^^ wrapUnsigned 64 x : Nat))) from rfl,
      Nat.xor_self]
    rfl
  · obtain ⟨m, rfl⟩ := hkind a ha
    exact .inr (Option.some.inj (hu.symm.trans (congrArg (some ∘ uint) (Nat.xor_self m))))

theorem rawBinary_mod_of_dvd (ht : t.isInt = true) (ha : a.HasType t) (hc : c.HasType t)
    (hdvd : c.toZ ∣ a.toZ) (hu : rawBinary .mod a c = some u) : u = int 0 ∨ u = uint 0 := by
  rcases kinds_of_isInt ht ha hc with ⟨x, y, rfl, rfl⟩ | ⟨m, n, rfl, rfl⟩
  · by_cases hy : y = 0
    · simp [rawBinary, mod, hy] at hu
    · have hmod : x.tmod y = 0 := Int.tmod_eq_zero_of_dvd hdvd
      simp only [rawBinary, mod, hy, if_false, hmod, Option.some.injEq] at hu
      exact .inl hu.symm
  · by_cases hn : n = 0
    · simp [rawBinary, mod, hn] at hu
    · have hmod : m % n = 0 := Nat.mod_eq_zero_of_dvd (Int.natCast_dvd_natCast.mp hdvd)
      simp only [rawBinary, mod, hn, if_false, hmod, Option.some.injEq] at hu
      exact .inr hu.symm

theorem eval_annihilates (ht : t.IsPlain) (ha : a.HasType t) (hc : c.HasType t)
    (h : Rule.annihilates op c = true) (hw : op.eval t a c = some w) : w = ofZ t 0 := by
  rcases ht.cases with hint | rfl
  · have hplain := hc.isPlain ht
    cases op with
    | mul =>
      rw [eval_mul hint ha hc, toZ_eq_zero h hplain, mul_zero] at hw
      exact (Option.some.inj hw).symm
    | and =>
      exact eval_eq_zero hint rfl
        (fun u => rawBinary_and_zero hint ha hc (toZ_eq_zero h hplain)) hw
    | mod =>
      have hdvd : c.toZ ∣ a.toZ := toZ_eq_one h hplain ▸ one_dvd _
      exact eval_eq_zero hint rfl (fun u => rawBinary_mod_of_dvd hint ha hc hdvd) hw
    | _ => cases h
  · obtain ⟨p, rfl⟩ := hasType_bool_iff.mp ha
    obtain ⟨q, rfl⟩ := hasType_bool_iff.mp hc
    exact (eval_laws_bool hw).2 h

theorem eval_cancelsItself (ht : t.IsPlain) (ha : a.HasType t)
    (h : Rule.cancelsItself op = true) (hw : op.eval t a a = some w) : w = ofZ t 0 := by
  rcases ht.cases with hint | rfl
  · cases op with
    | sub =>
      rw [eval_sub hint ha ha, sub_self] at hw
      exact (Option.some.inj hw).symm
    | mod => exact eval_eq_zero hint rfl (fun u => rawBinary_mod_of_dvd hint ha ha dvd_rfl) hw
    | xor => exact eval_eq_zero hint rfl (fun u => rawBinary_xor_self hint ha) hw
    | _ => cases h
  · obtain ⟨p, rfl⟩ := hasType_bool_iff.mp ha
    cases op with
    | xor => cases p <;> exact (Option.some.inj hw).symm
    | sub | mod => cases hw
    | _ => cases h

theorem eval_sub_eq_add_neg (ht : t.isInt = true) (ha : a.HasType t) {x : Int}
    (hx : (int x).HasType t) :
    BinaryOp.sub.eval t a (int x) = BinaryOp.add.eval t a (ofZ t (wrapSigned 64 (-x))) := by
  rw [eval_sub ht ha hx, eval_add ht ha (hasType_ofZ ht _), Option.some.injEq]
  refine ofZ_congr ht ?_
  have hneg : (ofZ t (wrapSigned 64 (-x))).toZ ≡ -x [ZMOD 2 ^ t.base.bits] :=
    (toZ_ofZ ht _).trans (modEq_of_word ht (wrapSigned_modEq 64 (-x)))
  rw [sub_eq_add_neg]
  exact Int.ModEq.rfl.add hneg.symm

section Assoc

variable (ht : t.isInt = true) (ha : a.HasType t) (hc : c.HasType t) (hd : d.HasType t)
  (hu : op.eval t a c = some u) (hw : op.eval t u d = some w) (hk : op.eval t c d = some k)

include ht ha hc hd hu hw hk

theorem eval_assoc_of {f : Int → Int → Int}
    (heval : ∀ {x y : Value}, x.HasType t → y.HasType t → op.eval t x y = some (ofZ t (f x.toZ
      y.toZ)))
    (hcongr : ∀ {x x' y y' : Int}, x ≡ x' [ZMOD 2 ^ t.base.bits] → y ≡ y' [ZMOD 2 ^ t.base.bits] → f
      x y ≡ f x' y' [ZMOD 2 ^ t.base.bits]) (hassoc : ∀ x y z, f (f x y) z = f x (f y z)) :
    op.eval t a k = some w := by
  rw [heval ha hc] at hu
  obtain rfl := Option.some.inj hu
  rw [heval hc hd] at hk
  obtain rfl := Option.some.inj hk
  rw [heval (hasType_ofZ ht _) hd] at hw
  rw [heval ha (hasType_ofZ ht _), ← hw, Option.some.injEq]
  refine ofZ_congr ht ?_
  calc f a.toZ (ofZ t (f c.toZ d.toZ)).toZ
      ≡ f a.toZ (f c.toZ d.toZ) [ZMOD _] := hcongr .rfl (toZ_ofZ ht _)
    _ = f (f a.toZ c.toZ) d.toZ := (hassoc _ _ _).symm
    _ ≡ f (ofZ t (f a.toZ c.toZ)).toZ d.toZ [ZMOD _] := hcongr (toZ_ofZ ht _).symm .rfl

theorem eval_assoc (hop : op = .add ∨ op = .mul) : op.eval t a k = some w := by
  rcases hop with rfl | rfl
  · exact eval_assoc_of ht ha hc hd hu hw hk (eval_add ht) Int.ModEq.add add_assoc
  · exact eval_assoc_of ht ha hc hd hu hw hk (eval_mul ht) Int.ModEq.mul mul_assoc

end Assoc

theorem eval_factor (ht : t.IsPlain) (ha : a.HasType t) (hb : b.HasType t) (hd : d.HasType t)
    {p q : Value} (hp : BinaryOp.mul.eval t a b = some p) (hq : BinaryOp.mul.eval t a d = some q)
    (hw : BinaryOp.add.eval t p q = some w) :
    ∃ s, BinaryOp.add.eval t b d = some s ∧ BinaryOp.mul.eval t a s = some w := by
  rcases ht.cases with ht | rfl
  · rw [eval_mul ht ha hb] at hp
    rw [eval_mul ht ha hd] at hq
    obtain rfl := Option.some.inj hp
    obtain rfl := Option.some.inj hq
    rw [eval_add ht (hasType_ofZ ht _) (hasType_ofZ ht _)] at hw
    refine ⟨_, eval_add ht hb hd, ?_⟩
    rw [eval_mul ht ha (hasType_ofZ ht _), ← hw, Option.some.injEq]
    refine ofZ_congr ht ?_
    calc a.toZ * (ofZ t (b.toZ + d.toZ)).toZ
        ≡ a.toZ * (b.toZ + d.toZ) [ZMOD _] := Int.ModEq.rfl.mul (toZ_ofZ ht _)
      _ = a.toZ * b.toZ + a.toZ * d.toZ := mul_add _ _ _
      _ ≡ (ofZ t (a.toZ * b.toZ)).toZ + (ofZ t (a.toZ * d.toZ)).toZ [ZMOD _] :=
          (toZ_ofZ ht _).symm.add (toZ_ofZ ht _).symm
  · obtain ⟨x, rfl⟩ := hasType_bool_iff.mp ha
    obtain ⟨y, rfl⟩ := hasType_bool_iff.mp hb
    obtain ⟨z, rfl⟩ := hasType_bool_iff.mp hd
    obtain rfl := Option.some.inj hp
    obtain rfl := Option.some.inj hq
    obtain rfl := Option.some.inj hw
    refine ⟨_, rfl, ?_⟩
    cases x <;> cases y <;> cases z <;> rfl

end LazyTensor

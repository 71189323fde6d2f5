import LazyTensor.Value.Eval
import LazyTensor.Width
import Mathlib.Data.Int.ModEq

/-!
# Values of the integer types and truth values

A value of an integer type stands for a residue modulo two to the number of its bits. Sums,
differences and products of values are those of the residues, at every width and sign.
-/

namespace LazyTensor

/-! ### Words -/

theorem wrapSigned_modEq (bits : Nat) (x : Int) : wrapSigned bits x ≡ x [ZMOD 2 ^ bits] := by
  have h := Int.bmod_emod (x := x) (m := Nat.pow 2 bits)
  simpa [wrapSigned, Int.ModEq] using h

variable {bits : Nat} {x y : Int} {op : BinaryOp} {t : DType} {w a b : Value}

theorem wrapSigned_congr (h : x ≡ y [ZMOD 2 ^ bits]) : wrapSigned bits x = wrapSigned bits y := by
  have h' : x % (Nat.pow 2 bits : Nat) = y % (Nat.pow 2 bits : Nat) := by
    simpa [Int.ModEq] using h
  rw [wrapSigned, wrapSigned, ← Int.emod_bmod x, ← Int.emod_bmod y, h']

theorem wrapUnsigned_modEq (bits : Nat) (x : Int) :
    (wrapUnsigned bits x : Int) ≡ x [ZMOD 2 ^ bits] := by
  have hpos : (0 : Int) < 2 ^ bits := Int.pow_pos (by decide)
  have hcast : ((Nat.pow 2 bits : Nat) : Int) = 2 ^ bits := by simp
  rw [wrapUnsigned, hcast, Int.toNat_of_nonneg (Int.emod_nonneg x hpos.ne')]
  exact Int.mod_modEq x _

theorem wrapUnsigned_congr (h : x ≡ y [ZMOD 2 ^ bits]) :
    wrapUnsigned bits x = wrapUnsigned bits y := by
  have h' : x % (Nat.pow 2 bits : Nat) = y % (Nat.pow 2 bits : Nat) := by
    simpa [Int.ModEq] using h
  rw [wrapUnsigned, wrapUnsigned, h']

theorem wrapSigned_idem (bits : Nat) (x : Int) :
    wrapSigned bits (wrapSigned bits x) = wrapSigned bits x :=
  wrapSigned_congr (wrapSigned_modEq bits x)

theorem wrapUnsigned_idem (bits : Nat) (x : Int) :
    wrapUnsigned bits (wrapUnsigned bits x) = wrapUnsigned bits x :=
  wrapUnsigned_congr (wrapUnsigned_modEq bits x)

theorem wrapSigned_of_fitsWord (h : Width.FitsWord x) : wrapSigned 64 x = x := by
  obtain ⟨hlow, hhigh⟩ := h
  simp only [Width.minWord, Width.maxWord] at hlow hhigh
  refine Int.bmod_eq_of_le ?_ ?_
  · have : ((Nat.pow 2 64 : Nat) : Int) = 18446744073709551616 := by decide
    omega
  · have : ((Nat.pow 2 64 : Nat) : Int) = 18446744073709551616 := by decide
    omega

theorem fitsWord_wrapSigned (x : Int) : Width.FitsWord (wrapSigned 64 x) := by
  have hmod : ((Nat.pow 2 64 : Nat) : Int) = 18446744073709551616 := by decide
  have hlow := Int.le_bmod (x := x) (m := Nat.pow 2 64) (by decide)
  have hhigh := Int.bmod_lt (x := x) (m := Nat.pow 2 64) (by decide)
  simp only [Width.FitsWord, Width.minWord, Width.maxWord, wrapSigned]
  omega

theorem eval_index_wrap {z : Int} (hop : op.isComparison = false)
    (hraw : Value.rawBinary op (.int x) (.int y) = some (.int (wrapSigned 64 z))) :
    op.eval .index (.int x) (.int y) = some (.int (wrapSigned 64 z)) := by
  rw [BinaryOp.eval, hop, if_neg Bool.false_ne_true, hraw]
  change some (Value.int (wrapSigned 64 (wrapSigned 64 z))) = _
  rw [wrapSigned_idem]

/-! ### Values with a type -/

def DType.IsPlain (t : DType) : Prop := t.isInt = true ∨ t.isBool = true

instance (t : DType) : Decidable t.IsPlain := inferInstanceAs (Decidable (_ ∨ _))

theorem DType.IsPlain.exists_scalar (h : t.IsPlain) : ∃ s, t = .scalar s := by
  cases t with
  | scalar s => exact ⟨s, rfl⟩
  | pointer base space size => exact absurd h (by rintro (h | h) <;> cases h)

theorem DType.IsPlain.cases (h : t.IsPlain) : t.isInt = true ∨ t = .bool := by
  refine h.imp_right fun h => ?_
  cases t with
  | pointer base space size => cases h
  | scalar s =>
    cases s with
    | bool => rfl
    | _ => cases h

namespace Value

/-- The value is one of the type, and not only convertible to it. -/
def HasType (v : Value) (t : DType) : Prop := v.cast t = some v

def toZ : Value → Int
  | int x => x
  | uint n => n
  | bool b => if b then 1 else 0
  | float _ => 0

/-- The value of an integer type that stands for the residue of `x`. -/
def ofZ (t : DType) (x : Int) : Value := (int x).normalize t

variable {v : Value}

theorem hasType_bool_iff : v.HasType .bool ↔ ∃ b, v = bool b := by
  constructor
  · intro h
    exact ⟨v.truthy, (Option.some.inj h).symm⟩
  · rintro ⟨b, rfl⟩
    cases b <;> rfl

theorem hasType_index_iff : v.HasType .index ↔ ∃ x, v = int x ∧ Width.FitsWord x := by
  constructor
  · intro h
    have h : int (v.toSigned 64) = v := Option.some.inj h
    refine ⟨v.toSigned 64, h.symm, ?_⟩
    cases v with
    | int x =>
      have hx : wrapSigned 64 x = x := int.inj h
      exact hx ▸ fitsWord_wrapSigned _
    | uint n | float f | bool b => cases h
  · rintro ⟨x, rfl, hx⟩
    change some (int (wrapSigned 64 x)) = _
    rw [wrapSigned_of_fitsWord hx]

/-! ### Residues -/

section Residues

variable {t : DType}

section

variable (ht : t.isInt = true)

include ht

theorem cast_of_isInt :
    t.base.bits ≤ 64 ∧ ((∀ v : Value, v.cast t = some (int (v.toSigned t.base.bits))) ∨
      ∀ v : Value, v.cast t = some (uint (v.toUnsigned t.base.bits))) := by
  cases t with
  | pointer base space size => cases ht
  | scalar s =>
    cases s <;> first
      | exact ⟨by decide, .inl fun v => rfl⟩
      | exact ⟨by decide, .inr fun v => rfl⟩
      | cases ht

theorem modEq_of_word (h : x ≡ y [ZMOD 2 ^ 64]) : x ≡ y [ZMOD 2 ^ t.base.bits] :=
  h.of_dvd (pow_dvd_pow 2 (cast_of_isInt ht).1)

theorem ofZ_congr (h : x ≡ y [ZMOD 2 ^ t.base.bits]) : ofZ t x = ofZ t y := by
  unfold ofZ normalize
  rcases (cast_of_isInt ht).2 with hcast | hcast
  · simp only [hcast, toSigned, wrapSigned_congr h, Option.getD_some]
  · simp only [hcast, toUnsigned, wrapUnsigned_congr h, Option.getD_some]

theorem toZ_ofZ (x : Int) : (ofZ t x).toZ ≡ x [ZMOD 2 ^ t.base.bits] := by
  unfold ofZ normalize
  rcases (cast_of_isInt ht).2 with hcast | hcast
  · simp only [hcast, Option.getD_some, toZ, toSigned]
    exact wrapSigned_modEq _ x
  · simp only [hcast, Option.getD_some, toZ, toUnsigned]
    exact wrapUnsigned_modEq _ x

theorem hasType_ofZ (x : Int) : (ofZ t x).HasType t := by
  unfold HasType ofZ normalize
  rcases (cast_of_isInt ht).2 with hcast | hcast
  · simp only [hcast, Option.getD_some, toSigned, wrapSigned_idem]
  · simp only [hcast, Option.getD_some, toUnsigned, wrapUnsigned_idem]

theorem kind_of_isInt :
    ((∀ v : Value, v.cast t = some (int (v.toSigned t.base.bits))) ∧
      ∀ v : Value, v.HasType t → ∃ x, v = int x) ∨
    ((∀ v : Value, v.cast t = some (uint (v.toUnsigned t.base.bits))) ∧
      ∀ v : Value, v.HasType t → ∃ n, v = uint n) := by
  rcases (cast_of_isInt ht).2 with hcast | hcast
  · exact .inl ⟨hcast, fun v hv => ⟨_, (Option.some.inj ((hcast v).symm.trans hv)).symm⟩⟩
  · exact .inr ⟨hcast, fun v hv => ⟨_, (Option.some.inj ((hcast v).symm.trans hv)).symm⟩⟩

theorem kinds_of_isInt {a b : Value} (ha : a.HasType t) (hb : b.HasType t) :
    (∃ x y, a = int x ∧ b = int y) ∨ ∃ m n, a = uint m ∧ b = uint n := by
  rcases kind_of_isInt ht with ⟨-, hkind⟩ | ⟨-, hkind⟩
  · obtain ⟨x, rfl⟩ := hkind a ha
    obtain ⟨y, rfl⟩ := hkind b hb
    exact .inl ⟨x, y, rfl, rfl⟩
  · obtain ⟨m, rfl⟩ := hkind a ha
    obtain ⟨n, rfl⟩ := hkind b hb
    exact .inr ⟨m, n, rfl, rfl⟩

theorem ofZ_toZ (hv : v.HasType t) : ofZ t v.toZ = v := by
  unfold ofZ normalize
  rcases kind_of_isInt ht with ⟨hcast, hkind⟩ | ⟨hcast, hkind⟩
  · obtain ⟨x, rfl⟩ := hkind v hv
    simp only [toZ, show (int x).cast t = some (int x) from hv, Option.getD_some]
  · obtain ⟨n, rfl⟩ := hkind v hv
    have hv : (uint n).cast t = some (uint n) := hv
    rw [hcast] at hv ⊢
    exact Option.some.inj hv

theorem cast_word (x : Int) :
    (int (wrapSigned 64 x)).cast t = some (ofZ t x) ∧
      (uint (wrapUnsigned 64 x)).cast t = some (ofZ t x) := by
  unfold ofZ normalize
  have hsigned := modEq_of_word ht (wrapSigned_modEq 64 x)
  have hunsigned := modEq_of_word ht (wrapUnsigned_modEq 64 x)
  rcases kind_of_isInt ht with ⟨hcast, -⟩ | ⟨hcast, -⟩
  · simp only [hcast, Option.getD_some, toSigned, wrapSigned_congr hsigned,
      wrapSigned_congr hunsigned, and_self]
  · simp only [hcast, Option.getD_some, toUnsigned, wrapUnsigned_congr hsigned,
      wrapUnsigned_congr hunsigned, and_self]

end

section Arithmetic

variable {a b : Value} (ht : t.isInt = true) (ha : a.HasType t) (hb : b.HasType t)

include ht ha hb

theorem eval_of_words {f : Int → Int → Int} (hop : op.isComparison = false)
    (hint : ∀ x y, rawBinary op (int x) (int y) = some (int (wrapSigned 64 (f x y))))
    (huint : ∀ m n : Nat, rawBinary op (uint m) (uint n) = some (uint (wrapUnsigned 64 (f m n)))) :
    op.eval t a b = some (ofZ t (f a.toZ b.toZ)) := by
  rw [BinaryOp.eval, hop, if_neg Bool.false_ne_true]
  rcases kinds_of_isInt ht ha hb with ⟨x, y, rfl, rfl⟩ | ⟨m, n, rfl, rfl⟩
  · rw [hint]
    exact (cast_word ht (f x y)).1
  · rw [huint]
    exact (cast_word ht (f m n)).2

theorem eval_add : BinaryOp.add.eval t a b = some (ofZ t (a.toZ + b.toZ)) :=
  eval_of_words ht ha hb rfl (fun _ _ => rfl) fun _ _ => rfl

theorem eval_sub : BinaryOp.sub.eval t a b = some (ofZ t (a.toZ - b.toZ)) :=
  eval_of_words ht ha hb rfl (fun _ _ => rfl) fun _ _ => rfl

theorem eval_mul : BinaryOp.mul.eval t a b = some (ofZ t (a.toZ * b.toZ)) :=
  eval_of_words ht ha hb rfl (fun _ _ => rfl) fun _ _ => rfl

end Arithmetic

end Residues

/-! ### Results have the requested type -/

/-- A value that is no float. -/
def IsPlain : Value → Prop
  | float _ => False
  | _ => True

theorem HasType.isPlain (ht : t.IsPlain) (hv : v.HasType t) : v.IsPlain := by
  rcases ht.cases with ht | rfl
  · rcases kind_of_isInt ht with ⟨-, hkind⟩ | ⟨-, hkind⟩
    · obtain ⟨x, rfl⟩ := hkind v hv
      trivial
    · obtain ⟨n, rfl⟩ := hkind v hv
      trivial
  · obtain ⟨b, rfl⟩ := hasType_bool_iff.mp hv
    trivial

theorem wrap_bit (ht : t.isInt = true) (b : Bool) :
    wrapSigned t.base.bits (if b then 1 else 0) = (if b then 1 else 0) ∧
      wrapUnsigned t.base.bits (if b then 1 else 0) = (if b then 1 else 0) := by
  cases t with
  | pointer base space size => cases ht
  | scalar s => revert ht b; cases s <;> decide

theorem truncate_between (lo hi : Int) (hlo : lo ≤ 0) (hhi : 0 ≤ hi) (f : Binary64) :
    lo ≤ f.truncate lo hi ∧ f.truncate lo hi ≤ hi := by
  simp only [Binary64.truncate]
  split_ifs <;> omega

theorem wrapSigned_truncate (ht : t.isInt = true) (f : Binary64) :
    wrapSigned t.base.bits ((float f).toSigned t.base.bits) = (float f).toSigned t.base.bits := by
  have hbounds : ∀ bits : Nat, 0 < bits →
      wrapSigned bits ((float f).toSigned bits) = (float f).toSigned bits := by
    intro bits hbits
    obtain ⟨n, rfl⟩ := Nat.exists_eq_succ_of_ne_zero hbits.ne'
    have hpos : (0 : Int) < (2 ^ n : Nat) := Int.natCast_pos.mpr (Nat.two_pow_pos n)
    have hbetween := truncate_between (-(2 ^ n : Nat)) ((2 ^ n : Nat) - 1) (by omega) (by omega) f
    simp only [wrapSigned, toSigned, Nat.succ_eq_add_one, Nat.add_sub_cancel, Nat.pow_eq] at hbetween ⊢
    refine Int.bmod_eq_of_le ?_ ?_ <;> rw [Nat.pow_succ] <;> omega
  refine hbounds _ ?_
  cases t with
  | pointer base space size => cases ht
  | scalar s => revert ht; cases s <;> decide

theorem hasType_of_cast (ht : t.IsPlain) (hw : v.cast t = some w) : w.HasType t := by
  rcases ht.cases with ht | rfl
  · unfold HasType
    rcases kind_of_isInt ht with ⟨hcast, -⟩ | ⟨hcast, -⟩
    · obtain rfl := Option.some.inj ((hcast v).symm.trans hw)
      rw [hcast]
      cases v with
      | float f => exact congrArg (some ∘ int) (wrapSigned_truncate ht f)
      | int x | uint n => simp only [toSigned, wrapSigned_idem]
      | bool b => simp only [toSigned, (wrap_bit ht b).1]
    · obtain rfl := Option.some.inj ((hcast v).symm.trans hw)
      rw [hcast]
      cases v with
      | float f | int x | uint n => simp only [toUnsigned, wrapUnsigned_idem]
      | bool b =>
        have hbit := (wrap_bit ht b).2
        cases b <;> simpa [toUnsigned] using hbit
  · obtain rfl : bool v.truthy = w := Option.some.inj hw
    exact hasType_bool_iff.mpr ⟨_, rfl⟩

theorem exists_cast (ht : t.IsPlain) (v : Value) : ∃ w, v.cast t = some w := by
  rcases ht.cases with ht | rfl
  · rcases kind_of_isInt ht with ⟨hcast, -⟩ | ⟨hcast, -⟩
    · exact ⟨_, hcast v⟩
    · exact ⟨_, hcast v⟩
  · exact ⟨_, rfl⟩

theorem HasType.normalize_eq (hv : v.HasType t) : v.normalize t = v := by
  rw [normalize, hv, Option.getD_some]

theorem hasType_normalize (ht : t.IsPlain) (v : Value) : (v.normalize t).HasType t := by
  obtain ⟨w, hw⟩ := exists_cast ht v
  rw [normalize, hw, Option.getD_some]
  exact hasType_of_cast ht hw

end Value

open Value

theorem UnaryOp.hasType_eval {op : UnaryOp} {v : Value} (ht : t.IsPlain)
    (hw : op.eval t v = some w) : w.HasType t := by
  obtain ⟨u, hu, hw⟩ := Option.bind_eq_some_iff.mp hw
  exact hasType_of_cast ht hw

theorem BinaryOp.hasType_eval (ht : t.IsPlain) (hop : op.isComparison = false)
    (hw : op.eval t a b = some w) : w.HasType t := by
  rw [BinaryOp.eval, hop, if_neg Bool.false_ne_true] at hw
  obtain ⟨u, hu, hw⟩ := Option.bind_eq_some_iff.mp hw
  exact hasType_of_cast ht hw

theorem BinaryOp.hasType_eval_comparison (hop : op.isComparison = true)
    (hw : op.eval t a b = some w) : w.HasType .bool := by
  rw [BinaryOp.eval, if_pos hop] at hw
  refine hasType_bool_iff.mpr ?_
  cases op with
  | lt => cases a <;> cases b <;> first | exact ⟨_, (Option.some.inj hw).symm⟩ | cases hw
  | eq =>
    simp only [rawBinary, Value.eq] at hw
    split at hw
    · exact ⟨_, (Option.some.inj hw).symm⟩
    · cases hw
  | ne =>
    simp only [rawBinary, Value.ne] at hw
    split at hw
    · exact ⟨_, (Option.some.inj hw).symm⟩
    · cases hw
  | _ => cases hop

theorem TernaryOp.hasType_eval {op : TernaryOp} {c : Value} (ht : t.IsPlain)
    (hw : op.eval t a b c = some w) : w.HasType t := by
  obtain ⟨u, hu, hw⟩ := Option.bind_eq_some_iff.mp hw
  exact hasType_of_cast ht hw

end LazyTensor

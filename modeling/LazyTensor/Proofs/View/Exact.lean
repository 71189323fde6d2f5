import LazyTensor.SymInt.Bounds
import LazyTensor.SymInt.Subst

/-!
# Arithmetic on constants at an exact width

A width is exact up to a bound when it neither wraps nor clamps a number of that magnitude. Symbolic
integers without variables then compute, compare and bound like plain integers. Unbounded arithmetic
is exact up to every bound, and 64-bit words up to the largest word.
-/

namespace LazyTensor

/-- Neither wraps nor clamps a number of magnitude at most `bound`. -/
def Width.ExactTo [Width] (bound : Int) : Prop :=
  ∀ x : Int, -bound ≤ x → x ≤ bound → Width.wrap x = x ∧ Width.clamp x = x

theorem Width.exactTo_word64 {bound : Int} (hbound : bound ≤ Width.maxWord) :
    @Width.ExactTo .word64 bound := by
  intro x hlow hhigh
  have hmin : Width.minWord ≤ x := by
    simp only [Width.minWord, Width.maxWord] at *
    omega
  have hmax : x ≤ Width.maxWord := Int.le_trans hhigh hbound
  have hfits : Width.FitsWord x := ⟨hmin, hmax⟩
  refine ⟨if_pos hfits, ?_⟩
  show (if x < Width.minWord then _ else if Width.maxWord < x then _ else x) = x
  rw [if_neg (Int.not_lt.mpr hmin), if_neg (Int.not_lt.mpr hmax)]

namespace SymInt

@[simp]
theorem const_eq_zero_iff {a : Int} : const a = 0 ↔ a = 0 := by
  show const a = const 0 ↔ a = 0
  simp

@[simp]
theorem const_eq_one_iff {a : Int} : const a = 1 ↔ a = 1 := by
  show const a = const 1 ↔ a = 1
  simp

variable [Width]

theorem const_add_const (a b : Int) : const a + const b = const (Width.wrap (a + b)) := rfl

theorem const_mul_const (a b : Int) : const a * const b = const (Width.wrap (a * b)) := rfl

theorem const_sub_const (a b : Int) :
    const a - const b = const (Width.wrap (a + Width.wrap (b * -1))) := rfl

@[simp]
theorem evalBound?_const (a : Int) : (const a).evalBound? = some a := rfl

section Exact

variable {bound a b : Int} (hexact : Width.ExactTo bound)
include hexact

theorem add_const (h : -bound ≤ a + b ∧ a + b ≤ bound) :
    const a + const b = const (a + b) := by
  rw [const_add_const, (hexact _ h.1 h.2).1]

theorem mul_const (h : -bound ≤ a * b ∧ a * b ≤ bound) :
    const a * const b = const (a * b) := by
  rw [const_mul_const, (hexact _ h.1 h.2).1]

theorem bounds_const (h : -bound ≤ a ∧ a ≤ bound) : (const a).bounds = (a, a) := by
  have hclamp : Width.clamp a = a := (hexact _ h.1 h.2).2
  simp [bounds, terms, addRange, monomialRange, hclamp]

theorem lower_const (h : -bound ≤ a ∧ a ≤ bound) : (const a).lower = a := by
  rw [lower, bounds_const hexact h]

variable (hb : -bound ≤ b ∧ b ≤ bound) (h : -bound ≤ a - b ∧ a - b ≤ bound)

include hb h

theorem sub_const : const a - const b = const (a - b) := by
  have hneg : Width.wrap (b * -1) = -b := by
    rw [Int.mul_neg_one]
    exact (hexact _ (by omega) (by omega)).1
  rw [const_sub_const, hneg]
  exact congrArg const (hexact (a - b) h.1 h.2).1

theorem lt?_const : lt? (const a) (const b) = some (decide (a < b)) := by
  rw [lt?, sub_const hexact hb h]
  simp only [upper, lower, bounds_const hexact h]
  by_cases hless : a < b
  · have hneg : a - b < 0 := by omega
    simp [hneg, hless]
  · have hneg : ¬ a - b < 0 := by omega
    simp [hneg, hless]

theorem min?_const : min? (const a) (const b) = some (const (min a b)) := by
  rw [min?, lt?_const hexact hb h]
  by_cases hless : a < b
  · simp [hless, Int.min_eq_left (Int.le_of_lt hless)]
  · simp [hless, Int.min_eq_right (Int.not_lt.mp hless)]

theorem max?_const : max? (const a) (const b) = some (const (max a b)) := by
  rw [max?, lt?_const hexact hb h]
  by_cases hless : a < b
  · simp [hless, Int.max_eq_right (Int.le_of_lt hless)]
  · simp [hless, Int.max_eq_left (Int.not_lt.mp hless)]

end Exact

end SymInt

end LazyTensor

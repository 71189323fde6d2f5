/-!
The width at which index arithmetic is carried out.

Sums and products of symbolic integers wrap around at the width, and their bounds saturate at it.
The compiler runs at 64 bits; at unbounded width both are exact.
-/

namespace LazyTensor

class Width where
  wrap : Int → Int
  clamp : Int → Int
  /-- A sum wraps to the same number if a part of it is wrapped before. -/
  wrap_wrap_add : ∀ x y, wrap (wrap x + y) = wrap (x + y)

namespace Width

def minWord : Int := -9223372036854775808

def maxWord : Int := 9223372036854775807

def FitsWord (x : Int) : Prop := minWord ≤ x ∧ x ≤ maxWord

instance (x : Int) : Decidable (FitsWord x) := inferInstanceAs (Decidable (_ ∧ _))

theorem ite_fitsWord (x : Int) :
    (if FitsWord x then x else Int.bmod x 18446744073709551616)
      = Int.bmod x 18446744073709551616 := by
  split
  · rename_i hfits
    obtain ⟨hlow, hhigh⟩ := hfits
    unfold minWord at hlow
    unfold maxWord at hhigh
    exact (Int.bmod_eq_of_le (by omega) (by omega)).symm
  · rfl

@[reducible] def word64 : Width where
  wrap x := if FitsWord x then x else Int.bmod x 18446744073709551616
  clamp x := if x < minWord then minWord else if maxWord < x then maxWord else x
  wrap_wrap_add x y := by
    rw [ite_fitsWord x, ite_fitsWord, ite_fitsWord, Int.bmod_add_bmod]

@[reducible] def unbounded : Width where
  wrap x := x
  clamp x := x
  wrap_wrap_add _ _ := rfl

end Width

end LazyTensor

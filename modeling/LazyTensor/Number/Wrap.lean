/-!
Residues of integers that represent machine words of a given number of bits.
-/

namespace LazyTensor

/-- The representative of `x` modulo `2 ^ bits` in `[-2 ^ (bits - 1), 2 ^ (bits - 1))`. -/
def wrapSigned (bits : Nat) (x : Int) : Int := Int.bmod x (Nat.pow 2 bits)

/-- The representative of `x` modulo `2 ^ bits` in `[0, 2 ^ bits)`. -/
def wrapUnsigned (bits : Nat) (x : Int) : Nat := (x % (Nat.pow 2 bits : Int)).toNat

end LazyTensor

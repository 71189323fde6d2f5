import LazyTensor.Number.Binary64

/-!
Floating-point numbers by their bits, as sixteen hexadecimal digits.
-/

namespace LazyTensor

def hexDigit? (c : Char) : Option Nat :=
  if c.isDigit then some (c.toNat - 48)
  else if 'a' ≤ c ∧ c ≤ 'f' then some (c.toNat - 87)
  else none

namespace Binary64

def ofHex? (s : String) : Option Binary64 :=
  (s.toList.mapM hexDigit?).map fun ds => ⟨(ds.foldl (fun n d => 16 * n + d) 0).toUInt64⟩

def hex (x : Binary64) : String :=
  String.ofList ((List.range 16).reverse.map fun i =>
    Nat.digitChar (x.bits.toNat / Nat.pow 16 i % 16))

end Binary64

end LazyTensor

import LazyTensor.Number.Binary64

/-!
The shortest decimal that reads back as a given double, and its text.

Of all decimals with the fewest digits that round to the number, the nearest is taken. Numbers from
`1e-4` up to but excluding `1e16` are written positionally with at least one decimal place, all
others with an exponent.
-/

namespace LazyTensor

namespace Shortest

/-- A positive decimal `digits * 10 ^ (point - count)`, with `count` digits. -/
structure Decimal where
  digits : Nat
  count : Nat
  point : Int

/-- How many times `num / den` has to be multiplied by ten to reach one. -/
def leadingZeros : (fuel : Nat) → (num den : Nat) → Nat
  | 0, _, _ => 0
  | fuel + 1, num, den => if den ≤ num then 0 else leadingZeros fuel (num * 10) den + 1

/-- The power of ten above `num / den`: the position of its first digit before the point. -/
def magnitude (num den : Nat) : Int :=
  if den ≤ num then ((Nat.toDigits 10 (num / den)).length : Int)
  else 1 - (leadingZeros 400 num den : Int)

/-- The interval of reals that round to a double, and the double itself, over one denominator. -/
structure Rounding where
  low : Nat
  value : Nat
  high : Nat
  den : Nat
  closed : Bool

def rounding (x : Binary64) : Rounding :=
  let m := x.mantissa
  let scale := Nat.pow 2 x.exponent
  let lowGap := if x.fractionField = 0 ∧ 1 < x.exponentField then 1 else 2
  { low := (4 * m - lowGap) * scale
    value := 4 * m * scale
    high := (4 * m + 2) * scale
    den := 4 * Nat.pow 2 1074
    closed := m % 2 == 0 }

def Rounding.contains (r : Rounding) (num den : Nat) : Bool :=
  if r.closed then r.low * den ≤ num * r.den && num * r.den ≤ r.high * den
  else r.low * den < num * r.den && num * r.den < r.high * den

/-- The decimal of `count` digits nearest to the number, if any of that length rounds to it. -/
def candidate (r : Rounding) (point : Int) (count : Nat) : Option Decimal :=
  let shift := point - count
  let unitNum := if 0 ≤ shift then Nat.pow 10 shift.toNat else 1
  let unitDen := if 0 ≤ shift then 1 else Nat.pow 10 (-shift).toNat
  let below := r.value * unitDen / (r.den * unitNum)
  let rest := r.value * unitDen % (r.den * unitNum)
  let fits (d : Nat) : Bool := r.contains (d * unitNum) unitDen
  let preferUpper : Bool := r.den * unitNum ≤ 2 * rest
  if fits below && !(preferUpper && fits (below + 1)) then some ⟨below, count, point⟩
  else if fits (below + 1) then some ⟨below + 1, count, point⟩
  else none

def search (r : Rounding) (point : Int) : (tries count : Nat) → Decimal
  | 0, count => ⟨r.value * Nat.pow 10 count / r.den, count, point⟩
  | tries + 1, count => (candidate r point count).getD (search r point tries (count + 1))

def ofFinite (x : Binary64) : Decimal :=
  let r := rounding x
  search r (magnitude r.value r.den) 17 1

/-- The digits without trailing zeros, and the position of the point relative to the first. -/
def Decimal.normal (d : Decimal) : List Char × Int :=
  let ds := Nat.toDigits 10 d.digits
  let point := d.point + ((ds.length : Int) - d.count)
  ((ds.reverse.dropWhile (· == '0')).reverse, point)

def positional (ds : List Char) (point : Int) : String :=
  let len : Int := ds.length
  if point ≤ 0 then
    "0." ++ String.ofList (List.replicate (-point).toNat '0' ++ ds)
  else if len ≤ point then
    String.ofList (ds ++ List.replicate (point - len).toNat '0') ++ ".0"
  else
    String.ofList (ds.take point.toNat) ++ "." ++ String.ofList (ds.drop point.toNat)

def scientific (ds : List Char) (point : Int) : String :=
  let tail := ds.drop 1
  String.ofList (ds.take 1) ++ (if tail.isEmpty then "" else "." ++ String.ofList tail) ++ "e"
    ++ toString (point - 1)

end Shortest

def Binary64.text (x : Binary64) : String :=
  if x.isNaN then "NaN"
  else
    let sign := if x.isNegative then "-" else ""
    if x.isInfinite then sign ++ "inf"
    else if x.mantissa = 0 then sign ++ "0.0"
    else
      let (ds, point) := (Shortest.ofFinite x).normal
      if -3 ≤ point ∧ point ≤ 16 then sign ++ Shortest.positional ds point
      else sign ++ Shortest.scientific ds point

end LazyTensor

/-!
Numerals for machine words.
-/

namespace LazyTensor

inductive NumeralError where
  | empty
  | invalidDigit
  | tooLarge
  deriving DecidableEq, Repr

def NumeralError.message : NumeralError → String
  | empty => "cannot parse integer from empty string"
  | invalidDigit => "invalid digit found in string"
  | tooLarge => "number too large to fit in target type"

def readDigits : List Char → Nat → Except NumeralError Nat
  | [], n => .ok n
  | c :: cs, n =>
    if c.isDigit then
      let next := 10 * n + (c.toNat - '0'.toNat)
      if next < 18446744073709551616 then readDigits cs next else .error .tooLarge
    else .error .invalidDigit

/-- A decimal numeral, which may start with a plus sign. -/
def readNumeral (s : String) : Except NumeralError Nat :=
  match s.toList with
  | [] => .error .empty
  | ['+'] => .error .invalidDigit
  | '+' :: cs => readDigits cs 0
  | cs => readDigits cs 0

end LazyTensor

import LazyTensor.SymInt.Basic

/-!
The text of symbolic integers: terms from the last to the first, so the constant comes at the end.
-/

namespace LazyTensor

def listText (items : List String) : String := "[" ++ String.intercalate ", " items ++ "]"

namespace SymInt

def termText (first : Bool) (t : Term) : String :=
  let sign := if t.2 < 0 then "-" else if first then "" else "+"
  let size := toString t.2.natAbs
  if t.1.isEmpty then sign ++ size
  else
    let names := String.intercalate "*" (t.1.map (·.name))
    if t.2.natAbs = 1 then sign ++ names else sign ++ size ++ "*" ++ names

def termsText : (first : Bool) → List Term → String
  | _, [] => ""
  | first, t :: rest => termText first t ++ termsText false rest

def text : SymInt → String
  | const c => toString c
  | poly ts => termsText true ts.reverse

end SymInt

def shapeText (shape : List SymInt) : String := listText (shape.map SymInt.text)

end LazyTensor

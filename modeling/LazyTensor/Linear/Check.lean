import LazyTensor.Graph.Op
import LazyTensor.Kernel.Error

/-!
Checks of instruction lists: the order of instructions and scopes, and the types of operands.
-/

namespace LazyTensor

def instrAt (is : Array Instr) (p : Ref) : Instr := is.getD p ⟨.noop, .void⟩

namespace Check

/-- An accumulator stands before its loops, anything else after its sources. -/
def sources (position : Nat) (op : Op) : Except CompileError Unit :=
  match op with
  | .defineAcc _ _ loops =>
    match loops.find? (· ≤ position) with
    | some range => .error (.accumulatorAfterLoop position range)
    | none => .ok ()
  | op =>
    match op.sources.find? (position ≤ ·) with
    | some operand => .error (.sourceNotEmitted position operand)
    | none => .ok ()

def scopes (position : Nat) (op : Op) (opened : List Nat) : Except CompileError (List Nat) :=
  match op with
  | .loop .. | .branch _ => .ok (position :: opened)
  | .endLoop scope | .endBranch scope =>
    match opened with
    | top :: rest => if top = scope then .ok rest else .error (.misnestedScope position scope)
    | [] => .error (.misnestedScope position scope)
  | _ => .ok opened

def orderFrom : (position : Nat) → List Instr → (opened : List Nat) → Except CompileError Unit
  | _, [], [] => .ok ()
  | _, [], scope :: _ => .error (.unclosedScope scope)
  | position, i :: rest, opened => do
    sources position i.op
    orderFrom (position + 1) rest (← scopes position i.op opened)

def endsOnSink (is : Array Instr) : Bool :=
  match is.back? with
  | some ⟨.sink _, _⟩ => true
  | _ => false

section

variable (is : Array Instr)

def typeAt (p : Ref) : DType := (instrAt is p).dtype

def textAt (p : Ref) : String := (typeAt is p).text

def load (t : DType) (buffer index : Ref) (gate : Option (Ref × Ref)) : Option String :=
  match (typeAt is buffer).pointee? with
  | none => some ("load from non-pointer " ++ textAt is buffer)
  | some base =>
    if typeAt is index ≠ .index then some ("load index has dtype " ++ textAt is index)
    else if t ≠ base then some ("load of " ++ t.text ++ " from a " ++ base.text ++ " buffer")
    else
      match gate with
      | none => none
      | some (valid, alt) =>
        if typeAt is valid ≠ .bool ∨ typeAt is alt ≠ base then
          some ("gate (" ++ textAt is valid ++ ", " ++ textAt is alt ++ ") on a " ++ base.text
            ++ " load")
        else none

def isGate (p : Ref) : Bool :=
  match (instrAt is p).op with
  | .branch _ => true
  | _ => typeAt is p == .bool

def store (buffer index value : Ref) (gate : Option Ref) : Option String :=
  match (typeAt is buffer).pointee? with
  | none => some ("store to non-pointer " ++ textAt is buffer)
  | some base =>
    if typeAt is index ≠ .index then some ("store index has dtype " ++ textAt is index)
    else if typeAt is value ≠ base then
      some ("store of " ++ textAt is value ++ " into a " ++ base.text ++ " buffer")
    else
      match gate.filter fun p => !isGate is p with
      | some p => some ("store gate has dtype " ++ textAt is p)
      | none => none

def binary (t : DType) (op : BinaryOp) (a b : Ref) : Option String :=
  let expected := if op.isComparison then .bool else typeAt is a
  if typeAt is a ≠ typeAt is b then
    some (op.name ++ " of " ++ textAt is a ++ " and " ++ textAt is b)
  else if t ≠ expected then
    some (op.name ++ " produces " ++ t.text ++ " instead of " ++ expected.text)
  else if (op = .idiv ∨ op = .mod) ∧ !(typeAt is a).isInt then
    some (op.name ++ " on " ++ textAt is a)
  else none

def select (t : DType) (cond a b : Ref) : Option String :=
  if typeAt is cond ≠ .bool ∨ typeAt is a ≠ typeAt is b ∨ t ≠ typeAt is a then
    some ("where(" ++ textAt is cond ++ ", " ++ textAt is a ++ ", " ++ textAt is b ++ ")")
  else none

def isAccumulator (p : Ref) : Bool :=
  match (instrAt is p).op with
  | .defineAcc .. => true
  | _ => false

def phi (t : DType) (acc value : Ref) : Option String :=
  if !isAccumulator is acc then some "phi target is not an accumulator"
  else if typeAt is acc ≠ t ∨ typeAt is value ≠ t then
    some ("phi of " ++ textAt is value ++ " into " ++ textAt is acc)
  else none

def problem? (i : Instr) : Option String :=
  match i.op with
  | .load buffer index gate => load is i.dtype buffer index gate
  | .store buffer index value gate => store is buffer index value gate
  | .binary op a b => binary is i.dtype op a b
  | .ternary .select cond a b => select is i.dtype cond a b
  | .unary op a =>
    if i.dtype ≠ typeAt is a then
      some (op.name ++ " of " ++ textAt is a ++ " produces " ++ i.dtype.text)
    else none
  | .loop start stop _ =>
    if typeAt is start ≠ .index ∨ typeAt is stop ≠ .index then
      some ("loop bounds of " ++ textAt is start ++ " and " ++ textAt is stop)
    else none
  | .special _ size =>
    if typeAt is size ≠ .index then some ("grid size of " ++ textAt is size) else none
  | .branch cond =>
    if typeAt is cond ≠ .bool then some ("branch on " ++ textAt is cond) else none
  | .phi acc value _ => phi is i.dtype acc value
  | _ => none

def typesFrom : (position : Nat) → List Instr → Except CompileError Unit
  | _, [] => .ok ()
  | position, i :: rest =>
    match problem? is i with
    | some reason => .error (.typeCheck position reason)
    | none => typesFrom (position + 1) rest

end

end Check

/-- The list ends on the sink, sources come before their use, end markers close the innermost scope,
and accumulators stand before their loops. -/
def verifyOrder (is : Array Instr) : Except CompileError Unit :=
  if Check.endsOnSink is then Check.orderFrom 0 is.toList [] else .error .missingSink

def verifyTypes (is : Array Instr) : Except CompileError Unit := Check.typesFrom is 0 is.toList

end LazyTensor

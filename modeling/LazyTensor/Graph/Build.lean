import LazyTensor.Graph.Basic

/-!
Typed construction of instructions: operand types are checked before a node is added.
-/

namespace LazyTensor

namespace Build

def insert (op : Op) (t : DType) : GraphM Ref := modifyGet fun g => g.insert ⟨op, t⟩

def dtypeOf (r : Ref) : Build DType := do return (← get).dtype r

def const (v : Value) (t : DType) : GraphM Ref := insert (.const (v.normalize t)) t

def index (n : Int) : GraphM Ref := const (.int n) .index

def expectIndex (r : Ref) : Build Unit := do
  let t ← dtypeOf r
  unless t = .index do throw (.indexType t)

def expectBool (r : Ref) : Build Unit := do
  let t ← dtypeOf r
  unless t = .bool do throw (.conditionType t)

def expectPointer (r : Ref) (what : String) : Build DType := do
  let t ← dtypeOf r
  match t.pointee? with
  | some base => return base
  | none => throw (.pointerExpected what t)

def expectSame (op : String) (l r : DType) : Build Unit := do
  unless l = r do throw (.operandTypes op l r)

def special (axis : Nat) (size : Ref) : Build Ref := do
  expectIndex size
  insert (.special axis size) .index

def symbol (v : SymVar) : GraphM Ref := insert (.defineVar v.unbound) .index

def phi (acc value : Ref) (loops : List Ref) : Build Ref := do
  let t ← dtypeOf acc
  expectSame "phi" t (← dtypeOf value)
  insert (.phi acc value loops) t

def sink (sources : List Ref) : GraphM Ref := insert (.sink sources) .void

def noop : GraphM Ref := insert .noop .void

def global (slot : Nat) (base : DType) : GraphM Ref :=
  insert (.defineGlobal slot) (base.toPointer none .global)

def shared (name : String) (size : Nat) (base : DType) : GraphM Ref :=
  insert (.defineLocal name size) (base.toPointer (some size) .shared)

def accumulator (slot : Nat) (init : Value) (t : DType) (loops : List Ref) : GraphM Ref :=
  insert (.defineAcc slot (init.normalize t) loops) t

def checkGate (base : DType) : Option (Ref × Ref) → Build Unit
  | none => pure ()
  | some (valid, alt) => do
    expectBool valid
    expectSame "gated load" base (← dtypeOf alt)

def load (buffer index : Ref) (gate : Option (Ref × Ref)) : Build Ref := do
  let base ← expectPointer buffer "load buffer"
  expectIndex index
  checkGate base gate
  insert (.load buffer index gate) base

def store (buffer index value : Ref) (gate : Option Ref) : Build Ref := do
  let base ← expectPointer buffer "store buffer"
  expectIndex index
  expectSame "store" base (← dtypeOf value)
  gate.forM expectBool
  insert (.store buffer index value gate) .void

end Build

def UnaryOp.accepts (op : UnaryOp) (t : DType) : Bool :=
  match op with
  | .neg => t.isFloat || t.isInt
  | _ => t.isFloat

def BinaryOp.accepts (op : BinaryOp) (t : DType) : Bool :=
  match op with
  | .fdiv => t.isFloat
  | .idiv | .mod => t.isInt
  | .and | .or | .xor => t.isInt || t.isBool
  | _ => !t.isPointer && t != .void

def BinaryOp.resultType (op : BinaryOp) (t : DType) : DType :=
  if op.isComparison then .bool else t

namespace Build

def unary (op : UnaryOp) (a : Ref) : Build Ref := do
  let t ← dtypeOf a
  unless op.accepts t do throw (.unaryType op t)
  insert (.unary op a) t

def binary (op : BinaryOp) (a b : Ref) : Build Ref := do
  let l ← dtypeOf a
  let r ← dtypeOf b
  unless l = r do throw (.binaryMismatch op l r)
  unless op.accepts l do throw (.binaryTypes op [l, r])
  insert (.binary op a b) (op.resultType l)

def add : Ref → Ref → Build Ref := binary .add
def mul : Ref → Ref → Build Ref := binary .mul
def sub : Ref → Ref → Build Ref := binary .sub
def idiv : Ref → Ref → Build Ref := binary .idiv
def mod : Ref → Ref → Build Ref := binary .mod
def max : Ref → Ref → Build Ref := binary .max
def lt : Ref → Ref → Build Ref := binary .lt
def and : Ref → Ref → Build Ref := binary .and

def ternary (op : TernaryOp) (a b c : Ref) : Build Ref := do
  let t ← dtypeOf b
  expectSame "ternary" t (← dtypeOf c)
  match op with
  | .select => expectBool a
  | .mulAcc => expectSame "mulacc" (← dtypeOf a) t
  insert (.ternary op a b c) t

def select (cond yes no : Ref) : Build Ref := ternary .select cond yes no

def cast (a : Ref) (t : DType) : GraphM Ref := do
  let g ← get
  if g.dtype a = t then return g.resolve a else insert (.cast a) t

def loop (start stop : Ref) (axis : LoopAxis) : Build Ref := do
  expectIndex start
  expectIndex stop
  insert (.loop start stop axis) .index

def branch (cond : Ref) : Build Ref := do
  expectBool cond
  insert (.branch cond) .void

def endLoop (range : Ref) : GraphM Ref := insert (.endLoop range) .void

def endBranch (b : Ref) : GraphM Ref := insert (.endBranch b) .void

def barrier (deps : List Ref) : GraphM Ref := insert (.barrier deps) .void

/-- The instructions that their operands alone determine, by name. -/
def ofName? : String → List Ref → Option (Build Ref)
  | "add", [a, b] => some (add a b)
  | "mul", [a, b] => some (mul a b)
  | "sub", [a, b] => some (sub a b)
  | "idiv", [a, b] => some (idiv a b)
  | "modulo", [a, b] => some (mod a b)
  | "max", [a, b] => some (max a b)
  | "lt", [a, b] => some (lt a b)
  | "and", [a, b] => some (and a b)
  | "where", [cond, yes, no] => some (select cond yes no)
  | "phi", acc :: value :: loops => some (phi acc value loops)
  | "if", [cond] => some (branch cond)
  | "end_loop", [range] => some (endLoop range : GraphM Ref)
  | "end_if", [b] => some (endBranch b : GraphM Ref)
  | "sink", rs => some (sink rs : GraphM Ref)
  | "barrier", rs => some (barrier rs : GraphM Ref)
  | "noop", [] => some (noop : GraphM Ref)
  | _, _ => none

end Build

end LazyTensor

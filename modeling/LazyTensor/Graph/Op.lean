import LazyTensor.SymInt.Text
import LazyTensor.Value.Basic

/-!
Instructions. In a graph a reference is the number of a node, in a list it is a position.
-/

namespace LazyTensor

abbrev Ref := Nat

inductive LoopKind where
  | global
  | reduce
  deriving DecidableEq, Repr

def LoopKind.name : LoopKind → String
  | global => "Global"
  | reduce => "Reduce"

def LoopKind.ofName? : String → Option LoopKind
  | "Global" => some global
  | "Reduce" => some reduce
  | _ => none

structure LoopAxis where
  kind : LoopKind
  axis : Nat
  deriving DecidableEq, Repr

def LoopAxis.le (a b : LoopAxis) : Bool :=
  match a.kind, b.kind with
  | .global, .reduce => true
  | .reduce, .global => false
  | _, _ => a.axis ≤ b.axis

inductive Op where
  /-- The root; its sources are the effects of a kernel. -/
  | sink (sources : List Ref)
  | const (value : Value)
  /-- The index of a launch along an axis. -/
  | special (axis : Nat) (size : Ref)
  /-- The final value of an accumulator, which takes `value` in every iteration of the loops. -/
  | phi (acc value : Ref) (loops : List Ref)
  | noop
  | defineGlobal (slot : Nat)
  | defineLocal (name : String) (size : Nat)
  | defineVar (var : SymVar)
  | defineAcc (slot : Nat) (init : Value) (loops : List Ref)
  /-- With a gate, reads only where the first part holds and gives the second elsewhere. -/
  | load (buffer index : Ref) (gate : Option (Ref × Ref))
  | store (buffer index value : Ref) (gate : Option Ref)
  | cast (src : Ref)
  | unary (op : UnaryOp) (a : Ref)
  | binary (op : BinaryOp) (a b : Ref)
  | ternary (op : TernaryOp) (a b c : Ref)
  | loop (start stop : Ref) (axis : LoopAxis)
  | endLoop (range : Ref)
  | branch (cond : Ref)
  | endBranch (branch : Ref)
  | barrier (deps : List Ref)
  deriving DecidableEq

inductive OpKind where
  | sink
  | const
  | special
  | phi
  | noop
  | defineGlobal
  | defineLocal
  | defineVar
  | defineAcc
  | load
  | store
  | cast
  | unary
  | binary
  | ternary
  | loop
  | endLoop
  | branch
  | endBranch
  | barrier
  deriving DecidableEq, Repr

def OpKind.name : OpKind → String
  | sink => "Sink"
  | const => "Const"
  | special => "Special"
  | phi => "Phi"
  | noop => "Noop"
  | defineGlobal => "DefineGlobal"
  | defineLocal => "DefineLocal"
  | defineVar => "DefineVar"
  | defineAcc => "DefineAcc"
  | load => "Load"
  | store => "Store"
  | cast => "Cast"
  | unary => "Unary"
  | binary => "Binary"
  | ternary => "Ternary"
  | loop => "Loop"
  | endLoop => "EndLoop"
  | branch => "If"
  | endBranch => "EndIf"
  | barrier => "Barrier"

namespace Op

def kind : Op → OpKind
  | sink _ => .sink
  | const _ => .const
  | special .. => .special
  | phi .. => .phi
  | noop => .noop
  | defineGlobal _ => .defineGlobal
  | defineLocal .. => .defineLocal
  | defineVar _ => .defineVar
  | defineAcc .. => .defineAcc
  | load .. => .load
  | store .. => .store
  | cast _ => .cast
  | unary .. => .unary
  | binary .. => .binary
  | ternary .. => .ternary
  | loop .. => .loop
  | endLoop _ => .endLoop
  | branch _ => .branch
  | endBranch _ => .endBranch
  | barrier _ => .barrier

def sources : Op → List Ref
  | const _ | noop | defineGlobal _ | defineLocal .. | defineVar _ => []
  | sink rs | barrier rs => rs
  | special _ size => [size]
  | phi acc value loops => acc :: value :: loops
  | defineAcc _ _ loops => loops
  | load buffer index none => [buffer, index]
  | load buffer index (some (valid, alt)) => [buffer, index, valid, alt]
  | store buffer index value none => [buffer, index, value]
  | store buffer index value (some gate) => [buffer, index, value, gate]
  | cast a | unary _ a => [a]
  | binary _ a b => [a, b]
  | ternary _ a b c => [a, b, c]
  | loop start stop _ => [start, stop]
  | endLoop r | branch r | endBranch r => [r]

def mapSources (f : Ref → Ref) : Op → Op
  | const v => const v
  | noop => noop
  | defineGlobal slot => defineGlobal slot
  | defineLocal name size => defineLocal name size
  | defineVar v => defineVar v
  | sink rs => sink (rs.map f)
  | barrier rs => barrier (rs.map f)
  | special axis size => special axis (f size)
  | phi acc value loops => phi (f acc) (f value) (loops.map f)
  | defineAcc slot init loops => defineAcc slot init (loops.map f)
  | load buffer index gate => load (f buffer) (f index) (gate.map fun g => (f g.1, f g.2))
  | store buffer index value gate => store (f buffer) (f index) (f value) (gate.map f)
  | cast a => cast (f a)
  | unary op a => unary op (f a)
  | binary op a b => binary op (f a) (f b)
  | ternary op a b c => ternary op (f a) (f b) (f c)
  | loop start stop axis => loop (f start) (f stop) axis
  | endLoop r => endLoop (f r)
  | branch r => branch (f r)
  | endBranch r => endBranch (f r)

structure Params where
  names : List String := []
  numbers : List Int := []
  value : Option Value := none

def params : Op → Params
  | const v => { value := some v }
  | special axis _ => { numbers := [axis] }
  | defineGlobal slot => { numbers := [slot] }
  | defineLocal name size => { names := [name], numbers := [size] }
  | defineVar v => { names := [v.name], numbers := [v.min, v.max] }
  | defineAcc slot init _ => { numbers := [slot], value := some init }
  | unary op _ => { names := [op.name] }
  | binary op _ _ => { names := [op.name] }
  | ternary op _ _ _ => { names := [op.name] }
  | loop _ _ axis => { names := [axis.kind.name], numbers := [axis.axis] }
  | _ => {}

/-- The operation with the given name of its kind, parameters and sources. -/
def ofParts? (kind : String) (p : Params) (sources : List Ref) : Option Op :=
  match kind, p.names, p.numbers, p.value, sources with
  | "Sink", _, _, _, rs => some (sink rs)
  | "Barrier", _, _, _, rs => some (barrier rs)
  | "Noop", _, _, _, [] => some noop
  | "Const", _, _, some v, [] => some (const v)
  | "Special", _, [axis], _, [size] => some (special axis.toNat size)
  | "Phi", _, _, _, acc :: value :: loops => some (phi acc value loops)
  | "DefineGlobal", _, [slot], _, [] => some (defineGlobal slot.toNat)
  | "DefineLocal", [name], [size], _, [] => some (defineLocal name size.toNat)
  | "DefineVar", [name], [min, max], _, [] => some (defineVar ⟨name, min, max, none⟩)
  | "DefineAcc", _, [slot], some init, loops => some (defineAcc slot.toNat init loops)
  | "Load", _, _, _, [buffer, index] => some (load buffer index none)
  | "Load", _, _, _, [buffer, index, valid, alt] => some (load buffer index (some (valid, alt)))
  | "Store", _, _, _, [buffer, index, value] => some (store buffer index value none)
  | "Store", _, _, _, [buffer, index, value, gate] => some (store buffer index value (some gate))
  | "Cast", _, _, _, [a] => some (cast a)
  | "Unary", [op], _, _, [a] => (UnaryOp.ofName? op).map (unary · a)
  | "Binary", [op], _, _, [a, b] => (BinaryOp.ofName? op).map (binary · a b)
  | "Ternary", [op], _, _, [a, b, c] => (TernaryOp.ofName? op).map (ternary · a b c)
  | "Loop", [k], [axis], _, [start, stop] =>
    (LoopKind.ofName? k).map fun k => loop start stop ⟨k, axis.toNat⟩
  | "EndLoop", _, _, _, [r] => some (endLoop r)
  | "If", _, _, _, [r] => some (branch r)
  | "EndIf", _, _, _, [r] => some (endBranch r)
  | _, _, _, _, _ => none

def opensScope : Op → Bool
  | loop .. | branch _ => true
  | _ => false

def hasSideEffect : Op → Bool
  | store .. | barrier _ => true
  | _ => false

def isNoop : Op → Bool
  | noop => true
  | _ => false

end Op

def refDetails (r : Ref) : String := "UOpId(" ++ toString r ++ ")"

def Op.details : Op → String
  | .cast a => "Cast \x7b src: " ++ refDetails a ++ " \x7d"
  | .unary op a => "Unary(" ++ op.name ++ ", " ++ refDetails a ++ ")"
  | .binary op a b => "Binary(" ++ op.name ++ ", " ++ refDetails a ++ ", " ++ refDetails b ++ ")"
  | .ternary op a b c =>
    "Ternary(" ++ op.name ++ ", " ++ refDetails a ++ ", " ++ refDetails b ++ ", " ++ refDetails c
      ++ ")"
  | op => op.kind.name

structure Instr where
  op : Op
  dtype : DType
  deriving DecidableEq

namespace Instr

def const? (i : Instr) : Option Value :=
  match i.op with
  | .const v => some v
  | _ => none

def describe (i : Instr) : String :=
  match i.op with
  | .const v => "CONST " ++ v.text
  | .defineGlobal slot => s!"DEFINE_GLOBAL {slot}"
  | .defineLocal name size => "DEFINE_LOCAL " ++ name ++ s!"[{size}]"
  | .defineVar v => "DEFINE_VAR " ++ v.name ++ s!"[{v.min}..={v.max}]"
  | .defineAcc slot init _ => s!"DEFINE_ACC #{slot} init=" ++ init.text
  | .special axis _ => s!"SPECIAL gidx{axis}"
  | .loop _ _ axis => "LOOP " ++ axis.kind.name ++ toString axis.axis
  | .unary op _ => op.name
  | .binary op _ _ => op.name
  | .ternary op _ _ _ => op.name
  | .load _ _ (some _) => "LOAD (gated)"
  | .store _ _ _ (some _) => "STORE (gated)"
  | op => op.kind.name.toUpper

def padRight (width : Nat) (s : String) : String :=
  s ++ String.ofList (List.replicate (width - s.length) ' ')

def padLeft (width : Nat) (s : String) : String :=
  String.ofList (List.replicate (width - s.length) ' ') ++ s

def refText (r : Ref) : String := s!"%{r}"

def line (number : Ref) (i : Instr) (sources : List Ref) : String :=
  padLeft 5 (refText number) ++ " " ++ padRight 6 i.dtype.text ++ " " ++ padRight 28 i.describe
    ++ " " ++ listText (sources.map refText) ++ "\n"

end Instr

end LazyTensor

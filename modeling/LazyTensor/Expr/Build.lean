import LazyTensor.Expr.Basic

/-!
Checked construction of operation trees, inside a table and from finished trees.
-/

namespace LazyTensor

abbrev ExprM := StateT Expr (Except BuildError)

namespace ExprM

def node (i : Nat) : ExprM ExprNode := return (← get).node i

def insert (n : ExprNode) : ExprM Nat := modifyGet fun e => e.insert n

def like (a : Nat) (op : ExprOp) : ExprM Nat := do insert { ← node a with op }

def load (slot : Nat) (t : DType) (l : Layout) : ExprM Nat := insert ⟨.load slot l, t, l.shape⟩

def const (v : Value) (t : DType) (l : Layout) : ExprM Nat :=
  insert ⟨.const (v.normalize t) l, t, l.shape⟩

def unary (op : UnaryOp) (a : Nat) : ExprM Nat := like a (.unary op a)

def cast (t : DType) (a : Nat) : ExprM Nat := do insert ⟨.cast a, t, (← node a).shape⟩

def binary (op : BinaryOp) (a b : Nat) : ExprM Nat := do
  let l ← node a
  let r ← node b
  unless l.shape = r.shape do throw (.operandShapes "binary" l.shape r.shape)
  unless l.dtype = r.dtype do throw (.operandTypes "binary" l.dtype r.dtype)
  insert ⟨.binary op a b, if op.isComparison then .bool else l.dtype, l.shape⟩

def ternary (op : TernaryOp) (a b c : Nat) : ExprM Nat := do
  let x ← node a
  let y ← node b
  let z ← node c
  unless x.shape = y.shape do throw (.operandShapes "ternary" x.shape y.shape)
  unless x.shape = z.shape do throw (.operandShapes "ternary" x.shape z.shape)
  unless y.dtype = z.dtype do throw (.operandTypes "ternary" y.dtype z.dtype)
  insert ⟨.ternary op a b c, y.dtype, x.shape⟩

end ExprM

namespace Expr

def sortedAxes (axes : List Nat) : List Nat := insertElems compare axes []

/-- A shape with the given axes reduced to size 1. -/
def reducedShape (shape : Shape) (axes : List Nat) : Shape :=
  shape.zipIdx.map fun (d, i) => if axes.contains i then 1 else d

end Expr

namespace ExprM

def reduce (op : ReduceOp) (axes : List Nat) (a : Nat) : ExprM Nat := do
  let axes := Expr.sortedAxes axes
  let x ← node a
  match axes.find? (x.shape.length ≤ ·) with
  | some axis => throw (.axisRange axis x.shape.length)
  | none => insert ⟨.reduce op axes a, x.dtype, Expr.reducedShape x.shape axes⟩

def store (slot : Nat) (l : Layout) (a : Nat) : ExprM Nat := do
  let x ← node a
  unless l.shape = x.shape do throw (.operandShapes "store" l.shape x.shape)
  insert ⟨.store slot l a, x.dtype, x.shape⟩

def sink (parts : List Nat) : ExprM Nat := insert ⟨.sink parts, .void, []⟩

/-- Adds one node of another table, given where its earlier nodes are. A node that stands at the
same place in both is not looked for. -/
def embedNode (places : Array Nat) (n : ExprNode) : ExprM (Array Nat) := do
  let n := { n with op := n.op.mapSources fun i => places.getD i 0 }
  if (← get).nodes[places.size]? = some n then return places.push places.size
  else return places.push (← insert n)

def embed (e : Expr) : ExprM Nat := do
  let places ← e.nodes.toList.foldlM embedNode #[]
  return places.getD e.root 0

end ExprM

namespace Expr

def extend (e : Expr) (b : ExprM Nat) : Except BuildError Expr := return (← b.run e).2

def mkLoad (slot : Nat) (t : DType) (l : Layout) : Except BuildError Expr :=
  extend {} (.load slot t l)

def mkConst (v : Value) (t : DType) (l : Layout) : Except BuildError Expr :=
  extend {} (.const v t l)

def mkUnary (op : UnaryOp) (a : Expr) : Except BuildError Expr := a.extend (.unary op a.root)

def mkCast (t : DType) (a : Expr) : Except BuildError Expr := a.extend (.cast t a.root)

def mkBinary (op : BinaryOp) (a b : Expr) : Except BuildError Expr :=
  a.extend do
    let b ← ExprM.embed b
    ExprM.binary op a.root b

def mkTernary (op : TernaryOp) (a b c : Expr) : Except BuildError Expr :=
  a.extend do
    let b ← ExprM.embed b
    let c ← ExprM.embed c
    ExprM.ternary op a.root b c

def mkReduce (op : ReduceOp) (a : Expr) (axes : List Nat) : Except BuildError Expr :=
  a.extend (.reduce op axes a.root)

def mkStore (slot : Nat) (l : Layout) (a : Expr) : Except BuildError Expr :=
  a.extend (.store slot l a.root)

def mkSink (parts : List Expr) : Except BuildError Expr :=
  extend {} do ExprM.sink (← parts.mapM ExprM.embed)

end Expr

end LazyTensor

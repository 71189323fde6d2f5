import LazyTensor.Layout
import LazyTensor.Value.Basic

/-!
Operation trees: the computation of one kernel over whole arrays.

Leaves read a kernel argument, or a constant, through a layout; every other node works element by
element, except a reduction, which keeps the reduced axes with size 1. The root is a sink of stores.

A tree is kept as the table of its different subtrees, so that one which occurs many times is held
and worked on once. The table lists every subtree after its own subtrees, in the order in which they
are first met from left to right, so equal trees have equal tables.
-/

namespace LazyTensor

/-- What a node does. Its operands are given by their place in the table. -/
inductive ExprOp where
  | load (slot : Nat) (layout : Layout)
  /-- A constant in every element; where the layout has none, the element is zero. -/
  | const (value : Value) (layout : Layout)
  | unary (op : UnaryOp) (a : Nat)
  | binary (op : BinaryOp) (a b : Nat)
  | ternary (op : TernaryOp) (a b c : Nat)
  | cast (a : Nat)
  | reduce (op : ReduceOp) (axes : List Nat) (a : Nat)
  | store (slot : Nat) (layout : Layout) (a : Nat)
  | sink (parts : List Nat)
  deriving DecidableEq

namespace ExprOp

def sources : ExprOp → List Nat
  | load .. | const .. => []
  | unary _ a | cast a | reduce _ _ a | store _ _ a => [a]
  | binary _ a b => [a, b]
  | ternary _ a b c => [a, b, c]
  | sink parts => parts

def mapSources (f : Nat → Nat) : ExprOp → ExprOp
  | load slot l => load slot l
  | const v l => const v l
  | unary op a => unary op (f a)
  | binary op a b => binary op (f a) (f b)
  | ternary op a b c => ternary op (f a) (f b) (f c)
  | cast a => cast (f a)
  | reduce op axes a => reduce op axes (f a)
  | store slot l a => store slot l (f a)
  | sink parts => sink (parts.map f)

def kindName : ExprOp → String
  | load .. => "Load"
  | const .. => "Const"
  | unary .. => "Unary"
  | binary .. => "Binary"
  | ternary .. => "Ternary"
  | cast _ => "Cast"
  | reduce .. => "Reduce"
  | store .. => "Store"
  | sink _ => "Sink"

def isStore : ExprOp → Bool
  | store .. => true
  | _ => false

def isReduce : ExprOp → Bool
  | reduce .. => true
  | _ => false

end ExprOp

structure ExprNode where
  op : ExprOp
  dtype : DType
  shape : Shape
  deriving DecidableEq

namespace ExprNode

instance : Inhabited ExprNode := ⟨.sink [], .void, []⟩

def label (n : ExprNode) : String :=
  match n.op with
  | .load slot l => s!"LOAD buf{slot} " ++ l.text
  | .const v l => "CONST " ++ v.text ++ " " ++ l.text
  | .unary op _ => op.name
  | .binary op _ _ => op.name
  | .ternary op _ _ _ => op.name
  | .cast _ => "CAST " ++ n.dtype.text
  | .reduce op axes _ => "REDUCE " ++ op.name ++ " " ++ listText (axes.map toString)
  | .store slot l _ => s!"STORE buf{slot} " ++ l.text
  | .sink _ => "SINK"

def line (n : ExprNode) (depth : Nat) : String :=
  String.ofList (List.replicate (2 * depth) ' ')
    ++ n.label ++ " : " ++ n.dtype.text ++ " " ++ shapeText n.shape ++ "\n"

end ExprNode

/-- A tree as the table of its subtrees, the whole tree last. -/
structure Expr where
  nodes : Array ExprNode := #[]
  deriving DecidableEq

namespace Expr

def size (e : Expr) : Nat := e.nodes.size

def node (e : Expr) (i : Nat) : ExprNode := e.nodes.getD i default

def root (e : Expr) : Nat := e.size - 1

def top (e : Expr) : ExprNode := e.node e.root

def dtype (e : Expr) : DType := e.top.dtype

def shape (e : Expr) : Shape := e.top.shape

def stores (e : Expr) : List Nat :=
  match e.top.op with
  | .sink parts => parts.filter fun i => (e.node i).op.isStore
  | .store .. => [e.root]
  | _ => []

def hasReduce (e : Expr) : Bool := e.nodes.toList.any (·.op.isReduce)

def textAt (e : Expr) : (fuel : Nat) → (depth i : Nat) → String
  | 0, depth, i => (e.node i).line depth
  | fuel + 1, depth, i =>
    (e.node i).line depth ++ String.join ((e.node i).op.sources.map (e.textAt fuel (depth + 1)))

/-- One line per node, indented by depth; what is shared is written at every use. -/
def text (e : Expr) : String := e.textAt e.size 0 e.root

/-! ### The table -/

def findBelow (e : Expr) (n : ExprNode) : (bound : Nat) → Option Nat
  | 0 => none
  | i + 1 => if e.nodes[i]? = some n then some i else e.findBelow n i

def insert (e : Expr) (n : ExprNode) : Nat × Expr :=
  match e.findBelow n e.size with
  | some i => (i, e)
  | none => (e.size, ⟨e.nodes.push n⟩)

end Expr

end LazyTensor

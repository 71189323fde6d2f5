import LazyTensor.DType
import LazyTensor.Operation
import LazyTensor.SymInt.Text

/-!
What can go wrong while shapes, operation trees and instructions are built and simplified.
-/

namespace LazyTensor

inductive BuildError where
  | reshapeSize (input output : SymInt)
  | reshapeNegative (shape : List SymInt)
  | reshapeSymbolic (source target : List SymInt)
  | expandRank (input output : Nat)
  | expandDimension (dim : Nat) (input output : SymInt)
  | permutation (axes : List Nat) (rank : Nat)
  | padRank (padding rank : Nat)
  | shrinkBounds (dim : Nat) (start stop size : SymInt)
  | shrinkRank (ranges rank : Nat)
  | strideZero (dim : Nat)
  | strideRank (steps rank : Nat)
  | undecidedMask (bound : SymInt)
  | axisRange (axis rank : Nat)
  | bindRange (value min max : Int)
  | operandShapes (op : String) (lhs rhs : List SymInt)
  | operandTypes (op : String) (lhs rhs : DType)
  | binaryMismatch (op : BinaryOp) (lhs rhs : DType)
  | unaryType (op : UnaryOp) (dtype : DType)
  | binaryTypes (op : BinaryOp) (dtypes : List DType)
  | indexType (actual : DType)
  | pointerExpected (what : String) (actual : DType)
  | conditionType (actual : DType)
  | passesExhausted (passes : Nat)
  | ruleLoop (rule : String) (node limit : Nat)
  deriving DecidableEq, Repr

def BuildError.message : BuildError → String
  | reshapeSize i o =>
    "reshape size mismatch: input size " ++ i.text ++ " != output size " ++ o.text
  | reshapeNegative s => "reshape contains negative dimension in " ++ shapeText s
  | reshapeSymbolic s t =>
    "cannot reshape " ++ shapeText s ++ " to " ++ shapeText t ++ ": symbolic sizes do not agree"
  | expandRank i o =>
    s!"expand dimension mismatch: input has {i} dimensions, output has {o}"
  | expandDimension d i o =>
    s!"expand invalid: dimension {d} has size " ++ i.text ++ " but needs to expand to " ++ o.text
  | permutation axes rank =>
    "invalid permutation " ++ listText (axes.map toString)
      ++ s!": expected permutation of 0..{rank}"
  | padRank p r => s!"pad dimension mismatch: padding has {p} dimensions but shape has {r}"
  | shrinkBounds d b e s =>
    s!"shrink bounds violation: dimension {d} has range [" ++ b.text ++ ", " ++ e.text
      ++ ") but size is " ++ s.text
  | shrinkRank n r => s!"shrink rank mismatch: {n} ranges for {r} dimensions"
  | strideZero d => s!"stride multiplier on dimension {d} must be nonzero"
  | strideRank n r => s!"stride rank mismatch: {n} multipliers for {r} dimensions"
  | undecidedMask b => "symbolic mask bound " ++ b.text ++ " is not decidable"
  | axisRange a r => s!"axis {a} is out of range for {r} dimensions"
  | bindRange v lo hi => s!"bind value {v} is outside valid range [{lo}, {hi}]"
  | operandShapes op l r =>
    op ++ " operands have different shapes: " ++ shapeText l ++ " vs " ++ shapeText r
  | operandTypes op l r => op ++ " operands have different dtypes: " ++ l.text ++ " vs " ++ r.text
  | binaryMismatch op l r =>
    "dtype mismatch: cannot perform " ++ op.name ++ " on " ++ l.text ++ " and " ++ r.text
  | unaryType op t => "invalid dtype for " ++ op.name ++ ": " ++ t.text
  | binaryTypes op ts => "invalid dtypes for " ++ op.name ++ ": " ++ listText (ts.map DType.details)
  | indexType t => "index operand must have Index dtype, got " ++ t.text
  | pointerExpected what t => what ++ " must be a pointer, got " ++ t.text
  | conditionType t => "condition must be Bool, got " ++ t.text
  | passesExhausted n => s!"graph rewrite did not reach a fixed point after {n} passes"
  | ruleLoop rule node limit =>
    "rule '" ++ rule ++ s!"' kept rewriting node {node} past {limit} applications"

def BuildError.code : BuildError → String
  | reshapeSize .. => "ReshapeSizeMismatch"
  | reshapeNegative _ => "ReshapeNegativeDimension"
  | reshapeSymbolic .. => "SymbolicReshape"
  | expandRank .. => "ExpandRankMismatch"
  | expandDimension .. => "ExpandInvalidDimension"
  | permutation .. => "PermuteInvalidPermutation"
  | padRank .. => "PadRankMismatch"
  | shrinkBounds .. => "ShrinkBoundsViolation"
  | shrinkRank .. => "ShrinkRankMismatch"
  | strideZero _ => "StrideZero"
  | strideRank .. => "StrideRankMismatch"
  | undecidedMask _ => "SymbolicMask"
  | axisRange .. => "AxisOutOfRange"
  | bindRange .. => "BindValueOutOfRange"
  | operandShapes .. => "OperandShapeMismatch"
  | operandTypes .. => "OperandDTypeMismatch"
  | binaryMismatch .. => "DTypeMismatch"
  | unaryType .. => "InvalidDTypeForUnaryOp"
  | binaryTypes .. => "InvalidDTypeForBinaryOp"
  | indexType _ => "IndexTypeMismatch"
  | pointerExpected .. => "ExpectedPointer"
  | conditionType _ => "ConditionNotBool"
  | passesExhausted _ => "RewriteNonTermination"
  | ruleLoop .. => "RuleLoop"

def SymVar.bind (v : SymVar) (x : Int) : Except BuildError SymVar :=
  if v.min ≤ x ∧ x ≤ v.max then .ok { v with value := some x }
  else .error (.bindRange x v.min v.max)

end LazyTensor

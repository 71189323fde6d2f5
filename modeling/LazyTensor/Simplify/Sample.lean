import LazyTensor.Simplify.Table

/-!
Small rule tables that show how simplification settles, or fails to.
-/

namespace LazyTensor

namespace Rule

def sampleFold : Rule where
  name := "fold"
  kinds := [.binary]
  apply _ r := do
    let g ← get
    match g.op r with
    | .binary op a b =>
      let v ← Attempt.ofOption (do op.eval (g.dtype r) (← g.const? a) (← g.const? b))
      (Build.const v (g.dtype r) : GraphM Ref)
    | _ => failure

def sampleAddZero : Rule where
  name := "add_zero"
  kinds := [.binary]
  apply _ r := do
    let g ← get
    match g.op r with
    | .binary .add a b =>
      if (← Attempt.ofOption (g.const? b)).isZero then return a else failure
    | _ => failure

/-- Swaps the operands of a sum, which never settles. -/
def sampleCommute : Rule where
  name := "commute"
  kinds := [.binary]
  apply _ r := do
    match (← get).op r with
    | .binary .add a b => Build.toAttempt (Build.add b a)
    | _ => failure

/-- Negates a negation twice more; every pass finds new work. -/
def sampleGrow : Rule where
  name := "grow"
  kinds := [.unary]
  apply _ r := do
    let g ← get
    match g.op r with
    | .unary .neg a =>
      match g.op a with
      | .unary .neg _ => failure
      | _ => Build.toAttempt (do Build.unary .neg (← Build.unary .neg r))
    | _ => failure

/-- Lowers a constant above five by one. -/
def sampleDecrement : Rule where
  name := "decrement"
  kinds := []
  apply _ r := do
    match (← get).const? r with
    | some (.int v) => if 5 < v then (Build.index (v - 1) : GraphM Ref) else failure
    | _ => failure

end Rule

namespace RuleTable

def ofName? : String → Option RuleTable
  | "none" => some { rules := [] }
  | "symbolic" => some symbolic
  | "hoist" => some (kernel true)
  | "nohoist" => some (kernel false)
  | "hoist_only" => some hoistingOnly
  | "fold" => some { rules := [Rule.sampleFold, Rule.sampleAddZero] }
  | "commute" => some { rules := [Rule.sampleCommute] }
  | "grow" => some { rules := [Rule.sampleGrow] }
  | "decrement" => some { rules := [Rule.sampleDecrement] }
  | "decrement_fold" =>
    some { rules := [Rule.sampleDecrement, Rule.sampleFold, Rule.sampleAddZero] }
  | "fold_decrement" =>
    some { rules := [Rule.sampleFold, Rule.sampleAddZero, Rule.sampleDecrement] }
  | _ => none

end RuleTable

end LazyTensor

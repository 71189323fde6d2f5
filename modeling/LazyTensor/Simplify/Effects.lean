import LazyTensor.Simplify.Rule

/-!
Rules on memory accesses and on reductions.
-/

namespace LazyTensor

namespace Rule

open Attempt (ofOption)

/-- A load whose gate is constant reads always or never. -/
def loadGate (r : Ref) : Attempt Ref := do
  let g ← get
  match g.op r with
  | .load buffer index (some (valid, alt)) =>
    if (← ofOption (g.const? valid)).truthy then Build.toAttempt (Build.load buffer index none)
    else return alt
  | _ => failure

/-- A store whose gate is constant writes always or never. -/
def storeGate (r : Ref) : Attempt Ref := do
  let g ← get
  match g.op r with
  | .store buffer index value (some gate) =>
    if (← ofOption (g.const? gate)).truthy then
      Build.toAttempt (Build.store buffer index value none)
    else (Build.noop : GraphM Ref)
  | _ => failure

def readsPlace (g : Graph) (r buffer index : Ref) : Bool :=
  match g.op r with
  | .load b i none => b == buffer && i == index
  | _ => false

/-- Storing what was just read from the same place does nothing. -/
def redundantStore (r : Ref) : Attempt Ref := do
  let g ← get
  match g.op r with
  | .store buffer index value _ =>
    if readsPlace g value buffer index then (Build.noop : GraphM Ref) else failure
  | _ => failure

def bothHold (outer : Option Ref) (cond : Ref) : Attempt Ref :=
  match outer with
  | none => return cond
  | some gate => Build.toAttempt (Build.and gate cond)

/-- Storing a choice between a value and the old contents becomes a gated store of the value. -/
def gatedStore (r : Ref) : Attempt Ref := do
  let g ← get
  match g.op r with
  | .store buffer index value gate =>
    match g.op value with
    | .ternary .select cond yes no =>
      if readsPlace g no buffer index then
        let gate ← bothHold gate cond
        Build.toAttempt (Build.store buffer index yes (some gate))
      else failure
    | _ => failure
  | _ => failure

def dropNoops (r : Ref) : Attempt Ref := do
  let g ← get
  match g.op r with
  | .sink sources =>
    if sources.any fun s => (g.op s).isNoop then
      (Build.sink (sources.filter fun s => !(g.op s).isNoop) : GraphM Ref)
    else failure
  | _ => failure

def startsAtZero (g : Graph) (acc : Ref) : Bool :=
  match g.op acc with
  | .defineAcc _ init _ => init.isZero
  | _ => false

/-- A sum over one loop of a value that the loop does not change is the value times the count. -/
def collapseSum (r : Ref) : Attempt Ref := do
  let g ← get
  match g.op r with
  | .phi acc value [range] =>
    match g.op value, g.op range with
    | .binary .add left v, .loop start stop _ =>
      if startsAtZero g acc ∧ left = acc ∧ !g.dependsOn v range ∧ !g.dependsOn v acc then
        let count ← Build.toAttempt (Build.sub stop start)
        let count ← (Build.cast count (g.dtype r) : GraphM Ref)
        Build.toAttempt (Build.mul v count)
      else failure
    | _, _ => failure
  | _ => failure

end Rule

end LazyTensor

import LazyTensor.Graph.Build

/-!
Rules that replace one node of a graph by an equivalent one, and tables of rules.
-/

namespace LazyTensor

/-- Which nodes read a node, as of the start of a pass. -/
abbrev Readers := List (Ref × List Ref)

structure Rule where
  name : String
  /-- The kinds of node the rule is tried on; none means all. -/
  kinds : List OpKind
  /-- Finds a node to take the place of the given one. -/
  apply : Readers → Ref → Attempt Ref

def Rule.appliesTo (rule : Rule) (kind : OpKind) : Bool :=
  rule.kinds.isEmpty || rule.kinds.contains kind

structure RuleTable where
  rules : List Rule
  /-- Whether the rules are told the readers of nodes. -/
  tracksReaders : Bool := false

namespace RuleTable

/-- The first rule that leads from `r` to another node, and that node. -/
def firstMatch (readers : Readers) (r : Ref) : List Rule → GraphM (Option (String × Ref))
  | [] => return none
  | rule :: rest => do
    match ← (rule.apply readers r).run with
    | none => firstMatch readers r rest
    | some next =>
      let next := (← get).resolve next
      if next = r then firstMatch readers r rest else return some (rule.name, next)

def step (t : RuleTable) (readers : Readers) (r : Ref) : GraphM (Option (String × Ref)) := do
  let g ← get
  let r := g.resolve r
  firstMatch readers r (t.rules.filter (·.appliesTo (g.op r).kind))

def readersFor (t : RuleTable) (g : Graph) (root : Ref) : Readers :=
  if t.tracksReaders then g.consumers root else []

end RuleTable

namespace Attempt

def ofOption {α : Type} (o : Option α) : Attempt α := OptionT.mk (pure o)

end Attempt

end LazyTensor

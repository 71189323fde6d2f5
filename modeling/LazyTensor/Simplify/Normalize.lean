import LazyTensor.Simplify.Rule

/-!
Simplification to a fixed point.

A pass visits the nodes in order. Each is rebuilt over the results for its sources and then taken
through the rules until none applies. Passes are repeated until one changes nothing; then only what
the root reaches is kept.
-/

namespace LazyTensor

def maxApplications : Nat := 256

namespace RuleTable

variable (t : RuleTable) (readers : Readers)

/-- Takes a node through the rules until none applies. -/
def settle (node : Ref) : (remaining : Nat) → Ref → Build Ref
  | remaining, current => do
    match ← (t.step readers current : GraphM _) with
    | none => return current
    | some (rule, next) =>
      match remaining with
      | 0 => throw (.ruleLoop rule node maxApplications)
      | remaining + 1 => settle node remaining next

structure Pass where
  results : List (Ref × Ref) := []
  changed : Bool := false

def Pass.resultFor (p : Pass) (r : Ref) : Ref := (p.results.lookup r).getD r

def visit (p : Pass) (node : Ref) : Build Pass := do
  let g ← get
  let n := g.get node
  let op := n.op.mapSources fun s => p.resultFor (g.resolve s)
  let start ← (Build.insert op n.dtype : GraphM Ref)
  let last ← t.settle readers node maxApplications start
  let g ← get
  let last := g.resolve last
  return { results := (node, last) :: p.results
           changed := p.changed || last != node || g.op node != n.op }

/-- One pass; gives the new root and whether anything changed. -/
def pass (root : Ref) : Build (Ref × Bool) := do
  let p ← ((← get).order root).foldlM (t.visit readers) {}
  return (p.resultFor root, p.changed)

end RuleTable

/-- Repeats passes until nothing changes, at most `passes` times. -/
def normalizeFrom (t : RuleTable) (limit : Nat) : (passes : Nat) → Ref → Build Ref
  | 0, _ => throw (.passesExhausted limit)
  | passes + 1, root => do
    let (next, changed) ← t.pass (t.readersFor (← get) root) root
    let g ← get
    let next := g.resolve next
    if changed then normalizeFrom t limit passes next
    else
      let (pruned, top) := g.prune next
      set pruned
      return top

def normalize (t : RuleTable) (limit : Nat) (root : Ref) : Build Ref := do
  normalizeFrom t limit limit ((← get).resolve root)

end LazyTensor

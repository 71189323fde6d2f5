import LazyTensor.Simplify.Algebra
import LazyTensor.Simplify.Effects
import LazyTensor.Simplify.Hoist
import LazyTensor.Simplify.Normalize

/-!
The rule tables that kernels are simplified with.
-/

namespace LazyTensor

namespace RuleTable

def symbolicRules : List Rule := [
  ⟨"fold_unary", [.unary], fun _ => Rule.foldUnary⟩,
  ⟨"fold_binary", [.binary], fun _ => Rule.foldBinary⟩,
  ⟨"fold_ternary", [.ternary], fun _ => Rule.foldTernary⟩,
  ⟨"fold_cast", [.cast], fun _ => Rule.foldCast⟩,
  ⟨"const_to_rhs", [.binary], fun _ => Rule.constToRight⟩,
  ⟨"sub_const", [.binary], fun _ => Rule.subtractConst⟩,
  ⟨"identity", [.binary], fun _ => Rule.identity⟩,
  ⟨"annihilator", [.binary], fun _ => Rule.annihilator⟩,
  ⟨"self_cancel", [.binary], fun _ => Rule.selfCancel⟩,
  ⟨"where_fold", [.ternary], fun _ => Rule.foldSelect⟩,
  ⟨"combine_consts", [.binary], fun _ => Rule.combineConsts⟩,
  ⟨"factor_common", [.binary], fun _ => Rule.factorCommon⟩,
  ⟨"range_fold", [.binary], fun _ => Rule.foldByRange⟩,
  ⟨"div_mod_split", [.binary], fun _ => Rule.splitDivision⟩,
  ⟨"load_gate", [.load], fun _ => Rule.loadGate⟩,
  ⟨"store_gate", [.store], fun _ => Rule.storeGate⟩,
  ⟨"redundant_store", [.store], fun _ => Rule.redundantStore⟩,
  ⟨"gated_store", [.store], fun _ => Rule.gatedStore⟩,
  ⟨"drop_noops", [.sink], fun _ => Rule.dropNoops⟩,
  ⟨"sum_collapse", [.phi], fun _ => Rule.collapseSum⟩]

def hoistingRules : List Rule := [⟨"hoist_offset", [.binary], Rule.hoistOffset⟩]

def symbolic : RuleTable := { rules := symbolicRules }

/-- The table for kernels; without hoisting its last rule finds no readers. -/
def kernel (hoisting : Bool) : RuleTable :=
  { rules := symbolicRules ++ hoistingRules, tracksReaders := hoisting }

def hoistingOnly : RuleTable := { rules := hoistingRules, tracksReaders := true }

end RuleTable

end LazyTensor

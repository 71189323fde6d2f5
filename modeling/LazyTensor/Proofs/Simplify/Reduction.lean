import LazyTensor.Proofs.Graph.Meaning
import LazyTensor.Proofs.Graph.Sound
import LazyTensor.Simplify.Table

/-!
# What rules on arithmetic do

A rule on arithmetic looks at a node, at its operands and at theirs. It leads to an operand, to a
constant, or to an operation that it adds.
-/

namespace LazyTensor

/-- The rules that look at constants and at the form of a node only. -/
def RuleTable.algebraicRules : List Rule := symbolicRules.take 12

namespace Graph

variable {g g' : Graph} {op : BinaryOp} {r a b : Ref} {v : Value}

theorem const?_eq_some : g.const? r = some v ↔ g.op r = .const v := by
  rw [const?, Instr.const?, op]
  cases (g.get r).op <;> simp

/-- A node holds a value as a constant of a type. -/
def HoldsConst (g : Graph) (v : Value) (t : DType) (r : Ref) : Prop :=
  g.Holds r ⟨.const (v.normalize t), t⟩

/-- A node is what the constructor of a binary operation gives. -/
structure Applies (g : Graph) (op : BinaryOp) (a b r : Ref) : Prop where
  left_lt : a < g.size
  right_lt : b < g.size
  same : g.dtype a = g.dtype b
  accepts : op.accepts (g.dtype a) = true
  holds : g.Holds r (g.resolved ⟨.binary op a b, op.resultType (g.dtype a)⟩)

theorem Applies.of_holds (hg : g.WellFormed) (hgrows : g.Grows g') (ha : a < g.size) (hb : b < g.size)
    (hsame : g.dtype a = g.dtype b) (haccepts : op.accepts (g.dtype a) = true)
    (hholds : g'.Holds r (g.resolved ⟨.binary op a b, op.resultType (g.dtype a)⟩)) :
    g'.Applies op a b r := by
  have hdtype := hgrows.dtype_eq hg ha
  have hle := hgrows.size_le
  refine ⟨Nat.lt_of_lt_of_le ha hle, Nat.lt_of_lt_of_le hb hle,
    by rw [hdtype, hsame, hgrows.dtype_eq hg hb], hdtype ▸ haccepts, ?_⟩
  rw [resolved, Op.mapSources] at hholds ⊢
  rwa [hgrows.resolve_eq hg ha, hgrows.resolve_eq hg hb, hdtype]

theorem Applies.grows (h : g.Applies op a b r) (hg : g.WellFormed) (hgrows : g.Grows g') :
    g'.Applies op a b r :=
  .of_holds hg hgrows h.left_lt h.right_lt h.same h.accepts (hgrows.holds h.holds)

/-- A rule on arithmetic leads from a node of `g` to one of `g'`. -/
inductive Reduces (g g' : Graph) (r : Ref) : Ref → Prop
  | fold {n : Ref} {v : Value} (kind : (g.op r).kind ∈ [.cast, .unary, .binary, .ternary])
    (value : g.evalStep (fun _ => g.const?) .empty r = some v)
    (holds : g'.HoldsConst v (g.dtype r) n) : Reduces g g' r n
  | swap {op : BinaryOp} {a b n : Ref} (hop : g.op r = .binary op a b)
    (h : op.isCommutative = true ∧ (g.const? a).isSome = true ∧ (g.const? b).isNone = true)
    (applies : g'.Applies op b a n) : Reduces g g' r n
  | negate {a b c n : Ref} {x : Int} (hop : g.op r = .binary .sub a b)
    (right : g.const? b = some (.int x))
    (h : (g.dtype r).isInt = true ∧ (g.const? a).isNone = true)
    (holds : g'.HoldsConst (.int (wrapSigned 64 (-x))) (g.dtype r) c)
    (applies : g'.Applies .add a c n) : Reduces g g' r n
  | identity {op : BinaryOp} {a b : Ref} {c : Value} (hop : g.op r = .binary op a b)
    (right : g.const? b = some c) (h : Rule.isRightIdentity op c = true) : Reduces g g' r a
  | zero {op : BinaryOp} {a b n : Ref} (hop : g.op r = .binary op a b)
    (h : (∃ c, g.const? b = some c ∧ Rule.annihilates op c = true) ∨
      a = b ∧ Rule.cancelsItself op = true)
    (holds : g'.HoldsConst (.int 0) (g.dtype r) n) : Reduces g g' r n
  | select {cond yes no n : Ref} (hop : g.op r = .ternary .select cond yes no)
    (h : yes = no ∧ n = yes ∨ ∃ c, g.const? cond = some c ∧ n = if c.truthy then yes else no) :
    Reduces g g' r n
  | regroup {op : BinaryOp} {a b x c k n : Ref} {w : Value} (hop : g.op r = .binary op a b)
    (inner : g.op a = .binary op x c) (assoc : op = .add ∨ op = .mul)
    (int : (g.dtype r).isInt = true)
    (value : (do op.eval (g.dtype r) (← g.const? c) (← g.const? b)) = some w)
    (holds : g'.HoldsConst w (g.dtype r) k) (applies : g'.Applies op x k n) : Reduces g g' r n
  | factor {p q a b c d shared x y sum n : Ref} (hop : g.op r = .binary .add p q)
    (left : g.op p = .binary .mul a b) (right : g.op q = .binary .mul c d)
    (common : Rule.commonFactor? a b c d = some (shared, x, y)) (added : g'.Applies .add x y sum)
    (applies : g'.Applies .mul shared sum n) : Reduces g g' r n

theorem Reduces.kind {n : Ref} (h : Reduces g g' r n) :
    (g.op r).kind ∈ [.cast, .unary, .binary, .ternary] := by
  cases h with
  | fold hkind => exact hkind
  | swap hop | negate hop | identity hop | zero hop | select hop | regroup hop | factor hop =>
    simp [hop, Op.kind]

/-! ### Ranges and divisors -/

section Totals

variable {α : Type} {R : Graph → α → Ref → Prop} {xs : List α} {o : Option Ref} {s : Ref} {t : DType}
  {m : Ref × Int}

/-- A sum from the left of what there is for each of a list. -/
inductive Adds (R : Graph → α → Ref → Prop) (g : Graph) : List α → Option Ref → Prop
  | nil : Adds R g [] none
  | single {x : α} {r : Ref} (h : R g x r) : Adds R g [x] (some r)
  | snoc {xs : List α} {x : α} {s r n : Ref} (init : Adds R g xs (some s)) (h : R g x r)
    (last : g.Applies .add s r n) : Adds R g (xs ++ [x]) (some n)

theorem Adds.grows (h : Adds R g xs o) (hg : g.WellFormed) (hgrows : g.Grows g')
    (hR : ∀ x r, R g x r → R g' x r) : Adds R g' xs o := by
  induction h with
  | nil => exact .nil
  | single h => exact .single (hR _ _ h)
  | snoc _ h hlast ih => exact .snoc ih (hR _ _ h) (hlast.grows hg hgrows)

theorem Adds.eq_nil (h : Adds R g xs none) : xs = [] := by
  cases h
  rfl

/-- A sum with a constant as its last addend, unless that is zero and there are others. -/
def Totals (R : Graph → α → Ref → Prop) (g : Graph) (xs : List α) (z : Int) (t : DType) (n : Ref) :
    Prop :=
  xs = [] ∧ g.HoldsConst (.int z) t n ∨ ∃ s, Adds R g xs (some s) ∧
    (z = 0 ∧ n = s ∨ ∃ c, g.HoldsConst (.int z) t c ∧ g.Applies .add s c n)

/-- What an addend that is not divided adds. -/
def Itself (_ : Graph) (x r : Ref) : Prop := r = x

/-- A node is a factor times its coefficient. -/
def Scales (t : DType) (g : Graph) (m : Ref × Int) (r : Ref) : Prop :=
  m.2 = 1 ∧ r = m.1 ∨ m.2 ≠ 1 ∧ ∃ c, g.HoldsConst (.int m.2) t c ∧ g.Applies .mul m.1 c r

theorem Scales.grows (h : Scales t g m r) (hg : g.WellFormed) (hgrows : g.Grows g') :
    Scales t g' m r :=
  h.imp_right fun ⟨hne, c, hc, happlies⟩ => ⟨hne, c, hgrows.holds hc, happlies.grows hg hgrows⟩

/-- A sum is split by a divisor into a quotient and a remainder, whose range is known in `mid`. -/
structure Splits (g mid g' : Graph) (a : Ref) (d : Int) (s : Addends) (q r : Ref) : Prop where
  sorted : Addends.ofNode g d a = some s
  range : ∃ p, g.range a = some p ∧ 0 ≤ p.1
  before : g.Grows mid
  after : mid.Grows g'
  remainder : Totals Itself mid s.others (s.constant % d) (g.dtype a) r
  bounded : ∃ p, mid.range r = some p ∧ 0 ≤ p.1 ∧ p.2 < d
  quotient : Totals (Scales (g.dtype a)) g' s.multiples (s.constant / d) (g.dtype a) q

end Totals

/-- Ranges lead from a node of `g` to one of `g'`. -/
inductive Bounds (g g' : Graph) (r : Ref) : Ref → Prop
  | less {a b n : Ref} {less : Bool} (hop : g.op r = .binary .lt a b)
    (decided : (do Rule.decideLess (← g.range a) (← g.range b)) = some less)
    (holds : g'.HoldsConst (.bool less) .bool n) : Bounds g g' r n
  | small {op : BinaryOp} {a b n : Ref} {d : Int} {p : Int × Int} (hop : g.op r = .binary op a b)
    (divisor : Rule.divisor? g b = some d) (range : g.range a = some p)
    (bounds : ¬(d ≤ 0 ∨ p.1 < 0 ∨ d ≤ p.2))
    (h : op = .mod ∧ n = a ∨ op = .idiv ∧ g'.HoldsConst (.int 0) (g.dtype r) n) : Bounds g g' r n

/-- Splitting the dividend leads from a node of `g` to one of `g'`. -/
inductive Divides (g g' : Graph) (r : Ref) : Ref → Prop
  | split {op : BinaryOp} {a b q m : Ref} {d : Int} {mid : Graph} {s : Addends}
    (hop : g.op r = .binary op a b) (kind : op = .mod ∨ op = .idiv)
    (divisor : Rule.divisor? g b = some d) (pos : 0 < d) (dtype : g.dtype r = .index)
    (splits : Splits g mid g' a d s q m) : Divides g g' r (if op = .idiv then q else m)

end Graph

open LazyTensor.Graph

variable {g : Graph} {a b : Ref}

theorem Build.ensures_applies (hg : g.WellFormed) (op : BinaryOp) (ha : a < g.size)
    (hb : b < g.size) : (Build.binary op a b).Ensures g fun r g' => g'.Applies op a b r := by
  refine (Build.ensures_binary hg op a b).mono ?_
  rintro r g' hgrows ⟨hsame, haccepts, hholds⟩
  exact .of_holds hg hgrows ha hb hsame haccepts hholds

namespace Rule

theorem mem_symbolicRules {rule : Rule} (h : rule ∈ RuleTable.symbolicRules) :
    rule ∈ RuleTable.algebraicRules ∨ rule ∈ RuleTable.symbolicRules.drop 12 :=
  List.mem_append.mp h

variable {c d shared x y : Ref}

theorem commonFactor?_eq_some (h : commonFactor? a b c d = some (shared, x, y)) :
    (a = shared ∧ b = x ∨ b = shared ∧ a = x) ∧ (c = shared ∧ d = y ∨ d = shared ∧ c = y) := by
  simp only [commonFactor?] at h
  grind

theorem forall_commonFactor? {Q : Ref → Prop} (h : commonFactor? a b c d = some (shared, x, y))
    (hleft : Q a ∧ Q b) (hright : Q c ∧ Q d) : Q shared ∧ Q x ∧ Q y := by
  obtain ⟨hab, hcd⟩ := commonFactor?_eq_some h
  rcases hab with ⟨rfl, rfl⟩ | ⟨rfl, rfl⟩ <;> rcases hcd with ⟨rfl, rfl⟩ | ⟨rfl, rfl⟩ <;> simp_all

end Rule

end LazyTensor

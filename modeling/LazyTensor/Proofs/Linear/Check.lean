import LazyTensor.Linear.Check
import LazyTensor.Proofs.Except

/-!
# What the check of an instruction list accepts

The check keeps a stack of the scopes that are open. What it accepts is said by a grammar: openers
and end markers are brackets, and every end marker names the position of the opener that it matches.
-/

namespace LazyTensor

def Op.closes? : Op → Option Ref
  | .endLoop r | .endBranch r => some r
  | _ => none

/-- A list that starts at a position and in which every scope is closed by its own end marker. -/
inductive Balanced : Nat → List Instr → Prop
  | nil {p : Nat} : Balanced p []
  | plain {p : Nat} {i : Instr} {rest : List Instr} (hopens : i.op.opensScope = false)
    (hcloses : i.op.closes? = none) (hrest : Balanced (p + 1) rest) : Balanced p (i :: rest)
  | scope {p : Nat} {i e : Instr} {inner rest : List Instr} (hopens : i.op.opensScope = true)
    (hinner : Balanced (p + 1) inner) (hcloses : e.op.closes? = some p)
    (hrest : Balanced (p + 1 + inner.length + 1) rest) : Balanced p (i :: (inner ++ e :: rest))

theorem Op.opensScope_of_closes? {op : Op} {q : Ref} (h : op.closes? = some q) :
    op.opensScope = false := by
  cases op <;> first | rfl | cases h

theorem Balanced.countP_eq {p : Nat} {is : List Instr} (h : Balanced p is) :
    is.countP (·.op.opensScope) = is.countP (·.op.closes?.isSome) := by
  induction h with
  | nil => rfl
  | plain hopens hcloses _ ih => simp [hopens, hcloses, ih]
  | @scope _ i _ _ _ hopens _ hcloses _ hinner hrest =>
    have hopener : i.op.closes?.isSome = false := by
      cases hi : i.op.closes? with
      | none => rfl
      | some q => cases hopens.symm.trans (Op.opensScope_of_closes? hi)
    simp [List.countP_append, hopens, hopener, hcloses,
      Op.opensScope_of_closes? hcloses, hinner, hrest]
    omega

namespace Check

variable {p : Nat} {op : Op} {i : Instr} {is : List Instr} {opened opened' : List Nat}

/-- The loops of an accumulator come after it, and all that another instruction refers to before. -/
def Placed (p : Nat) (op : Op) : Prop :=
  if op.kind = .defineAcc then ∀ r ∈ op.sources, p < r else ∀ r ∈ op.sources, r < p

theorem sources_eq_ok : sources p op = .ok () ↔ Placed p op := by
  have hfind : sources p op = .ok () ↔ (if op.kind = .defineAcc then op.sources.find? (· ≤ p)
      else op.sources.find? (p ≤ ·)) = none := by
    unfold sources
    cases op <;> dsimp only [Op.kind, Op.sources] <;> split <;> simp [*]
  rw [hfind, Placed]
  split_ifs <;> simp [List.find?_eq_none]

theorem scopes_eq_ok : scopes p op opened = .ok opened' ↔
    (op.opensScope = true ∧ opened' = p :: opened) ∨
    (∃ q, op.closes? = some q ∧ opened = q :: opened') ∨
    (op.opensScope = false ∧ op.closes? = none ∧ opened' = opened) := by
  cases op with
  | endLoop scope | endBranch scope =>
    cases opened with
    | nil => simp [scopes, Op.opensScope, Op.closes?]
    | cons top rest =>
      rw [scopes]
      split_ifs with htop
      · simp [Op.opensScope, Op.closes?, htop]
      · simp [Op.opensScope, Op.closes?, htop]
  | _ => simp [scopes, Op.opensScope, Op.closes?, eq_comm]

/-- A list that starts at a position and closes the scopes that are open there, innermost first. -/
inductive Unwinds : Nat → List Nat → List Instr → Prop
  | done {p : Nat} {is : List Instr} (h : Balanced p is) : Unwinds p [] is
  | close {p q : Nat} {opened : List Nat} {e : Instr} {inner rest : List Instr}
    (hinner : Balanced p inner) (hcloses : e.op.closes? = some q)
    (hrest : Unwinds (p + inner.length + 1) opened rest) :
    Unwinds p (q :: opened) (inner ++ e :: rest)

theorem Unwinds.scopes_ok (h : Unwinds p opened (i :: is)) :
    ∃ opened', scopes p i.op opened = .ok opened' ∧ Unwinds (p + 1) opened' is := by
  simp only [scopes_eq_ok]
  generalize hlist : i :: is = list at h
  cases h with
  | done h =>
    cases h with
    | nil => cases hlist
    | plain hopens hcloses hrest =>
      cases hlist
      exact ⟨_, .inr (.inr ⟨hopens, hcloses, rfl⟩), .done hrest⟩
    | scope hopens hinner hcloses hrest =>
      cases hlist
      exact ⟨_, .inl ⟨hopens, rfl⟩, .close hinner hcloses (.done hrest)⟩
  | @close _ q _ e _ rest hinner hcloses hrest =>
    cases hinner with
    | nil =>
      cases hlist
      exact ⟨_, .inr (.inl ⟨q, hcloses, rfl⟩), hrest⟩
    | plain hopens hplain hinner =>
      cases hlist
      refine ⟨_, .inr (.inr ⟨hopens, hplain, rfl⟩), .close hinner hcloses ?_⟩
      rwa [List.length_cons, ← Nat.add_assoc, Nat.add_right_comm p] at hrest
    | @scope _ _ e' inner rest' hopens hinner hmatch hrest' =>
      rw [List.cons_append, List.append_assoc, List.cons_append] at hlist
      cases hlist
      refine ⟨_, .inl ⟨hopens, rfl⟩, .close hinner hmatch (.close hrest' hcloses ?_)⟩
      convert hrest using 1
      simp only [List.length_cons, List.length_append]
      omega

theorem Unwinds.cons (h : Unwinds (p + 1) opened' is) (hscopes : scopes p i.op opened = .ok opened') :
    Unwinds p opened (i :: is) := by
  rcases scopes_eq_ok.mp hscopes with ⟨hopens, rfl⟩ | ⟨q, hcloses, rfl⟩ | ⟨hopens, hcloses, rfl⟩
  · cases h with
    | @close _ _ _ e inner rest hinner hmatch hrest =>
      cases hrest with
      | done hrest => exact .done (.scope hopens hinner hmatch hrest)
      | @close _ q _ e' inner' rest' hinner' hcloses hrest' =>
        have hscope := Balanced.scope hopens hinner hmatch hinner'
        have hlist : i :: (inner ++ e :: (inner' ++ e' :: rest'))
            = (i :: (inner ++ e :: inner')) ++ e' :: rest' := by simp
        rw [hlist]
        refine .close hscope hcloses ?_
        convert hrest' using 1
        simp only [List.length_cons, List.length_append]
        omega
  · exact .close .nil hcloses h
  · cases h with
    | done h => exact .done (.plain hopens hcloses h)
    | @close _ q _ e inner rest hinner hmatch hrest =>
      rw [← List.cons_append]
      refine .close (.plain hopens hcloses hinner) hmatch ?_
      rwa [List.length_cons, ← Nat.add_assoc, Nat.add_right_comm p]

theorem orderFrom_eq_ok : orderFrom p is opened = .ok () ↔
    (∀ k i, is[k]? = some i → Placed (p + k) i.op) ∧ Unwinds p opened is := by
  induction is generalizing p opened with
  | nil =>
    cases opened with
    | nil => exact iff_of_true rfl ⟨fun k i h => absurd h (by simp), .done .nil⟩
    | cons q opened =>
      refine iff_of_false (by simp [orderFrom]) fun ⟨_, h⟩ => ?_
      generalize hnil : [] = list at h
      cases h
      simp at hnil
  | cons i is ih =>
    have hplaced : (∀ k j, (i :: is)[k]? = some j → Placed (p + k) j.op) ↔
        Placed p i.op ∧ ∀ k j, is[k]? = some j → Placed (p + 1 + k) j.op := by
      refine ⟨fun h => ⟨h 0 i rfl, fun k j hj => ?_⟩, fun h k j hj => ?_⟩
      · rw [Nat.add_assoc, Nat.add_comm 1]
        exact h (k + 1) j hj
      · cases k with
        | zero => exact Option.some.inj hj ▸ h.1
        | succ k =>
          have hrest := h.2 k j hj
          rwa [Nat.add_assoc, Nat.add_comm 1] at hrest
    rw [hplaced]
    constructor
    · intro h
      obtain ⟨u, hsources, h⟩ := bind_eq_ok h
      obtain ⟨opened', hscopes, h⟩ := bind_eq_ok h
      obtain ⟨hrest, hunwinds⟩ := ih.mp h
      exact ⟨⟨sources_eq_ok.mp hsources, hrest⟩, hunwinds.cons hscopes⟩
    · rintro ⟨⟨hfirst, hrest⟩, hunwinds⟩
      obtain ⟨opened', hscopes, hunwinds⟩ := hunwinds.scopes_ok
      rw [orderFrom, sources_eq_ok.mpr hfirst, hscopes]
      exact ih.mpr ⟨hrest, hunwinds⟩

theorem orderFrom_zero_eq_ok : orderFrom 0 is [] = .ok () ↔
    (∀ p i, is[p]? = some i → Placed p i.op) ∧ Balanced 0 is := by
  rw [orderFrom_eq_ok]
  simp only [Nat.zero_add]
  refine and_congr_right fun _ => ⟨fun h => ?_, .done⟩
  cases h with
  | done h => exact h

theorem endsOnSink_iff {is : Array Instr} :
    endsOnSink is = true ↔ ∃ rs t, is.back? = some ⟨.sink rs, t⟩ := by
  rw [endsOnSink]
  split
  next rs t h => exact iff_of_true rfl ⟨rs, t, h⟩
  next hnot => exact iff_of_false Bool.false_ne_true fun ⟨rs, t, h⟩ => hnot rs t h

end Check

variable {is : Array Instr}

theorem balanced_of_verifyOrder (h : verifyOrder is = .ok ()) : Balanced 0 is.toList := by
  rw [verifyOrder] at h
  split_ifs at h
  exact (Check.orderFrom_zero_eq_ok.mp h).2

/-- The check accepts the lists that end on a sink, whose accumulators come before their loops and
whose other instructions come after what they refer to, and whose scopes are balanced. -/
theorem verifyOrder_eq_ok_iff : verifyOrder is = .ok () ↔
    (∃ rs t, is.back? = some ⟨.sink rs, t⟩) ∧
    (∀ p i, is[p]? = some i → Check.Placed p i.op) ∧ Balanced 0 is.toList := by
  rw [verifyOrder, ← Check.endsOnSink_iff]
  split_ifs with hsink
  · rw [Check.orderFrom_zero_eq_ok, and_iff_right hsink]
    simp only [Array.getElem?_toList]
  · exact iff_of_false (by simp) fun h => hsink h.1

end LazyTensor

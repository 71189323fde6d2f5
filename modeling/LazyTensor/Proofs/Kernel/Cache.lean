import LazyTensor.Kernel.Cache
import LazyTensor.Proofs.Order
import Mathlib.Data.List.Induction

/-!
# The kernel cache after any calls

Compiling is a partial function of the tree and the device. What a cache holds is said of the calls
alone: the last successful request for a pair that nothing has dropped since.
-/

namespace LazyTensor.KernelCache

inductive Call where
  | request (e : Expr) (device : String)
  | clear
  | retain (live : List Expr)

def Call.isRequest : Call → Bool
  | request .. => true
  | _ => false

def Call.Drops (e : Expr) : Call → Prop
  | request .. => False
  | clear => True
  | retain live => e ∉ live

def pairs (c : KernelCache) : List (Expr × String) := c.kernels.map (·.1)

variable {ε : Type} (f : Expr → String → Except ε Kernel)

def perform (c : KernelCache) : Call → KernelCache
  | .request e device => (c.getOrCompile e device (f e device)).2
  | .clear => c.clear
  | .retain live => c.retain live

def after (calls : List Call) : KernelCache := calls.foldl (perform f) {}

/-- The pair was compiled with success and has not been dropped since. -/
def Held (calls : List Call) (e : Expr) (device : String) : Prop :=
  ∃ before since, calls = before ++ .request e device :: since ∧ (∃ k, f e device = .ok k) ∧
    ∀ call ∈ since, ¬ call.Drops e

theorem after_concat (calls : List Call) (call : Call) :
    after f (calls ++ [call]) = (after f calls).perform f call := by
  rw [after, List.foldl_append]
  rfl

variable {f} {calls : List Call} {call : Call} {c : KernelCache} {e : Expr} {device : String}

theorem held_concat : Held f (calls ++ [call]) e device ↔
    (call = .request e device ∧ ∃ k, f e device = .ok k) ∨
      (Held f calls e device ∧ ¬ call.Drops e) := by
  constructor
  · rintro ⟨before, since, hcalls, hok, hsince⟩
    rcases List.eq_nil_or_concat since with rfl | ⟨since, last, rfl⟩
    · obtain ⟨-, hlast⟩ := List.append_inj' hcalls rfl
      exact .inl ⟨(List.cons.inj hlast).1, hok⟩
    · rw [List.concat_eq_append, ← List.cons_append, ← List.append_assoc] at hcalls
      obtain ⟨rfl, hlast⟩ := List.append_inj' hcalls rfl
      obtain rfl := (List.cons.inj hlast).1
      rw [List.concat_eq_append, List.forall_mem_append, List.forall_mem_singleton] at hsince
      exact .inr ⟨⟨before, since, rfl, hok, hsince.1⟩, hsince.2⟩
  · rintro (⟨rfl, hok⟩ | ⟨⟨before, since, rfl, hok, hsince⟩, hlast⟩)
    · exact ⟨calls, [], rfl, hok, nofun⟩
    · refine ⟨before, since ++ [call], by simp, hok, ?_⟩
      rw [List.forall_mem_append, List.forall_mem_singleton]
      exact ⟨hsince, hlast⟩

/-! ### One call -/

/-- Every pair is there once, with the kernel that compiling gives. -/
structure Right (f : Expr → String → Except ε Kernel) (c : KernelCache) : Prop where
  kernel : ∀ x ∈ c.kernels, f x.1.1 x.1.2 = .ok x.2
  nodup : c.pairs.Nodup

theorem Right.exists_ok (h : c.Right f) (hmem : (e, device) ∈ c.pairs) : ∃ k, f e device = .ok k := by
  obtain ⟨x, hx, heq⟩ := List.mem_map.mp hmem
  have hok := h.kernel x hx
  rw [heq] at hok
  exact ⟨_, hok⟩

/-- A hit gives what a miss would compile. -/
theorem Right.request (h : c.Right f) (e : Expr) (device : String) :
    c.getOrCompile e device (f e device) = (f e device,
      if (e, device) ∈ c.pairs then { c with hits := c.hits + 1 }
      else { c with
        misses := c.misses + 1
        kernels := ((f e device).toOption.map ((e, device), ·)).toList ++ c.kernels }) := by
  unfold getOrCompile
  cases hlookup : c.kernels.lookup (e, device) with
  | some k =>
    have hmem := mem_of_lookup hlookup
    have hpair : (e, device) ∈ c.pairs := List.mem_map.mpr ⟨_, hmem, rfl⟩
    rw [if_pos hpair, h.kernel _ hmem]
  | none =>
    have hnot : (e, device) ∉ c.pairs := by
      intro hmem
      obtain ⟨x, hx, heq⟩ := List.mem_map.mp hmem
      exact bne_iff_ne.mp (List.lookup_eq_none_iff.mp hlookup x hx) heq.symm
    rw [if_neg hnot]
    cases f e device <;> rfl

theorem Right.performed (h : c.Right f) (call : Call) : (c.perform f call).Right f := by
  cases call with
  | request e device =>
    rw [perform, h.request]
    dsimp only
    split_ifs with hmem
    · exact ⟨h.kernel, h.nodup⟩
    · cases hf : f e device with
      | error err => exact ⟨h.kernel, h.nodup⟩
      | ok k => exact ⟨List.forall_mem_cons.mpr ⟨hf, h.kernel⟩, List.nodup_cons.mpr ⟨hmem, h.nodup⟩⟩
  | clear => exact ⟨List.forall_mem_nil _, List.nodup_nil⟩
  | retain live =>
    exact ⟨fun x hx => h.kernel x (List.mem_filter.mp hx).1,
      h.nodup.sublist (List.filter_sublist.map _)⟩

theorem Right.mem_pairs_perform (h : c.Right f) : (e, device) ∈ (c.perform f call).pairs ↔
    (call = .request e device ∧ ∃ k, f e device = .ok k) ∨
      ((e, device) ∈ c.pairs ∧ ¬ call.Drops e) := by
  cases call with
  | request e' device' =>
    rw [perform, h.request]
    simp only [Call.request.injEq, Call.Drops, not_false_eq_true, and_true]
    split_ifs with hmem
    · refine ⟨.inr, ?_⟩
      rintro (⟨⟨rfl, rfl⟩, -⟩ | hheld)
      · exact hmem
      · exact hheld
    · cases hf : f e' device' with
      | error err =>
        refine ⟨.inr, ?_⟩
        rintro (⟨⟨rfl, rfl⟩, k, hk⟩ | hheld)
        · cases hf.symm.trans hk
        · exact hheld
      | ok k =>
        change (e, device) ∈ (e', device') :: c.pairs ↔ _
        rw [List.mem_cons, Prod.mk.injEq]
        refine or_congr_left ⟨?_, ?_⟩
        · rintro ⟨rfl, rfl⟩
          exact ⟨⟨rfl, rfl⟩, k, hf⟩
        · rintro ⟨⟨rfl, rfl⟩, -⟩
          exact ⟨rfl, rfl⟩
  | clear => simp [perform, clear, pairs, Call.Drops]
  | retain live => simp [perform, retain, pairs, Call.Drops]

/-! ### All calls -/

theorem right_after (f : Expr → String → Except ε Kernel) (calls : List Call) :
    (after f calls).Right f := by
  induction calls using List.reverseRecOn with
  | nil => exact ⟨List.forall_mem_nil _, List.nodup_nil⟩
  | append_singleton calls call ih =>
    rw [after_concat]
    exact ih.performed call

theorem mem_pairs_after : (e, device) ∈ (after f calls).pairs ↔ Held f calls e device := by
  induction calls using List.reverseRecOn with
  | nil =>
    refine ⟨nofun, ?_⟩
    rintro ⟨before, since, hcalls, -⟩
    simp at hcalls
  | append_singleton calls call ih =>
    rw [after_concat, (right_after f calls).mem_pairs_perform, held_concat, ih]

theorem requests_after :
    (after f calls).hits + (after f calls).misses = calls.countP Call.isRequest := by
  induction calls using List.reverseRecOn with
  | nil => rfl
  | append_singleton calls call ih =>
    rw [after_concat, List.countP_append, ← ih]
    cases call with
    | request e device =>
      rw [perform, (right_after f calls).request]
      dsimp only
      split_ifs
      · exact Nat.add_right_comm _ _ _
      · rfl
    | clear | retain live => rfl

/-- After any calls, a request gives what compiling gives, and it is a hit just where the pair was
compiled and not dropped since. Those pairs are the cached ones, each once. A failed request changes
none of them, and every request counts as a hit or as a miss. -/
theorem request_after (f : Expr → String → Except ε Kernel) (calls : List Call) :
    (∀ e device, ((after f calls).getOrCompile e device (f e device)).1 = f e device) ∧
    (∀ e device, (e, device) ∈ (after f calls).pairs ↔ Held f calls e device) ∧
    (after f calls).pairs.Nodup ∧
    (∀ e device, (after f (calls ++ [.request e device])).hits = (after f calls).hits + 1 ↔
      Held f calls e device) ∧
    (∀ e device err, f e device = .error err →
      (after f (calls ++ [.request e device])).kernels = (after f calls).kernels) ∧
    (after f calls).hits + (after f calls).misses = calls.countP Call.isRequest := by
  have hright := right_after f calls
  refine ⟨fun e device => by rw [hright.request], fun e device => mem_pairs_after, hright.nodup,
    fun e device => ?_, fun e device err herr => ?_, requests_after⟩
  · rw [after_concat, perform, hright.request, ← mem_pairs_after]
    dsimp only
    split_ifs with hmem
    · exact iff_of_true rfl hmem
    · exact iff_of_false (Nat.ne_of_lt (Nat.lt_succ_self _)) hmem
  · have hmiss : (e, device) ∉ (after f calls).pairs := by
      intro hmem
      obtain ⟨k, hk⟩ := hright.exists_ok hmem
      cases herr.symm.trans hk
    rw [after_concat, perform, hright.request, if_neg hmiss, herr]
    rfl

end LazyTensor.KernelCache

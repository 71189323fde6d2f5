/-!
Depth-first traversal of a directed graph.
-/

namespace LazyTensor

structure Walk (α : Type) where
  seen : List α := []
  finished : List α := []

variable {α : Type} [BEq α]

/-- Finishes everything that can be reached from `n`, each node after what it reads. -/
def Walk.visit (reads : α → List α) : (depth : Nat) → Walk α → α → Walk α
  | 0, w, _ => w
  | depth + 1, w, n =>
    if w.seen.contains n then w
    else
      let w := (reads n).foldl (fun w m => visit reads depth w m) { w with seen := n :: w.seen }
      { w with finished := n :: w.finished }

/-- The nodes below `count` that are still to be seen. -/
def Walk.unseen (count : Nat) (w : Walk Nat) : List Nat :=
  (List.range count).filter fun n => !w.seen.contains n

theorem Walk.unseen_cons (count : Nat) (w : Walk Nat) (n : Nat) :
    unseen count { w with seen := n :: w.seen } = (unseen count w).filter (· ≠ n) := by
  rw [unseen, unseen, List.filter_filter]
  exact List.filter_congr fun m _ => by simp

theorem Walk.length_unseen_lt {count n : Nat} {w : Walk Nat} (hn : n < count)
    (hseen : ¬w.seen.contains n) :
    (unseen count { w with seen := n :: w.seen }).length < (unseen count w).length := by
  rw [unseen_cons]
  refine List.length_filter_lt_length_iff_exists.mpr ⟨n, ?_, by simp⟩
  simpa [unseen, hn] using hseen

/-- A node outside leaves as many to be seen. -/
theorem Walk.unseen_of_ge {count n : Nat} (w : Walk Nat) (hn : ¬n < count) :
    unseen count { w with seen := n :: w.seen } = unseen count w := by
  rw [unseen_cons]
  refine List.filter_eq_self.mpr fun m hm => ?_
  have hm : m < count := by simpa using (List.mem_filter.mp hm).1
  simpa using Nat.ne_of_lt (Nat.lt_of_lt_of_le hm (Nat.le_of_not_lt hn))

/-- Works off a stack of nodes, each with whether what it reads went onto the stack before. A node may
be there more than once: it is marked when it is taken off. -/
def Walk.drain (reads : Nat → List Nat) (count : Nat) (w : Walk Nat) :
    List (Nat × Bool) → Walk Nat
  | [] => w
  | (n, true) :: stack => drain reads count { w with finished := n :: w.finished } stack
  | (n, false) :: stack =>
    if w.seen.contains n then drain reads count w stack
    else
      let next := if n < count then (reads n).filter fun m => !(n :: w.seen).contains m else []
      drain reads count { w with seen := n :: w.seen } (next.map (·, false) ++ (n, true) :: stack)
  termination_by stack =>
    ((w.unseen count).length, stack.foldr (fun n k => (if n.2 then 1 else 2) + k) 0)
  decreasing_by
    · exact .right _ (Nat.lt_add_of_pos_left Nat.one_pos)
    · exact .right _ (Nat.lt_add_of_pos_left Nat.two_pos)
    · rename_i hseen
      by_cases hn : n < count
      · exact .left _ _ (length_unseen_lt hn hseen)
      · rw [unseen_of_ge w hn, dif_neg hn]
        exact .right _ (Nat.add_lt_add_right Nat.one_lt_two _)

/-- The nodes reachable from the roots, which are taken in order, each node once and after what it
reads; `count` bounds how many there are. -/
def postorderFrom (reads : α → List α) (count : Nat) (roots : List α) : List α :=
  (roots.foldl (Walk.visit reads (count + 1)) {}).finished.reverse

def postorder (reads : α → List α) (count : Nat) (root : α) : List α :=
  postorderFrom reads count [root]

end LazyTensor

import Mathlib

/-! Loops over a list to which the body appends what is still to be done. They end because what is appended for an
element is smaller than the element.
-/

namespace Ava6.Library

structure Worklist (σ α : Type) where
  process : α → σ → σ × List α
  ends : ∃ size : α → Nat, ∀ a s, ((process a s).2.map size).sum < size a

namespace Worklist

variable {σ α : Type} (worklist : Worklist σ α)

def run (s : σ) : List α → σ
  | [] => s
  | a :: rest => run (worklist.process a s).1 (rest ++ (worklist.process a s).2)
termination_by todo => (todo.map worklist.ends.choose).sum
decreasing_by
  have isLess := worklist.ends.choose_spec a s
  simp only [List.map_append, List.sum_append, List.map_cons, List.sum_cons]
  omega

/-- What every pass keeps holds at the end. -/
theorem run_invariant {I : σ → List α → Prop} {s : σ} {todo : List α}
    (step : ∀ a rest s, I s (a :: rest) → I (worklist.process a s).1 (rest ++ (worklist.process a s).2))
    (start : I s todo)
    : I (worklist.run s todo) [] := by
  induction hsize : (todo.map worklist.ends.choose).sum using Nat.strongRecOn generalizing s todo with
  | _ size ih =>
      subst hsize
      cases todo with
      | nil =>
          rw [run]
          exact start
      | cons a rest =>
          have isLess := worklist.ends.choose_spec a s
          rw [run]
          refine ih _ ?_ (step a rest s start) rfl
          simp only [List.map_append, List.sum_append, List.map_cons, List.sum_cons]
          omega

end Worklist

theorem sum_sizeOf_lt {α : Type} [SizeOf α] (as : List α) : (as.map sizeOf).sum < sizeOf as := by
  induction as with
  | nil => simp
  | cons a rest ih =>
      rw [List.map_cons, List.sum_cons, List.cons.sizeOf_spec]
      omega

end Ava6.Library

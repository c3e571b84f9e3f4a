import Mathlib.Data.List.Basic

/-! Propositional literals and clauses over numbered variables. -/

namespace Ava6.Library.Sat

/-- A variable or its negation. -/
structure Literal where
  var : Nat
  negated : Bool
  deriving DecidableEq, Repr

namespace Literal

def neg (l : Literal) : Literal := ⟨l.var, !l.negated⟩

def eval (assignment : Nat → Bool) (l : Literal) : Bool := assignment l.var ^^ l.negated

@[simp]
theorem eval_neg (assignment : Nat → Bool) (l : Literal)
    : l.neg.eval assignment = !l.eval assignment := by
  simp [neg, eval]

@[simp] theorem var_neg (l : Literal) : l.neg.var = l.var := rfl

theorem eval_congr {first second : Nat → Bool} {l : Literal} (same : first l.var = second l.var)
    : l.eval first = l.eval second := by
  rw [eval, eval, same]

end Literal

abbrev Clause := List Literal

namespace Clause

/-- A clause is true when one of its literals is. -/
def eval (assignment : Nat → Bool) (c : Clause) : Bool := c.any (·.eval assignment)

theorem eval_eraseDups (assignment : Nat → Bool) (c : Clause)
    : eval assignment c.eraseDups = eval assignment c := by
  rw [Bool.eq_iff_iff]
  simp [eval]

theorem eval_congr {first second : Nat → Bool} {c : Clause}
    (same : ∀ l ∈ c, first l.var = second l.var) : c.eval first = c.eval second := by
  rw [eval, eval, Bool.eq_iff_iff, List.any_eq_true, List.any_eq_true]
  refine exists_congr fun l => and_congr_right fun member => ?_
  rw [Literal.eval_congr (same l member)]

end Clause

end Ava6.Library.Sat

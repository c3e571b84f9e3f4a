import Mathlib.Algebra.Order.Ring.Int
import Ava6.Strings.Term

/-! Entailment of bounds on integer terms. The rewriter and the check that a term is not negative are given, and sound;
what is computed with them is modelled.
-/

namespace Ava6.Strings

/-- A rewriter of integer terms, and a check that a term is not negative, or that it is positive if `strict`. -/
structure ArithEntail where
  rewriteArith : IntTerm → IntTerm
  check : IntTerm → Bool → Bool
  eval_rewriteArith : ∀ (A : Assignment) (a : IntTerm), (rewriteArith a).eval A = a.eval A
  nonneg_of_check : ∀ (A : Assignment) (a : IntTerm) (strict : Bool), check a strict = true → 0 ≤ a.eval A
  pos_of_check : ∀ (A : Assignment) (a : IntTerm), check a true = true → 0 < a.eval A

/-- Constants and lengths are all that is looked at. -/
instance : Inhabited ArithEntail where
  default :=
    { rewriteArith := id
      check := fun a strict =>
        match a with
        | .const n => decide (if strict then 0 < n else 0 ≤ n)
        | .length _ => !strict
        | _ => false
      eval_rewriteArith := fun _ _ => rfl
      nonneg_of_check := by
        intro A a strict checked
        cases a with
        | const n =>
            rw [decide_eq_true_eq] at checked
            rw [IntTerm.eval]
            split at checked <;> omega
        | length s =>
            rw [IntTerm.eval]
            exact Int.natCast_nonneg _
        | _ => cases checked
      pos_of_check := by
        intro A a checked
        cases a with
        | const n =>
            rw [IntTerm.eval]
            exact of_decide_eq_true checked
        | _ => cases checked }

namespace ArithEntail

variable {aent : ArithEntail} {A : Assignment}

/-- The check for a difference. -/
def checkGeq (aent : ArithEntail) (a b : IntTerm) : Bool := if a = b then true else aent.check (.sub a b) false

theorem le_of_checkGeq {a b : IntTerm} (checked : aent.checkGeq a b = true) : b.eval A ≤ a.eval A := by
  rw [checkGeq] at checked
  split at checked
  · rename_i same
    rw [same]
  · have isNonNegative := aent.nonneg_of_check A _ _ checked
    rw [IntTerm.eval] at isNonNegative
    omega

/-- A sum or a product of constants is rewritten to a constant. -/
def combineBounds (isMult : Bool) : List Int → Int
  | [] => 0
  | [ac] => ac
  | children => if isMult then children.prod else children.sum

mutual
/-- A constant that a term is not less than, or not greater than if `isLower` is false. -/
def getConstantBound (isLower : Bool) : IntTerm → Option Int
  | .const n => some n
  | .length _ => if isLower then some 0 else none
  | .add children => (constantBounds isLower false children).map (combineBounds false)
  | .mult children => (constantBounds isLower true children).map (combineBounds true)
  | .var _ | .nonlinearMult _ | .sub _ _ | .indexof _ _ _ | .toInt _ => none

def constantBounds (isLower isMult : Bool) : IntTerms → Option (List Int)
  | .nil => some []
  | .cons a rest =>
      match getConstantBound isLower a with
      | none => none
      | some ac =>
          if ac = 0 then if isMult then none else constantBounds isLower isMult rest
          else if isMult && decide (0 < ac) != isLower then none
          else (constantBounds isLower isMult rest).map (ac :: ·)
end

theorem combineBounds_sum (children : List Int) : combineBounds false children = children.sum := by
  match children with
  | [] => rfl
  | [ac] => exact (add_zero ac).symm
  | _ :: _ :: _ => rfl

theorem combineBounds_prod {children : List Int} (isNonEmpty : children ≠ [])
    : combineBounds true children = children.prod := by
  match children with
  | [] => exact absurd rfl isNonEmpty
  | [ac] => exact (mul_one ac).symm
  | _ :: _ :: _ => rfl

theorem constantBounds_cons {isLower isMult : Bool} {a : IntTerm} {rest : IntTerms} {bounds : List Int}
    (found : constantBounds isLower isMult (.cons a rest) = some bounds)
    : ∃ ac, getConstantBound isLower a = some ac
      ∧ (ac = 0 ∧ isMult = false ∧ constantBounds isLower isMult rest = some bounds
        ∨ ac ≠ 0 ∧ (isMult = true → decide (0 < ac) = isLower)
          ∧ ∃ others, constantBounds isLower isMult rest = some others ∧ bounds = ac :: others) := by
  rw [constantBounds] at found
  match isFound : getConstantBound isLower a with
  | none =>
      rw [isFound] at found
      cases found
  | some ac =>
      rw [isFound] at found
      refine ⟨ac, rfl, ?_⟩
      by_cases isZero : ac = 0
      · cases isMult with
        | false => exact Or.inl ⟨isZero, rfl, by simpa [isZero] using found⟩
        | true => simp [isZero] at found
      · refine Or.inr ⟨isZero, ?_⟩
        simp only [isZero, if_false] at found
        split at found
        · cases found
        · rename_i sameSign
          obtain ⟨others, isOthers, rfl⟩ := Option.map_eq_some_iff.mp found
          refine ⟨fun isMult => ?_, others, isOthers, rfl⟩
          simpa [isMult] using sameSign

mutual
/-- A lower bound is one under every assignment. -/
theorem le_of_getConstantBound {a : IntTerm} {bound : Int} (isBound : getConstantBound true a = some bound)
    : bound ≤ a.eval A := by
  match a with
  | .const n =>
      cases isBound
      rw [IntTerm.eval]
  | .length s =>
      cases isBound
      rw [IntTerm.eval]
      exact Int.natCast_nonneg _
  | .add children =>
      rw [getConstantBound] at isBound
      obtain ⟨bounds, found, rfl⟩ := Option.map_eq_some_iff.mp isBound
      rw [combineBounds_sum, IntTerm.eval]
      exact sum_le_of_constantBounds found
  | .mult children =>
      rw [getConstantBound] at isBound
      obtain ⟨bounds, found, rfl⟩ := Option.map_eq_some_iff.mp isBound
      obtain ⟨isPositive, isLess⟩ := prod_le_of_constantBounds found
      rw [IntTerm.eval]
      cases bounds with
      | nil => exact le_trans (by decide) isLess
      | cons ac others =>
          rw [combineBounds_prod (List.cons_ne_nil _ _)]
          exact isLess
  | .var _ | .nonlinearMult _ | .sub _ _ | .indexof _ _ _ | .toInt _ => cases isBound

theorem sum_le_of_constantBounds {children : IntTerms} {bounds : List Int}
    (found : constantBounds true false children = some bounds)
    : bounds.sum ≤ children.sum A := by
  match children with
  | .nil =>
      cases found
      exact le_refl 0
  | .cons a rest =>
      rw [IntTerms.sum]
      obtain ⟨ac, isBound, ⟨isZero, -, found'⟩ | ⟨-, -, others, found', rfl⟩⟩ := constantBounds_cons found
      · have first := le_of_getConstantBound isBound
        have later := sum_le_of_constantBounds found'
        omega
      · rw [List.sum_cons]
        exact add_le_add (le_of_getConstantBound isBound) (sum_le_of_constantBounds found')

theorem prod_le_of_constantBounds {children : IntTerms} {bounds : List Int}
    (found : constantBounds true true children = some bounds)
    : 0 < bounds.prod ∧ bounds.prod ≤ children.product A := by
  match children with
  | .nil =>
      cases found
      exact ⟨Int.one_pos, le_refl 1⟩
  | .cons a rest =>
      rw [IntTerms.product]
      obtain ⟨ac, isBound, ⟨-, notMult, -⟩ | ⟨-, sameSign, others, found', rfl⟩⟩ := constantBounds_cons found
      · cases notMult
      · have isPositive : 0 < ac := of_decide_eq_true (sameSign rfl)
        obtain ⟨othersPositive, isLess⟩ := prod_le_of_constantBounds found'
        have first := le_of_getConstantBound isBound
        rw [List.prod_cons]
        refine ⟨mul_pos isPositive othersPositive, ?_⟩
        exact mul_le_mul first isLess (le_of_lt othersPositive) (le_trans (le_of_lt isPositive) first)
end

end ArithEntail

end Ava6.Strings

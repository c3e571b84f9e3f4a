import Ava6.Quantifiers.Invertibility.Mult
import Ava6.Quantifiers.Invertibility.Urem
import Ava6.Quantifiers.Invertibility.Udiv
import Ava6.Quantifiers.Invertibility.Lshr
import Ava6.Quantifiers.Invertibility.Ashr
import Ava6.Quantifiers.Invertibility.Shl
import Ava6.Quantifiers.Invertibility.AndOr
import Ava6.Quantifiers.Invertibility.Concat
import Ava6.Quantifiers.Invertibility.Sext

/-! The invertibility conditions are exact at every width: the premise of the implication
that the inverter builds holds exactly when the literal can be solved for the variable.
-/

namespace Ava6.Quantifiers.BvInverter

open Ava6.Bv

variable {w : Nat}

/-- The node is an implication of the literal whose premise says that the literal is
solvable for the variable under the valuation. -/
def ExactCondition (v : Valuation) (pol : Bool) (litk : LitKind) (k : OpKind) (idx : Nat)
    (x s t : Term w) (ic : Formula)
    : Prop :=
  ∃ scl, ic = .implies scl (literal pol litk k idx x s t)
    ∧ (scl.eval v = true ↔ Solvable pol litk k idx (s.eval v) (t.eval v))

section
variable (v : Valuation) (pol : Bool) (litk : LitKind) (idx : Nat) (x s t : Term w)

/-- The condition for multiplication is exact for each literal, position and polarity. -/
theorem mult_exact : ExactCondition v pol litk .mult idx x s t (getICBvMult pol litk idx x s t) :=
  ⟨_, rfl, eval_sclBvMult v pol litk idx s t⟩

theorem urem_exact : ExactCondition v pol litk .urem idx x s t (getICBvUrem pol litk idx x s t) := by
  refine ⟨_, rfl, ?_⟩
  rcases Nat.eq_zero_or_pos idx with rfl | right
  · exact eval_sclBvUrem_left v pol litk s t
  · exact eval_sclBvUrem_right v pol litk right.ne' s t

/-- The condition for division is exact, by cases on the position of the variable. -/
theorem udiv_exact : ExactCondition v pol litk .udiv idx x s t (getICBvUdiv pol litk idx x s t) := by
  refine ⟨_, rfl, ?_⟩
  rcases Nat.eq_zero_or_pos idx with rfl | right
  · exact eval_sclBvUdiv_left v pol litk s t
  · exact eval_sclBvUdiv_right v pol litk right.ne' s t

theorem lshr_exact : ExactCondition v pol litk .lshr idx x s t (getICBvLshr pol litk idx x s t) := by
  refine ⟨_, rfl, ?_⟩
  rcases Nat.eq_zero_or_pos idx with rfl | right
  · exact eval_sclBvLshr_left v pol litk s t
  · exact eval_sclBvLshr_right v pol litk right.ne' s t

theorem ashr_exact : ExactCondition v pol litk .ashr idx x s t (getICBvAshr pol litk idx x s t) := by
  refine ⟨_, rfl, ?_⟩
  rcases Nat.eq_zero_or_pos idx with rfl | right
  · exact eval_sclBvAshr_left v pol litk s t
  · exact eval_sclBvAshr_right v pol litk right.ne' s t

/-- The condition for shifts to the left is exact, by cases on the position of the variable. -/
theorem shl_exact : ExactCondition v pol litk .shl idx x s t (getICBvShl pol litk idx x s t) := by
  refine ⟨_, rfl, ?_⟩
  rcases Nat.eq_zero_or_pos idx with rfl | right
  · exact eval_sclBvShl_left v pol litk s t
  · exact eval_sclBvShl_right v pol litk right.ne' s t

end

/-- The conditions for products, remainders and quotients, by the position of the variable. -/
theorem getICBv_arithmetic_exact (v : Valuation) (pol : Bool) (litk : LitKind) (idx : Nat)
    (x s t : Term w)
    : ExactCondition v pol litk .mult idx x s t (getICBvMult pol litk idx x s t)
      ∧ ExactCondition v pol litk .urem idx x s t (getICBvUrem pol litk idx x s t)
      ∧ ExactCondition v pol litk .udiv idx x s t (getICBvUdiv pol litk idx x s t) :=
  ⟨mult_exact v pol litk idx x s t, urem_exact v pol litk idx x s t, udiv_exact v pol litk idx x s t⟩

/-- The conditions for the three shifts, by the position of the variable. -/
theorem getICBv_shift_exact (v : Valuation) (pol : Bool) (litk : LitKind) (idx : Nat)
    (x s t : Term w)
    : ExactCondition v pol litk .lshr idx x s t (getICBvLshr pol litk idx x s t)
      ∧ ExactCondition v pol litk .ashr idx x s t (getICBvAshr pol litk idx x s t)
      ∧ ExactCondition v pol litk .shl idx x s t (getICBvShl pol litk idx x s t) :=
  ⟨lshr_exact v pol litk idx x s t, ashr_exact v pol litk idx x s t, shl_exact v pol litk idx x s t⟩

/-- Conjunction and disjunction give the same values in both positions of the variable. -/
theorem solvable_commutative (pol : Bool) (litk : LitKind) {k : OpKind} (bitwise : k = .and ∨ k = .or) (idx : Nat)
    (s t : BitVec w)
    : Solvable pol litk k idx s t ↔ Solvable pol litk k 0 s t := by
  have same (x : BitVec w) : k.result idx s x = k.result 0 s x := by
    unfold OpKind.result
    split
    · rfl
    · rcases bitwise with rfl | rfl
      · exact BitVec.and_comm s x
      · exact BitVec.or_comm s x
  simp only [Solvable, same]

theorem eval_sclBvAndOr (v : Valuation) (pol : Bool) (litk : LitKind) {k : OpKind} (idx : Nat) (s t : Term w)
    (bitwise : k = .and ∨ k = .or)
    : (sclBvAndOr pol litk k s t).eval v = true ↔ Solvable pol litk k idx (s.eval v) (t.eval v) := by
  rw [solvable_commutative pol litk bitwise]
  rcases bitwise with rfl | rfl
  · exact eval_sclBvAnd v pol litk s t
  · exact eval_sclBvOr v pol litk s t

/-- The conditions for conjunctions and disjunctions, concatenations of any number of children, and sign extensions
by at least one bit. -/
theorem getICBv_bitwise_exact (v : Valuation) (pol : Bool) (litk : LitKind)
    : (∀ (w : Nat) (k : OpKind) (idx : Nat) (x s t : Term w), k = .and ∨ k = .or →
        ∃ scl, getICBvAndOr pol litk k idx x s t = .implies scl (literal pol litk k 0 x s t)
          ∧ (scl.eval v = true ↔ Solvable pol litk k idx (s.eval v) (t.eval v)))
      ∧ (∀ (n idx : Nat) (x : (k : Nat) → 0 < k → Term k) (sv_t : Parts n) (t : Term n),
        idx < childCount sv_t → 1 < childCount sv_t →
        ∃ scl scr, getICBvConcat pol litk idx x sv_t t = some (.implies scl (mkLiteral pol litk scr t))
          ∧ scr.eval v = (replace x sv_t idx).eval v
          ∧ (scl.eval v = true ↔ ConcatSolvable v pol litk idx sv_t t))
      ∧ (∀ (wx ws : Nat) (x : Term wx) (t : Term (wx + ws)), 0 < ws →
        ∃ scl, getICBvSext pol litk x t = some (.implies scl (mkLiteral pol litk (mkSignExtend x ws) t))
          ∧ (scl.eval v = true ↔ SextSolvable pol litk wx (t.eval v))) := by
  refine ⟨fun w k idx x s t bitwise => ⟨_, rfl, eval_sclBvAndOr v pol litk idx s t bitwise⟩,
    fun n idx x sv_t t => getICBvConcat_spec v pol litk idx x sv_t t, fun wx ws x t amount => ?_⟩
  obtain ⟨ic, built⟩ := Option.isSome_iff_exists.mp ((getICBvSext_isSome pol litk x t).mpr (Or.inl amount.ne'))
  obtain ⟨scl, rfl, exactly⟩ := getICBvSext_spec v built
  exact ⟨scl, built, exactly⟩

/-- In `(bvult (concat #b1 x #b1) #b110)` the variable is the middle bit, and the condition holds. -/
theorem getICBvConcat_middle_bit
    : ∃ scl scr,
        getICBvConcat true .ult 1 (fun _ positive => .var positive 0)
            (.cons (.const Nat.one_pos 1#1) (.cons (.var Nat.one_pos 0) (.single (.const Nat.one_pos 1#1))))
            (.const (show 0 < 3 by decide) 6#3)
          = some (.implies scl (mkLiteral true .ult scr (.const (show 0 < 3 by decide) 6#3)))
        ∧ scl.eval (fun n _ => 0#n) = true := by
  obtain ⟨scl, scr, built, _, solvable⟩ := (getICBv_bitwise_exact (fun n _ => 0#n) true .ult).2.1 3 1
    (fun _ positive => .var positive 0)
    (.cons (.const Nat.one_pos 1#1) (.cons (.var Nat.one_pos 0) (.single (.const Nat.one_pos 1#1))))
    (.const (by decide) 6#3) (by decide) (by decide)
  exact ⟨scl, scr, built, solvable.mpr ⟨fun n => 0#n, by decide⟩⟩

end Ava6.Quantifiers.BvInverter

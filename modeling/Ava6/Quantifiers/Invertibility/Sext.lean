import Ava6.Quantifiers.Solvability
import Ava6.Library.BitVecAppend

/-! Sign extensions: the values are the vectors in the signed range of the smaller width, whose first bits are all
equal.
-/

namespace Ava6.Quantifiers.BvInverter

open Ava6.Bv Ava6.Library.BitVecOrder

variable {wx ws : Nat}

/-- Some value of the extended node makes the literal true. -/
def SextSolvable (pol : Bool) (litk : LitKind) (wx : Nat) (t : BitVec (wx + ws)) : Prop :=
  ∃ x : BitVec wx, litk.relation.holds (x.signExtend (wx + ws)) t = pol

/-- Zero and the vector of ones are extensions, so some extension differs from `t`. -/
theorem exists_signExtend_ne (positive : 0 < wx) (t : BitVec (wx + ws))
    : ∃ r, (∃ x : BitVec wx, x.signExtend (wx + ws) = r) ∧ r ≠ t := by
  by_cases zero : t = 0#_
  · refine ⟨BitVec.allOnes _, (Extremes.signExtended positive).uhi_mem, fun same => ?_⟩
    have values := congrArg BitVec.toInt (same.trans zero)
    rw [BitVec.toInt_allOnes, if_pos (Nat.add_pos_left positive ws), BitVec.toInt_zero] at values
    cases values
  · exact ⟨0#_, (Extremes.signExtended positive).ulo_mem, Ne.symm zero⟩

/-- The vector that the three conditions use is the greatest extension. -/
theorem eval_zeroExtended (v : Valuation) (positive : 0 < wx) {ext : Term (wx + ws)}
    (built : (if amount : 0 < ws then
        some ((mkConcat (mkZero ws amount) (mkMaxSigned wx positive)).cast (Nat.add_comm ws wx)) else none) = some ext)
    : ext.eval v = (~~~BitVec.twoPow wx (wx - 1)).signExtend (wx + ws) := by
  split at built
  · rename_i amount
    obtain rfl := Option.some.inj built
    simp [zero_append_maxSigned positive amount]
  · cases built

theorem eval_sclBvSext (v : Valuation) {pol : Bool} {litk : LitKind} {positive : 0 < wx} {t : Term (wx + ws)}
    {scl : Formula} (built : sclBvSext pol litk positive t = some scl)
    : scl.eval v = true ↔ SextSolvable pol litk wx (t.eval v) := by
  have through : SextSolvable pol litk wx (t.eval v)
      ↔ condition (Extremes.signExtended positive) pol litk (t.eval v) := by
    rw [← exists_holds_iff]
    simp [SextSolvable]
  have low : wx + ws - 1 - ws = wx - 1 := by omega
  have slice := toNat_eval_mkExtract v t (wx + ws - 1) (wx + ws - 1 - ws) (by omega) (show _ = ws + 1 by omega)
  have inRange := slice_iff_signExtended positive (slice.trans (by rw [low]))
  rw [through]
  cases litk <;> cases pol
  case slt.false =>
    obtain ⟨ext, extended, rfl⟩ := Option.map_eq_some_iff.mp built
    rw [show condition (Extremes.signExtended positive) false .slt (t.eval v) ↔ _ from
      ((Extremes.signExtended positive).mem_or_slt_shi_iff (t.eval v)).symm]
    simp [inRange, eval_zeroExtended v positive extended, Extremes.signExtended]
  case sgt.true =>
    obtain ⟨ext, extended, rfl⟩ := Option.map_eq_some_iff.mp built
    simp [condition, Extremes.signExtended, eval_zeroExtended v positive extended]
  case sgt.false =>
    obtain ⟨ext, extended, rfl⟩ := Option.map_eq_some_iff.mp built
    simp [condition, Extremes.signExtended, eval_zeroExtended v positive extended, not_signExtend_maxSigned positive]
  case equal.true => cases built; simpa [condition] using inRange
  case equal.false => cases built; simpa [condition] using exists_signExtend_ne positive (t.eval v)
  case ugt.true => cases built; simp [condition, Extremes.signExtended, ult_allOnes_iff]
  all_goals cases built; simp [condition, Extremes.signExtended]

/-- The condition is an implication of the literal by its solvability. -/
theorem getICBvSext_spec (v : Valuation) {pol : Bool} {litk : LitKind} {x : Term wx} {t : Term (wx + ws)}
    {ic : Formula} (built : getICBvSext pol litk x t = some ic)
    : ∃ scl, ic = .implies scl (mkLiteral pol litk (mkSignExtend x ws) t)
      ∧ (scl.eval v = true ↔ SextSolvable pol litk wx (t.eval v)) := by
  obtain ⟨scl, sclBuilt, rfl⟩ := Option.map_eq_some_iff.mp built
  exact ⟨scl, rfl, eval_sclBvSext v sclBuilt⟩

/-- There is a condition unless a vector of no bits is needed. -/
theorem getICBvSext_isSome (pol : Bool) (litk : LitKind) (x : Term wx) (t : Term (wx + ws))
    : (getICBvSext pol litk x t).isSome = true
      ↔ ws ≠ 0 ∨ litk = .equal ∨ litk = .ult ∨ litk = .ugt ∨ (litk = .slt ∧ pol = true) := by
  rcases Nat.eq_zero_or_pos ws with rfl | amount
  · cases litk <;> cases pol <;> simp [getICBvSext, sclBvSext]
  · simp only [amount.ne', ne_eq, not_false_eq_true, true_or, iff_true]
    cases litk <;> cases pol <;> simp [getICBvSext, sclBvSext, amount]

end Ava6.Quantifiers.BvInverter

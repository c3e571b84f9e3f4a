import Ava6.Quantifiers.Solvability

/-! Conjunction and disjunction: the values are the parts of `s`, or the vectors that contain it. -/

namespace Ava6.Quantifiers.BvInverter

open Ava6.Bv Ava6.Library.BitVecOrder

variable {w : Nat}

theorem and_image (s r : BitVec w) : (∃ x, OpKind.and.result 0 s x = r) ↔ r &&& s = r := by
  constructor
  · rintro ⟨x, rfl⟩
    change (x &&& s) &&& s = x &&& s
    rw [BitVec.and_assoc, BitVec.and_self]
  · exact fun member => ⟨r, member⟩

theorem or_image (s r : BitVec w) : (∃ x, OpKind.or.result 0 s x = r) ↔ r ||| s = r := by
  constructor
  · rintro ⟨x, rfl⟩
    change (x ||| s) ||| s = x ||| s
    rw [BitVec.or_assoc, BitVec.or_self]
  · exact fun member => ⟨r, member⟩

/-- The part `(t - 1) &&& s` is signed smaller than `t` if some part of `s` is. -/
theorem and_slt (positive : 0 < w) (s t : BitVec w)
    : (~~~(-t) &&& s).slt t = (s &&& BitVec.twoPow w (w - 1)).slt t := by
  have sign := toNat_and_sign positive s
  have pred := toNat_pred_cases t
  have part := toNat_and_bounds (~~~(-t)) s
  have double := two_pow_eq_double_half positive
  have bound := t.isLt
  rw [Bool.eq_iff_iff, slt_iff positive, slt_iff positive]
  omega

theorem and_sgt (positive : 0 < w) (s t : BitVec w)
    : t.slt ((t - s) &&& s) = t.slt (s &&& ~~~BitVec.twoPow w (w - 1)) := by
  rw [Bool.eq_iff_iff]
  refine ⟨fun less => ?_, slt_sub_and positive⟩
  refine ((Extremes.submasks positive s).exists_sgt t).mp ⟨_, ?_, less⟩
  rw [BitVec.and_assoc, BitVec.and_self]

/-- A vector is at most the greatest part of `s` if it is a part or is less than that. -/
theorem and_sge (positive : 0 < w) (s t : BitVec w)
    : t &&& s = t ∨ t.slt (s &&& ~~~BitVec.twoPow w (w - 1)) = true
      ↔ t.sle (s &&& ~~~BitVec.twoPow w (w - 1)) = true :=
  (Extremes.submasks positive s).mem_or_slt_shi_iff t

/-- The sign of `t` in `s` decides whether some part of `s` is at most `t`. -/
theorem and_sle (positive : 0 < w) (s t : BitVec w)
    : (t &&& BitVec.twoPow w (w - 1)).ule s = (s &&& BitVec.twoPow w (w - 1)).sle t := by
  have signS := toNat_and_sign positive s
  have signT := toNat_and_sign positive t
  rw [Bool.eq_iff_iff, BitVec.ule_iff_toNat_le, sle_iff positive]
  omega

/-- The condition of the inverter for conjunctions is exact. -/
theorem eval_sclBvAnd (v : Valuation) (pol : Bool) (litk : LitKind) (s t : Term w)
    : (sclBvAndOr pol litk .and s t).eval v = true ↔ Solvable pol litk .and 0 (s.eval v) (t.eval v) := by
  have positive := s.positive
  rw [solvable_iff (and_image (s.eval v)) (Extremes.submasks positive (s.eval v))]
  cases litk <;> cases pol <;> simp [sclBvAndOr, condition, OpKind.mkNode, Extremes.submasks]
  case equal.true => exact eq_comm
  case equal.false =>
    have parts : (∃ r, r &&& s.eval v = r ∧ r ≠ t.eval v) ↔ s.eval v ≠ 0#w ∨ t.eval v ≠ 0#w := by
      refine exists_ne_iff ?_ ?_ (fun isZero r member => ?_) (t.eval v)
      · exact BitVec.zero_and
      · exact BitVec.and_self
      · rw [isZero, BitVec.and_zero] at member
        exact member.symm
    exact parts.symm
  case slt.true => rw [and_slt positive]
  case slt.false =>
    rw [and_sgt positive, BitVec.and_comm (s.eval v) (t.eval v)]
    exact and_sge positive (s.eval v) (t.eval v)
  case sgt.false => rw [and_sle positive]

/-- The complement turns the parts of a mask into vectors that contain its complement. -/
theorem or_slt (positive : 0 < w) (s t : BitVec w)
    : (~~~(s - t) ||| s).slt t = (s ||| BitVec.twoPow w (w - 1)).slt t := by
  have left : ~~~(s - t) ||| s = ~~~((~~~t - ~~~s) &&& ~~~s) := by
    have difference : ~~~t - ~~~s = s - t := by
      rw [BitVec.not_eq_neg_add, BitVec.not_eq_neg_add]
      ring
    rw [difference, BitVec.not_and, BitVec.not_not]
  have right : s ||| BitVec.twoPow w (w - 1) = ~~~(~~~s &&& ~~~BitVec.twoPow w (w - 1)) := by
    rw [BitVec.not_and, BitVec.not_not, BitVec.not_not]
  have reversed (x : BitVec w) : (~~~x).slt t = (~~~t).slt x := by
    rw [← slt_not positive, BitVec.not_not]
  rw [left, right, reversed, reversed, and_sgt positive]

theorem or_sge (positive : 0 < w) (s t : BitVec w)
    : (s &&& t).sle s = t.sle (s ||| ~~~BitVec.twoPow w (w - 1)) := by
  have signS := toNat_or_sign positive s
  have part := toNat_and_bounds s t
  have double := two_pow_eq_double_half positive
  have bound := t.isLt
  rw [Bool.eq_iff_iff, sle_iff positive, sle_iff positive]
  omega

/-- The condition of the inverter for disjunctions is exact. -/
theorem eval_sclBvOr (v : Valuation) (pol : Bool) (litk : LitKind) (s t : Term w)
    : (sclBvAndOr pol litk .or s t).eval v = true ↔ Solvable pol litk .or 0 (s.eval v) (t.eval v) := by
  have positive := s.positive
  rw [solvable_iff (or_image (s.eval v)) (Extremes.supermasks positive (s.eval v))]
  cases litk <;> cases pol <;> simp [sclBvAndOr, condition, OpKind.mkNode, Extremes.supermasks]
  case equal.true => exact eq_comm
  case equal.false =>
    have parts : (∃ r, r ||| s.eval v = r ∧ r ≠ t.eval v)
        ↔ s.eval v ≠ BitVec.allOnes w ∨ t.eval v ≠ BitVec.allOnes w := by
      refine exists_ne_iff ?_ ?_ (fun isOnes r member => ?_) (t.eval v)
      · exact BitVec.allOnes_or
      · exact BitVec.or_self
      · rw [isOnes, BitVec.or_allOnes] at member
        exact member.symm
    exact parts.symm
  case slt.true => rw [or_slt positive]
  case slt.false => rw [or_sge positive]

end Ava6.Quantifiers.BvInverter

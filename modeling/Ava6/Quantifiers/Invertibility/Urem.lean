import Ava6.Quantifiers.Solvability

/-! Remainder. Taken modulo `s`, the values are those below `s`, or all of them for `s = 0`;
the remainders of `s` itself are `s` and every value below half of it.
-/

namespace Ava6.Quantifiers.BvInverter

open Ava6.Bv Ava6.Library.BitVecOrder

variable {w : Nat}

/-- Remainders modulo `s` are the values up to its predecessor. -/
theorem urem_image_left (s r : BitVec w)
    : (∃ x, OpKind.urem.result 0 s x = r) ↔ r.toNat ≤ (~~~(-s)).toNat := by
  have pred := toNat_pred_cases s
  have bound := r.isLt
  simp only [OpKind.result, OpKind.apply, if_true, BitVec.toNat_eq, BitVec.toNat_umod]
  constructor
  · rintro ⟨x, value⟩
    rcases pred with ⟨_, top⟩ | ⟨pos, top⟩
    · omega
    · have small := Nat.mod_lt x.toNat pos
      omega
  · intro le
    refine ⟨r, ?_⟩
    rcases pred with ⟨zero, _⟩ | ⟨pos, top⟩
    · rw [zero, Nat.mod_zero]
    · exact Nat.mod_eq_of_lt (by omega)

/-- The remainders of `s`. -/
def uremImage (s r : BitVec w) : Prop := r = s ∨ 2 * r.toNat < s.toNat

theorem urem_image_right {idx : Nat} (right : idx ≠ 0) (s r : BitVec w)
    : (∃ x, OpKind.urem.result idx s x = r) ↔ uremImage s r := by
  have bound := s.isLt
  simp only [OpKind.result, OpKind.apply, if_neg right, uremImage]
  constructor
  · rintro ⟨x, rfl⟩
    rw [BitVec.toNat_eq, BitVec.toNat_umod]
    rcases Nat.eq_zero_or_pos x.toNat with zero | pos
    · left
      rw [zero, Nat.mod_zero]
    · rcases Nat.lt_or_ge s.toNat x.toNat with less | atLeast
      · exact Or.inl (Nat.mod_eq_of_lt less)
      · right
        have small := Nat.mod_lt s.toNat pos
        have quotient := Nat.div_pos atLeast pos
        have whole := Nat.div_add_mod s.toNat x.toNat
        have once := Nat.le_mul_of_pos_right x.toNat quotient
        omega
  · rintro (rfl | less)
    · exact ⟨0#w, by simp⟩
    · -- the divisor `s - r` is above `r` and fits once into `s`
      refine ⟨s - r, ?_⟩
      have difference := toNat_sub_cases s r
      rw [BitVec.toNat_eq, BitVec.toNat_umod]
      have value : (s - r).toNat = s.toNat - r.toNat := by omega
      rw [value, Nat.mod_eq_sub_mod (by omega), Nat.mod_eq_of_lt (by omega)]
      omega

section Extremes

variable (positive : 0 < w) (s : BitVec w)

theorem urem_uhi_mem : uremImage s s := Or.inl rfl

theorem urem_le_uhi (r : BitVec w) (member : uremImage s r) : r.toNat ≤ s.toNat := by
  simp only [uremImage, BitVec.toNat_eq] at member
  omega

include positive

theorem urem_ulo_mem : uremImage s 0#w := by
  have corners := toNat_corners positive
  simp only [uremImage, BitVec.toNat_eq]
  omega

theorem urem_slo_mem : uremImage s (if 2 ^ (w - 1) ≤ s.toNat then s else 0#w) := by
  split
  · exact urem_uhi_mem s
  · exact urem_ulo_mem positive s

theorem urem_shi_mem : uremImage s (if 2 ^ (w - 1) ≤ s.toNat then (s - 1#w) >>> 1#w else s) := by
  have corners := toNat_corners positive
  have shifted := toNat_ushiftRight_one positive (s - 1#w)
  have pred := toNat_sub_cases s 1#w
  simp only [uremImage, BitVec.toNat_eq]
  split <;> omega

theorem urem_ulo_le (r : BitVec w) (_ : uremImage s r) : (0#w).toNat ≤ r.toNat := by
  have corners := toNat_corners positive
  omega

theorem urem_slo_le (r : BitVec w) (member : uremImage s r)
    : (if 2 ^ (w - 1) ≤ s.toNat then s else 0#w).toInt ≤ r.toInt := by
  have bound := s.isLt
  have corners := toNat_corners positive
  simp only [uremImage, BitVec.toNat_eq] at member
  rw [toInt_le_iff positive]
  split <;> omega

theorem urem_le_shi (r : BitVec w) (member : uremImage s r)
    : r.toInt ≤ (if 2 ^ (w - 1) ≤ s.toNat then (s - 1#w) >>> 1#w else s).toInt := by
  have bound := s.isLt
  have corners := toNat_corners positive
  have shifted := toNat_ushiftRight_one positive (s - 1#w)
  have pred := toNat_sub_cases s 1#w
  simp only [uremImage, BitVec.toNat_eq] at member
  rw [toInt_le_iff positive]
  split <;> omega

/-- The signed greatest remainder of a negative `s` is the last one below its half. -/
def uremExtremes : Extremes (uremImage s) where
  ulo := 0#w
  uhi := s
  slo := if 2 ^ (w - 1) ≤ s.toNat then s else 0#w
  shi := if 2 ^ (w - 1) ≤ s.toNat then (s - 1#w) >>> 1#w else s
  ulo_mem := urem_ulo_mem positive s
  uhi_mem := urem_uhi_mem s
  slo_mem := urem_slo_mem positive s
  shi_mem := urem_shi_mem positive s
  ulo_le := urem_ulo_le positive s
  le_uhi := urem_le_uhi s
  slo_le := urem_slo_le positive s
  le_shi := urem_le_shi positive s

end Extremes

theorem exists_urem_ne (s t : BitVec w)
    : (∃ r, uremImage s r ∧ r ≠ t) ↔ s ≠ 0#w ∨ t ≠ 0#w := by
  refine exists_ne_iff ?_ (Or.inl rfl) ?_ t
  · rw [uremImage, BitVec.toNat_eq, BitVec.toNat_ofNat, Nat.zero_mod]
    omega
  · rintro rfl r (same | less)
    · exact same
    · exact absurd less (Nat.not_lt_zero _)

/-- The condition of the inverter for remainders is exact when the variable is the dividend. -/
theorem eval_sclBvUrem_left (v : Valuation) (pol : Bool) (litk : LitKind) (s t : Term w)
    : (sclBvUrem pol litk 0 s t).eval v = true
      ↔ Solvable pol litk .urem 0 (s.eval v) (t.eval v) := by
  have positive := s.positive
  rw [solvable_iff (urem_image_left (s.eval v)) (Extremes.segment positive (~~~(-s.eval v)))]
  cases litk <;> cases pol <;>
    simp [sclBvUrem, condition, -BitVec.toNat_not, -Bool.coe_iff_coe]
  all_goals
    generalize s.eval v = s
    generalize t.eval v = t
    have corners := toNat_corners positive
    have sbound := s.isLt
    have tbound := t.isLt
    have pred := toNat_pred_cases s
    have sneg := toNat_neg_cases s
  case equal.false =>
    have parts := exists_segment_ne (~~~(-s)) t
    rw [ne_eq] at parts
    rw [parts]
    clear parts
    simp only [ne_eq, BitVec.toNat_eq]
    omega
  case equal.true => rw [BitVec.ule_iff_toNat_le]
  case slt.false =>
    rw [slt_iff positive, sle_iff positive, sle_iff positive]
    split <;> omega
  case slt.true =>
    have tneg := toNat_neg_cases t
    have bounds := toNat_or_bounds (-s) (-t)
    have tnot := BitVec.toNat_not (x := t)
    rw [slt_iff positive, slt_iff positive]
    split <;> omega
  case sgt.false =>
    have bounds := toNat_and_bounds (-s) t
    rw [slt_iff positive, sle_iff positive]
    split <;> omega
  case sgt.true =>
    simp only [slt_eq_false, sle_eq_false, slt_iff positive, sle_iff positive, BitVec.toNat_eq]
    split <;> omega

/-- The operands of the conjunction `(t + t - s) &&& s` add up to `2 * t` without a carry or
exceed it by a whole range, so it reaches `t` only for `t = s` or after a borrow. -/
theorem le_and_double_sub_iff (s t : BitVec w)
    : t.toNat ≤ (t + t - s &&& s).toNat ↔ uremImage s t := by
  have total := toNat_and_add_or (t + t - s) s
  obtain ⟨conjLeft, conjRight, _⟩ := toNat_and_bounds (t + t - s) s
  obtain ⟨disjLeft, disjRight, _⟩ := toNat_or_bounds (t + t - s) s
  have range := (t + t - s ||| s).isLt
  have tbound := t.isLt
  have twice := toNat_add_cases t t
  have difference := toNat_sub_cases (t + t) s
  constructor
  · intro reaches
    rw [uremImage, BitVec.toNat_eq]
    omega
  · rintro (rfl | less)
    · rw [BitVec.add_sub_cancel, BitVec.and_self]
    · omega

/-- The condition of the inverter for remainders is exact when the variable is the divisor. -/
theorem eval_sclBvUrem_right (v : Valuation) (pol : Bool) (litk : LitKind) {idx : Nat}
    (right : idx ≠ 0) (s t : Term w)
    : (sclBvUrem pol litk idx s t).eval v = true
      ↔ Solvable pol litk .urem idx (s.eval v) (t.eval v) := by
  have positive := s.positive
  rw [solvable_iff (urem_image_right right (s.eval v)) (uremExtremes positive (s.eval v))]
  cases litk <;> cases pol <;>
    simp [sclBvUrem, condition, right, uremExtremes, -BitVec.ushiftRight_eq', -Bool.coe_iff_coe]
  all_goals
    generalize s.eval v = s
    generalize t.eval v = t
    have corners := toNat_corners positive
    have sbound := s.isLt
    have tbound := t.isLt
  case equal.false => simpa using (exists_urem_ne s t).symm
  case equal.true => rw [BitVec.ule_iff_toNat_le, le_and_double_sub_iff]
  case ult.false =>
    rw [BitVec.ule_iff_toNat_le, BitVec.ule_iff_toNat_le, BitVec.ult_iff_toNat_lt,
      le_and_double_sub_iff, uremImage, BitVec.toNat_eq]
    omega
  case slt.false =>
    have shifted := toNat_ushiftRight_one positive (s - 1#w)
    have pred := toNat_sub_cases s 1#w
    have difference := toNat_sub_cases s t
    simp only [slt_eq_false, sle_eq_false, slt_iff positive, sle_iff positive,
      BitVec.ult_iff_toNat_lt]
    split <;> omega
  case slt.true =>
    rw [slt_iff positive, slt_iff positive, slt_iff positive]
    split <;> omega
  case sgt.false =>
    rw [sle_iff positive, sle_iff positive, BitVec.ult_iff_toNat_lt]
    split <;> omega
  case sgt.true =>
    simp only [slt_eq_false, sle_eq_false, slt_iff positive, sle_iff positive]
    split <;> omega

end Ava6.Quantifiers.BvInverter

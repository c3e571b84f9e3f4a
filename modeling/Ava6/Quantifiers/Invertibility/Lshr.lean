import Ava6.Quantifiers.Invertibility.Shift

/-! Logical right shift. Shifted by `s`, the values are those up to the shifted all-ones
vector; the shifts of `s` halve it step by step down to zero.
-/

namespace Ava6.Quantifiers.BvInverter

open Ava6.Bv Ava6.Library.BitVecOrder

variable {w : Nat}

/-- Shifting left and back returns the value when nothing is shifted out. -/
theorem shl_lshr_iff (s t : BitVec w)
    : t <<< s >>> s = t ↔ t.toNat ≤ (BitVec.allOnes w >>> s).toNat := by
  rw [BitVec.toNat_eq, BitVec.ushiftRight_eq', BitVec.ushiftRight_eq', BitVec.shiftLeft_eq',
    BitVec.toNat_ushiftRight, BitVec.toNat_ushiftRight, BitVec.toNat_shiftLeft,
    BitVec.toNat_allOnes, Nat.shiftRight_eq_div_pow, Nat.shiftRight_eq_div_pow,
    Nat.shiftLeft_eq, Nat.mul_comm]
  exact mul_mod_div_eq_iff (Nat.two_pow_pos w) (Nat.two_pow_pos s.toNat) t.toNat

theorem lshr_image_left (s r : BitVec w)
    : (∃ x, OpKind.lshr.result 0 s x = r) ↔ r.toNat ≤ (BitVec.allOnes w >>> s).toNat := by
  simp only [OpKind.result, OpKind.apply, if_true]
  constructor
  · rintro ⟨x, rfl⟩
    have bound := x.isLt
    rw [BitVec.ushiftRight_eq', BitVec.ushiftRight_eq', BitVec.toNat_ushiftRight,
      BitVec.toNat_ushiftRight, BitVec.toNat_allOnes, Nat.shiftRight_eq_div_pow,
      Nat.shiftRight_eq_div_pow]
    exact Nat.div_le_div_right (by omega)
  · intro le
    exact ⟨r <<< s, (shl_lshr_iff s r).mpr le⟩

/-- Some bit survives the shift exactly for amounts below the width. -/
theorem allOnes_lshr_ne_zero (s : BitVec w)
    : BitVec.allOnes w >>> s ≠ 0#w ↔ s.ult (BitVec.ofNat w w) = true := by
  rw [BitVec.ult_iff_toNat_lt, toNat_amount (Nat.le_refl w), ne_eq, BitVec.toNat_eq,
    BitVec.ushiftRight_eq', BitVec.toNat_ushiftRight, BitVec.toNat_allOnes,
    Nat.shiftRight_eq_div_pow]
  have power : 0 < 2 ^ s.toNat := Nat.two_pow_pos _
  have whole : 0 < 2 ^ w := Nat.two_pow_pos _
  have grow : w ≤ s.toNat ↔ 2 ^ w ≤ 2 ^ s.toNat := (Nat.pow_le_pow_iff_right Nat.one_lt_two).symm
  have small := Nat.div_eq_zero_iff (a := 2 ^ w - 1) (b := 2 ^ s.toNat)
  have zero : (0#w).toNat = 0 := rfl
  omega

/-- The amount itself is too small to disturb the surviving bits of its complement. -/
theorem not_lshr_self (s : BitVec w) : ~~~s >>> s = BitVec.allOnes w >>> s := by
  apply BitVec.eq_of_getLsbD_eq
  intro i inside
  rw [BitVec.ushiftRight_eq', BitVec.ushiftRight_eq', BitVec.getLsbD_ushiftRight,
    BitVec.getLsbD_ushiftRight, BitVec.getLsbD_not, BitVec.getLsbD_allOnes]
  have small : s.toNat < 2 ^ (s.toNat + i) :=
    Nat.lt_of_lt_of_le Nat.lt_two_pow_self (Nat.pow_le_pow_right Nat.zero_lt_two (by omega))
  rw [BitVec.getLsbD, Nat.testBit_lt_two_pow small]
  simp

/-- Shifting the greatest signed value out and back loses what all ones lose. -/
theorem maxSigned_shl_lshr {s : BitVec w} (more : 0 < s.toNat)
    : ~~~BitVec.twoPow w (w - 1) <<< s >>> s = BitVec.allOnes w >>> s := by
  apply BitVec.eq_of_getLsbD_eq
  intro i inside
  simp only [BitVec.ushiftRight_eq', BitVec.shiftLeft_eq', BitVec.getLsbD_ushiftRight,
    BitVec.getLsbD_shiftLeft, BitVec.getLsbD_not, BitVec.getLsbD_twoPow, BitVec.getLsbD_allOnes]
  have cancel : s.toNat + i - s.toNat = i := by omega
  rw [cancel]
  by_cases within : s.toNat + i < w
  · have below : ¬ w - 1 = i := by omega
    simp [within, below, inside]
  · simp [within]

/-- The condition of the inverter for logical shifts is exact when the variable is shifted. -/
theorem eval_sclBvLshr_left (v : Valuation) (pol : Bool) (litk : LitKind) (s t : Term w)
    : (sclBvLshr pol litk 0 s t).eval v = true
      ↔ Solvable pol litk .lshr 0 (s.eval v) (t.eval v) := by
  have positive := s.positive
  have corners := toNat_corners positive
  rw [solvable_iff (lshr_image_left (s.eval v))
    (Extremes.segment positive (BitVec.allOnes w >>> s.eval v))]
  cases litk <;> cases pol <;>
    simp [sclBvLshr, condition, not_lshr_self, -BitVec.ushiftRight_eq', -BitVec.shiftLeft_eq',
      -BitVec.toNat_ushiftRight, -Bool.coe_iff_coe]
  all_goals
    generalize s.eval v = s
    generalize t.eval v = t
    have greatest := toNat_ushiftRight_cases positive (BitVec.allOnes w) s
    have tbound := t.isLt
  case equal.true => exact shl_lshr_iff s t
  case equal.false =>
    rw [← ne_eq, ← allOnes_lshr_ne_zero, Or.comm]
    exact (exists_segment_ne _ t).symm
  case ult.false => rw [shl_lshr_iff, BitVec.ule_iff_toNat_le]
  case slt.false =>
    rw [sle_iff positive, sle_iff positive, BitVec.toNat_eq]
    split <;> omega
  case slt.true =>
    have pred := toNat_pred_cases t
    have shifted := toNat_ushiftRight_cases positive (~~~(-t)) s
    rw [slt_iff positive, slt_iff positive]
    split <;> omega
  case sgt.false =>
    have shifted := toNat_ushiftRight_cases positive t s
    rw [sle_iff positive, sle_iff positive]
    split <;> omega
  case sgt.true =>
    rcases Nat.eq_zero_or_pos s.toNat with zero | more
    · have vector : s = 0#w := BitVec.eq_of_toNat_eq (by simp [zero])
      have large : 2 ^ (w - 1) ≤ 2 ^ w - 1 := by omega
      simp [vector, large]
    · rw [maxSigned_shl_lshr more]
      split
      · omega
      · rfl

def lshrImage (s r : BitVec w) : Prop := ∃ x : BitVec w, s >>> x = r

theorem lshr_image_right {idx : Nat} (right : idx ≠ 0) (s r : BitVec w)
    : (∃ x, OpKind.lshr.result idx s x = r) ↔ lshrImage s r := by
  simp only [OpKind.result, OpKind.apply, if_neg right, lshrImage]

theorem lshrImage_zero (s : BitVec w) : lshrImage s 0#w := by
  refine ⟨BitVec.ofNat w w, ?_⟩
  rw [BitVec.ushiftRight_eq', toNat_amount (Nat.le_refl w),
    BitVec.ushiftRight_eq_zero (Nat.le_refl w)]

theorem lshrImage_self (s : BitVec w) : lshrImage s s := ⟨0#w, by simp⟩

/-- A shift of `s` is `s` itself or at most half of it. -/
theorem lshrImage_bounds (positive : 0 < w) {s r : BitVec w} (member : lshrImage s r)
    : r.toNat = s.toNat ∨ 2 * r.toNat ≤ s.toNat := by
  obtain ⟨x, rfl⟩ := member
  have shifted := toNat_ushiftRight_cases positive s x
  omega

section Extremes

variable (positive : 0 < w) (s : BitVec w)

theorem lshr_slo_mem : lshrImage s (if 2 ^ (w - 1) ≤ s.toNat then s else 0#w) := by
  split
  · exact lshrImage_self s
  · exact lshrImage_zero s

theorem lshr_shi_mem : lshrImage s (if 2 ^ (w - 1) ≤ s.toNat then s >>> 1#w else s) := by
  split
  · exact ⟨1#w, rfl⟩
  · exact lshrImage_self s

include positive

theorem lshr_ulo_le (r : BitVec w) (_ : lshrImage s r) : (0#w).toNat ≤ r.toNat := by
  have corners := toNat_corners positive
  omega

theorem lshr_le_uhi (r : BitVec w) (member : lshrImage s r) : r.toNat ≤ s.toNat := by
  have bounds := lshrImage_bounds positive member
  omega

theorem lshr_slo_le (r : BitVec w) (member : lshrImage s r)
    : (if 2 ^ (w - 1) ≤ s.toNat then s else 0#w).toInt ≤ r.toInt := by
  have bound := s.isLt
  have corners := toNat_corners positive
  have shifted := toNat_ushiftRight_one positive s
  have bounds := lshrImage_bounds positive member
  rw [toInt_le_iff positive]
  split <;> omega

theorem lshr_le_shi (r : BitVec w) (member : lshrImage s r)
    : r.toInt ≤ (if 2 ^ (w - 1) ≤ s.toNat then s >>> 1#w else s).toInt := by
  have bound := s.isLt
  have corners := toNat_corners positive
  have shifted := toNat_ushiftRight_one positive s
  have bounds := lshrImage_bounds positive member
  rw [toInt_le_iff positive]
  split <;> omega

def lshrExtremes : Extremes (lshrImage s) where
  ulo := 0#w
  uhi := s
  slo := if 2 ^ (w - 1) ≤ s.toNat then s else 0#w
  shi := if 2 ^ (w - 1) ≤ s.toNat then s >>> 1#w else s
  ulo_mem := lshrImage_zero s
  uhi_mem := lshrImage_self s
  slo_mem := lshr_slo_mem s
  shi_mem := lshr_shi_mem s
  ulo_le := lshr_ulo_le positive s
  le_uhi := lshr_le_uhi positive s
  slo_le := lshr_slo_le positive s
  le_shi := lshr_le_shi positive s

end Extremes

/-- The condition of the inverter for logical shifts is exact when the variable is the
amount. -/
theorem eval_sclBvLshr_right (v : Valuation) (pol : Bool) (litk : LitKind) {idx : Nat}
    (right : idx ≠ 0) (s t : Term w)
    : (sclBvLshr pol litk idx s t).eval v = true
      ↔ Solvable pol litk .lshr idx (s.eval v) (t.eval v) := by
  have positive := s.positive
  have corners := toNat_corners positive
  rw [solvable_iff (lshr_image_right right (s.eval v)) (lshrExtremes positive (s.eval v))]
  cases litk <;> cases pol <;>
    simp [sclBvLshr, condition, right, lshrExtremes, -BitVec.ushiftRight_eq', -Bool.coe_iff_coe]
  case equal.true =>
    refine (eval_defaultShiftIC v (k := .lshr) rfl .equal s t).trans ?_
    simp [OpKind.apply, lshrImage]
  case equal.false =>
    refine (exists_ne_iff (lshrImage_zero _) (lshrImage_self _) ?_ (t.eval v)).symm
    rintro zero r ⟨x, rfl⟩
    rw [zero, BitVec.ushiftRight_eq', BitVec.zero_ushiftRight]
  case slt.false =>
    simp only [slt_eq_false, slt_iff positive, sle_iff positive]
    split <;> omega
  case slt.true =>
    simp only [slt_iff positive]
    split <;> omega
  case sgt.false =>
    rw [BitVec.ult_iff_toNat_lt, sle_iff positive, sle_iff positive]
    split <;> omega
  case sgt.true =>
    simp only [slt_eq_false, slt_iff positive, sle_iff positive]
    split <;> omega

end Ava6.Quantifiers.BvInverter

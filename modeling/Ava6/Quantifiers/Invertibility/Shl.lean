import Ava6.Quantifiers.Invertibility.Shift

/-! Left shift. Shifted by `s`, the values are the multiples of a power of two; the shifts of
a nonzero `s` reach the least signed value.
-/

namespace Ava6.Quantifiers.BvInverter

open Ava6.Bv Ava6.Library.BitVecOrder

variable {w : Nat}

theorem shl_image_left (s r : BitVec w)
    : (∃ x, OpKind.shl.result 0 s x = r) ↔ 2 ^ min s.toNat w ∣ r.toNat := by
  simp only [OpKind.result, OpKind.apply, if_true]
  constructor
  · rintro ⟨x, rfl⟩
    rw [BitVec.shiftLeft_eq', BitVec.toNat_shiftLeft, Nat.shiftLeft_eq,
      Nat.dvd_mod_iff (pow_dvd_pow 2 (Nat.min_le_right _ _))]
    exact Dvd.dvd.mul_left (pow_dvd_pow 2 (Nat.min_le_left _ _)) _
  · rintro ⟨q, value⟩
    rcases Nat.le_total s.toNat w with below | above
    · rw [Nat.min_eq_left below, Nat.mul_comm] at value
      refine ⟨BitVec.ofNat w q, ?_⟩
      rw [BitVec.toNat_eq, BitVec.shiftLeft_eq', BitVec.toNat_shiftLeft, BitVec.toNat_ofNat,
        Nat.shiftLeft_eq, Nat.mod_mul_mod, ← value, Nat.mod_eq_of_lt r.isLt]
    · rw [Nat.min_eq_right above] at value
      have zero : r.toNat = 0 := Nat.eq_zero_of_dvd_of_lt ⟨q, value⟩ r.isLt
      refine ⟨0#w, ?_⟩
      rw [BitVec.toNat_eq, zero]
      simp

/-- Masking with the shifted ones is shifting right and back. -/
theorem lshr_shl_eq (s t : BitVec w)
    : t >>> s <<< s = t &&& BitVec.allOnes w <<< min s.toNat w := by
  apply BitVec.eq_of_getLsbD_eq
  intro i inside
  rw [BitVec.shiftLeft_eq', BitVec.ushiftRight_eq']
  simp only [BitVec.getLsbD_and, BitVec.getLsbD_shiftLeft, BitVec.getLsbD_ushiftRight,
    BitVec.getLsbD_allOnes, inside, decide_true, Bool.true_and]
  have minimum : i < min s.toNat w ↔ i < s.toNat := by omega
  rcases Nat.lt_or_ge i s.toNat with below | above
  · simp [minimum, below]
  · have inner : s.toNat + (i - s.toNat) = i := by omega
    have small : i - min s.toNat w < w := by omega
    simp [minimum, inner, small, Nat.not_lt.mpr above]

theorem allOnes_shl (s : BitVec w)
    : BitVec.allOnes w <<< s = BitVec.allOnes w <<< min s.toNat w := by
  rw [BitVec.shiftLeft_eq']
  rcases Nat.le_total s.toNat w with below | above
  · rw [Nat.min_eq_left below]
  · rw [Nat.min_eq_right above, BitVec.shiftLeft_eq_zero above,
      BitVec.shiftLeft_eq_zero (Nat.le_refl w)]

/-- Below the sign bit the greatest signed value shifts as all ones do. -/
theorem maxSigned_shl_and (s : BitVec w)
    : ~~~BitVec.twoPow w (w - 1) <<< s &&& ~~~BitVec.twoPow w (w - 1)
      = ~~~BitVec.twoPow w (w - 1) &&& BitVec.allOnes w <<< min s.toNat w := by
  rw [← allOnes_shl, BitVec.and_comm]
  apply BitVec.eq_of_getLsbD_eq
  intro i inside
  simp only [BitVec.shiftLeft_eq', BitVec.getLsbD_and, BitVec.getLsbD_shiftLeft,
    BitVec.getLsbD_not, BitVec.getLsbD_twoPow, BitVec.getLsbD_allOnes, inside, decide_true,
    Bool.true_and]
  have small : i - s.toNat < w := by omega
  by_cases last : w - 1 = i
  · simp [last, inside]
  · have other : ¬ w - 1 = i - s.toNat := by omega
    simp [small, other]

/-- The condition of the inverter for left shifts is exact when the variable is shifted. -/
theorem eval_sclBvShl_left (v : Valuation) (pol : Bool) (litk : LitKind) (s t : Term w)
    : (sclBvShl pol litk 0 s t).eval v = true
      ↔ Solvable pol litk .shl 0 (s.eval v) (t.eval v) := by
  have positive := s.positive
  have corners := toNat_corners positive
  have bound : min (s.eval v).toNat w ≤ w := Nat.min_le_right _ _
  rw [solvable_iff (shl_image_left (s.eval v)) (Extremes.multiples positive bound)]
  cases litk <;> cases pol <;>
    simp [sclBvShl, condition, lshr_shl_eq, maxSigned_shl_and, allOnes_shl,
      -BitVec.ushiftRight_eq', -BitVec.shiftLeft_eq', -Bool.coe_iff_coe]
  all_goals
    generalize s.eval v = s at *
    generalize t.eval v = t
  case equal.true => exact and_allOnes_shiftLeft_eq_iff _ _
  case equal.false =>
    have whole : min s.toNat w ≠ w ↔ s.toNat < w := by omega
    rw [BitVec.ult_iff_toNat_lt, toNat_amount (Nat.le_refl w), ← whole]
    exact (exists_multiple_ne bound t).symm
  case slt.true =>
    split
    · next above => rw [Nat.min_eq_right above]; simp
    · next below =>
      have divides : 2 ^ min s.toNat w ∣ (BitVec.twoPow w (w - 1)).toNat := by
        rw [corners.2.2.1]
        exact pow_dvd_pow 2 (by omega)
      rw [(and_allOnes_shiftLeft_eq_iff _ _).mpr divides]
  case sgt.false =>
    have outer := toNat_ushiftRight_cases positive t (t >>> s)
    rw [BitVec.ult_iff_toNat_lt, sle_iff positive]
    split
    · next above =>
      have inner : (t >>> s).toNat = 0 := by
        rw [BitVec.ushiftRight_eq', BitVec.ushiftRight_eq_zero above]
        rfl
      omega
    · next below =>
      have inner : 2 ^ (w - 1) ≤ t.toNat → 0 < (t >>> s).toNat := by
        intro negative
        rw [BitVec.ushiftRight_eq', BitVec.toNat_ushiftRight, Nat.shiftRight_eq_div_pow]
        exact Nat.div_pos
          (Nat.le_trans (Nat.pow_le_pow_right Nat.zero_lt_two (by omega)) negative)
          (Nat.two_pow_pos _)
      omega

def shlImage (s r : BitVec w) : Prop := ∃ x : BitVec w, s <<< x = r

theorem shlImage_zero (s : BitVec w) : shlImage s 0#w := by
  refine ⟨BitVec.ofNat w w, ?_⟩
  rw [BitVec.shiftLeft_eq', toNat_amount (Nat.le_refl w),
    BitVec.shiftLeft_eq_zero (Nat.le_refl w)]

theorem shlImage_self (s : BitVec w) : shlImage s s := ⟨0#w, by simp⟩

theorem zero_shl (x : BitVec w) : 0#w <<< x = 0#w := by
  rw [BitVec.shiftLeft_eq', BitVec.zero_shiftLeft]

/-- Shifting the lowest set bit to the top leaves only that bit. -/
theorem shlImage_minSigned {s : BitVec w} (nonzero : s ≠ 0#w)
    : shlImage s (BitVec.twoPow w (w - 1)) := by
  obtain ⟨k, lowest⟩ := exists_lowestBit s
  have inside : k < w := by
    refine Nat.lt_of_le_of_ne lowest.bound fun whole => nonzero ?_
    apply BitVec.eq_of_getLsbD_eq
    intro i below
    rw [lowest.clear i (by omega), BitVec.getLsbD_zero]
  refine ⟨BitVec.ofNat w (w - 1 - k), ?_⟩
  rw [BitVec.shiftLeft_eq', toNat_amount (by omega)]
  apply BitVec.eq_of_getLsbD_eq
  intro i below
  rw [BitVec.getLsbD_shiftLeft, BitVec.getLsbD_twoPow]
  rcases Nat.lt_or_ge i (w - 1) with before | last
  · have differ : ¬ w - 1 = i := by omega
    rcases Nat.lt_or_ge i (w - 1 - k) with out | kept
    · simp [below, out, differ]
    · simp [differ, lowest.clear (i - (w - 1 - k)) (by omega)]
  · have top : i - (w - 1 - k) = k := by omega
    have same : w - 1 = i := by omega
    rw [top, lowest.set inside]
    simp [same, below]

/-- Some shift of `s` is signed below a bound when zero is, or the least value for `s ≠ 0`. -/
theorem exists_shl_slt (positive : 0 < w) (s t : BitVec w)
    : (∃ x : BitVec w, (s <<< x).slt t = true)
      ↔ (if s = 0#w then 0#w else BitVec.twoPow w (w - 1)).slt t = true := by
  have corners := toNat_corners positive
  split
  · next zero => simp only [zero, zero_shl, exists_const]
  · next nonzero =>
    constructor
    · rintro ⟨x, less⟩
      rw [slt_iff positive] at less ⊢
      omega
    · intro less
      obtain ⟨x, value⟩ := shlImage_minSigned nonzero
      exact ⟨x, value.symm ▸ less⟩

theorem exists_shl_sle (positive : 0 < w) (s t : BitVec w)
    : (∃ x : BitVec w, (s <<< x).sle t = true) ↔ s ≠ 0#w ∨ (0#w).sle t = true := by
  by_cases zero : s = 0#w
  · simp [zero, zero_shl, -BitVec.shiftLeft_eq']
  · obtain ⟨x, value⟩ := shlImage_minSigned zero
    have least := minSigned_sle positive t
    simp only [zero, ne_eq, not_false_eq_true, true_or, iff_true]
    exact ⟨x, value.symm ▸ least⟩

/-- The least signed value survives only the shift by zero. -/
theorem minSigned_shl (s : BitVec w)
    : BitVec.twoPow w (w - 1) <<< s = if s = 0#w then BitVec.twoPow w (w - 1) else 0#w := by
  split
  · next zero => simp [zero]
  · next nonzero =>
    have more : 0 < s.toNat := by
      rw [BitVec.toNat_eq] at nonzero
      exact Nat.pos_of_ne_zero nonzero
    rw [BitVec.shiftLeft_eq']
    apply BitVec.eq_of_getLsbD_eq
    intro i inside
    rw [BitVec.getLsbD_shiftLeft, BitVec.getLsbD_twoPow, BitVec.getLsbD_zero]
    rcases Nat.lt_or_ge i s.toNat with out | kept
    · simp [out]
    · have differ : ¬ w - 1 = i - s.toNat := by omega
      simp [differ]

/-- The condition of the inverter for left shifts is exact when the variable is the amount. -/
theorem eval_sclBvShl_right (v : Valuation) (pol : Bool) (litk : LitKind) {idx : Nat}
    (right : idx ≠ 0) (s t : Term w)
    : (sclBvShl pol litk idx s t).eval v = true
      ↔ Solvable pol litk .shl idx (s.eval v) (t.eval v) := by
  have positive := s.positive
  have corners := toNat_corners positive
  have amounts := fun relation => eval_defaultShiftIC v (k := .shl) rfl relation s t
  simp only [OpKind.binaryKind, OpKind.apply] at amounts
  rw [solvable_amount right]
  cases litk <;> cases pol <;>
    simp [sclBvShl, right, LitKind.relation, OpKind.apply, amounts, ult_eq_false, slt_eq_false,
      -BitVec.ushiftRight_eq', -BitVec.shiftLeft_eq']
  all_goals
    generalize s.eval v = s
    generalize t.eval v = t
  case equal.false =>
    have parts := exists_ne_iff (shlImage_zero s) (shlImage_self s)
      (by rintro rfl r ⟨x, rfl⟩; exact zero_shl x) t
    rw [← ne_eq, ← ne_eq, ← parts]
    simp only [shlImage, exists_exists_eq_and, ne_eq]
  case ult.true =>
    constructor
    · intro nonzero
      obtain ⟨x, value⟩ := shlImage_zero s
      exact ⟨x, by rw [value, zero_ult]; exact nonzero⟩
    · rintro ⟨x, less⟩ rfl
      rw [BitVec.ult_iff_toNat_lt] at less
      exact absurd less (Nat.not_lt_zero _)
  case ugt.false =>
    obtain ⟨x, value⟩ := shlImage_zero s
    exact ⟨x, by rw [value, zero_ule]⟩
  case slt.true =>
    have sum := toNat_add_cases t (BitVec.twoPow w (w - 1))
    have bound := t.isLt
    rw [exists_shl_slt positive, minSigned_shl, BitVec.ult_iff_toNat_lt, slt_iff positive]
    split <;> omega
  case sgt.false =>
    have shifted := toNat_ushiftRight_cases positive t s
    rw [exists_shl_sle positive, BitVec.ult_iff_toNat_lt, sle_iff positive, ne_eq,
      BitVec.toNat_eq]
    omega

end Ava6.Quantifiers.BvInverter

import Ava6.Quantifiers.Solvability

/-! Multiplication: the products with `s` are the multiples of its lowest set bit. -/

namespace Ava6.Quantifiers.BvInverter

open Ava6.Bv Ava6.Library.BitVecOrder

variable {w : Nat}

theorem mult_image {s : BitVec w} {k : Nat} (lowest : LowestBit s k) (idx : Nat) (r : BitVec w)
    : (∃ x, OpKind.mult.result idx s x = r) ↔ 2 ^ k ∣ r.toNat := by
  rw [← lowest.exists_mul_eq_iff]
  unfold OpKind.result OpKind.apply
  split
  · rfl
  · simp only [BitVec.mul_comm]

/-- No bit is set exactly in the zero vector. -/
theorem lowestBit_eq_width {s : BitVec w} {k : Nat} (lowest : LowestBit s k)
    : k = w ↔ s = 0#w := by
  obtain ⟨o, value, odd⟩ := lowest.value
  have bound := lowest.bound
  constructor
  · intro whole
    apply BitVec.eq_of_toNat_eq
    rw [value, whole]
    exact Nat.eq_zero_of_dvd_of_lt (Dvd.intro o rfl) (by rw [← whole, ← value, whole]; exact s.isLt)
  · intro zero
    by_contra inside
    have vanish : 2 ^ k * o = 0 := by rw [← value, zero]; rfl
    have parity := odd (by omega)
    rcases Nat.mul_eq_zero.mp vanish with power | factor
    · exact (Nat.two_pow_pos k).ne' power
    · omega

/-- Rounding down to a multiple of `2 ^ k`: the remainder is below the step and signs are
kept, because half the range is a multiple of the step. -/
theorem rounded_bounds {k : Nat} (inside : k < w) (t : BitVec w)
    : (t &&& BitVec.allOnes w <<< k).toNat ≤ t.toNat
      ∧ t.toNat < (t &&& BitVec.allOnes w <<< k).toNat + 2 ^ k
      ∧ (t &&& BitVec.allOnes w <<< k).toNat + 2 ^ k ≤ 2 ^ w
      ∧ (t.toNat < 2 ^ (w - 1)
          → (t &&& BitVec.allOnes w <<< k).toNat + 2 ^ k ≤ 2 ^ (w - 1))
      ∧ (2 ^ (w - 1) ≤ t.toNat → 2 ^ (w - 1) ≤ (t &&& BitVec.allOnes w <<< k).toNat) := by
  rw [toNat_and_allOnes_shiftLeft]
  have step : 2 ^ k ∣ t.toNat / 2 ^ k * 2 ^ k := dvd_mul_left _ _
  have whole : 2 ^ k ∣ 2 ^ w := pow_dvd_pow 2 inside.le
  have half : 2 ^ k ∣ 2 ^ (w - 1) := pow_dvd_pow 2 (by omega)
  have below : t.toNat / 2 ^ k * 2 ^ k ≤ t.toNat := Nat.div_mul_le_self _ _
  have above : t.toNat < t.toNat / 2 ^ k * 2 ^ k + 2 ^ k :=
    Nat.lt_div_mul_add (Nat.two_pow_pos k)
  refine ⟨below, above, ?_, ?_, ?_⟩
  · have bound := t.isLt
    exact add_le_of_dvd_of_lt step whole (by omega)
  · intro bound
    exact add_le_of_dvd_of_lt step half (by omega)
  · intro bound
    by_contra! less
    have next := add_le_of_dvd_of_lt step half less
    omega

/-- Setting all bits from `k` upwards adds the mask to the low bits. -/
theorem toNat_or_allOnes_shiftLeft {k : Nat} (inside : k ≤ w) (t : BitVec w)
    : (t ||| BitVec.allOnes w <<< k).toNat
      = 2 ^ w - 2 ^ k + (t.toNat - (t &&& BitVec.allOnes w <<< k).toNat) := by
  have total := toNat_and_add_or t (BitVec.allOnes w <<< k)
  have top := toNat_allOnes_shiftLeft inside
  have bounds := toNat_and_bounds t (BitVec.allOnes w <<< k)
  omega

/-- Rounding `t - 1` down gives a signed smaller multiple unless `t` is the least value. -/
theorem mult_slt {k : Nat} (positive : 0 < w) (bound : k ≤ w) (t : BitVec w)
    : (~~~(-t) &&& BitVec.allOnes w <<< k).slt t
      = (if k = w then 0#w else BitVec.twoPow w (w - 1)).slt t := by
  have double := two_pow_eq_double_half positive
  have low := toNat_minSigned positive
  rw [Bool.eq_iff_iff, slt_iff positive, slt_iff positive]
  split
  · next whole => simp [whole]
  · next partly =>
    have inside : k < w := by omega
    have rounded := rounded_bounds inside (~~~(-t))
    have pred := toNat_neg_cases t
    rw [BitVec.toNat_not] at rounded
    have bound := t.isLt
    omega

/-- The next multiple above `t` is signed greater unless it leaves the positive range. -/
theorem mult_sgt {k : Nat} (positive : 0 < w) (bound : k ≤ w) (t : BitVec w)
    : t.slt (t - (t ||| BitVec.allOnes w <<< k))
      = t.slt (~~~BitVec.twoPow w (w - 1) &&& BitVec.allOnes w <<< k) := by
  have double := two_pow_eq_double_half positive
  have high := toNat_maxSigned positive
  have step : 0 < 2 ^ k := Nat.two_pow_pos k
  rw [Bool.eq_iff_iff, slt_iff positive, slt_iff positive]
  rcases Nat.eq_or_lt_of_le bound with whole | inside
  · simp [whole]
  · have grow : 2 ^ k ≤ 2 ^ (w - 1) := Nat.pow_le_pow_right Nat.zero_lt_two (by omega)
    have rounded := rounded_bounds inside t
    have greatest := rounded_bounds inside (~~~BitVec.twoPow w (w - 1))
    have next : (t &&& BitVec.allOnes w <<< k).toNat + 2 ^ k < 2 ^ (w - 1)
        → (t &&& BitVec.allOnes w <<< k).toNat + 2 ^ k + 2 ^ k ≤ 2 ^ (w - 1) := by
      rw [toNat_and_allOnes_shiftLeft]
      exact add_le_of_dvd_of_lt (Nat.dvd_add (dvd_mul_left _ _) dvd_rfl)
        (pow_dvd_pow 2 (by omega))
    have filled := toNat_or_allOnes_shiftLeft bound t
    have difference := toNat_sub_cases t (t ||| BitVec.allOnes w <<< k)
    have bound := t.isLt
    omega

/-- The condition of the inverter for products is exact. -/
theorem eval_sclBvMult (v : Valuation) (pol : Bool) (litk : LitKind) (idx : Nat)
    (s t : Term w)
    : (sclBvMult pol litk s t).eval v = true
      ↔ Solvable pol litk .mult idx (s.eval v) (t.eval v) := by
  have positive := s.positive
  obtain ⟨k, lowest⟩ := exists_lowestBit (s.eval v)
  rw [solvable_iff (mult_image lowest idx) (Extremes.multiples positive lowest.bound)]
  have mask := lowest.neg_or_self
  have zero := lowestBit_eq_width lowest
  have bound := lowest.bound
  cases litk <;> cases pol <;> simp [sclBvMult, condition, mask]
  case equal.true =>
    rw [BitVec.and_comm]
    exact and_allOnes_shiftLeft_eq_iff _ _
  case equal.false =>
    have parts := exists_multiple_ne bound (t.eval v)
    simpa [zero] using parts.symm
  case slt.true => exact mult_slt positive bound _
  case slt.false => rw [BitVec.and_comm]
  case sgt.true =>
    rw [BitVec.or_comm (s.eval v) (t.eval v), BitVec.or_assoc, BitVec.or_comm (s.eval v), mask,
      mult_sgt positive bound]
  case sgt.false =>
    rw [slt_eq_false, ← zero]
    split
    · next whole => simp [zero.mp whole, whole]
    · next partly => simp [partly, minSigned_sle positive]

end Ava6.Quantifiers.BvInverter

import Ava6.Library.BitVecOrder

/-! Concatenations of bit-vectors in the two orders: the high parts are compared in the order, and the low parts as
unsigned values.
-/

namespace Ava6.Library.BitVecOrder

variable {m n w : Nat}

theorem toNat_append_eq (a : BitVec m) (b : BitVec n) : (a ++ b).toNat = a.toNat * 2 ^ n + b.toNat := by
  rw [BitVec.toNat_append, ← Nat.shiftLeft_add_eq_or_of_lt b.isLt, Nat.shiftLeft_eq]

theorem append_eq_iff (a c : BitVec m) (b d : BitVec n) : a ++ b = c ++ d ↔ a = c ∧ b = d := by
  have blt := b.isLt
  have dlt := d.isLt
  rw [BitVec.toNat_eq, BitVec.toNat_eq, BitVec.toNat_eq, toNat_append_eq, toNat_append_eq]
  constructor
  · intro same
    have high : a.toNat = c.toNat := by
      have quotients := congrArg (· / 2 ^ n) same
      simpa [Nat.mul_comm _ (2 ^ n), Nat.mul_add_div (Nat.two_pow_pos n), Nat.div_eq_of_lt blt, Nat.div_eq_of_lt dlt]
        using quotients
    rw [high] at same
    exact ⟨high, Nat.add_left_cancel same⟩
  · rintro ⟨high, low⟩
    rw [high, low]

/-- Of two numbers with two digits, the greater one has the greater first digit, or the same and a greater second one. -/
theorem digits_lt_iff {a c : Int} {b d base : Nat} (bLt : b < base) (dLt : d < base)
    : base * a + b < base * c + d ↔ a < c ∨ a = c ∧ b < d := by
  rcases lt_trichotomy a c with less | same | greater
  · have step : (base : Int) * (a + 1) ≤ base * c := Int.mul_le_mul_of_nonneg_left less (Int.natCast_nonneg base)
    rw [mul_add, mul_one] at step
    refine ⟨fun _ => Or.inl less, fun _ => by omega⟩
  · subst same
    simp
  · have step : (base : Int) * (c + 1) ≤ base * a := Int.mul_le_mul_of_nonneg_left greater (Int.natCast_nonneg base)
    rw [mul_add, mul_one] at step
    refine ⟨fun less => by omega, fun less => by omega⟩

theorem append_ult_iff (a c : BitVec m) (b d : BitVec n)
    : (a ++ b).ult (c ++ d) = true ↔ a.ult c = true ∨ a = c ∧ b.ult d = true := by
  have digits := @digits_lt_iff a.toNat c.toNat b.toNat d.toNat (2 ^ n) b.isLt d.isLt
  rw [BitVec.ult_iff_toNat_lt, BitVec.ult_iff_toNat_lt, BitVec.ult_iff_toNat_lt, BitVec.toNat_eq, toNat_append_eq,
    toNat_append_eq, Nat.mul_comm a.toNat, Nat.mul_comm c.toNat]
  exact_mod_cast digits

theorem append_slt_iff (positive : 0 < m) (a c : BitVec m) (b d : BitVec n)
    : (a ++ b).slt (c ++ d) = true ↔ a.slt c = true ∨ a = c ∧ b.ult d = true := by
  have digits := @digits_lt_iff a.toInt c.toInt b.toNat d.toNat (2 ^ n) b.isLt d.isLt
  rw [BitVec.slt_iff_toInt_lt, BitVec.slt_iff_toInt_lt, BitVec.ult_iff_toNat_lt, BitVec.toInt_append,
    BitVec.toInt_append, if_neg (by simpa using positive.ne'), if_neg (by simpa using positive.ne'), ← BitVec.toInt_inj]
  exact_mod_cast digits

theorem ule_iff_ult_or_eq (a b : BitVec w) : a.ule b = true ↔ a.ult b = true ∨ a = b := by
  rw [BitVec.ule_iff_toNat_le, BitVec.ult_iff_toNat_lt, BitVec.toNat_eq]
  exact le_iff_lt_or_eq

theorem sle_iff_slt_or_eq (a b : BitVec w) : a.sle b = true ↔ a.slt b = true ∨ a = b := by
  rw [BitVec.sle_iff_toInt_le, BitVec.slt_iff_toInt_lt, ← BitVec.toInt_inj]
  exact le_iff_lt_or_eq

/-- A vector is at most another one, and a property holds if they are equal. -/
theorem ule_and_imp_iff (a c : BitVec w) (p : Prop) : a.ule c = true ∧ (a = c → p) ↔ a.ult c = true ∨ a = c ∧ p := by
  by_cases same : a = c
  · subst same
    simp [BitVec.ule_iff_toNat_le, BitVec.ult_iff_toNat_lt]
  · simp [same, ule_iff_ult_or_eq]

theorem ule_and_imp_symm_iff (a c : BitVec w) (p : Prop)
    : a.ule c = true ∧ (c = a → p) ↔ a.ult c = true ∨ a = c ∧ p := by
  rw [@eq_comm _ c, ule_and_imp_iff]

theorem sle_and_imp_iff (a c : BitVec w) (p : Prop) : a.sle c = true ∧ (a = c → p) ↔ a.slt c = true ∨ a = c ∧ p := by
  by_cases same : a = c
  · subst same
    simp [BitVec.sle_iff_toInt_le, BitVec.slt_iff_toInt_lt]
  · simp [same, sle_iff_slt_or_eq]

theorem sle_and_imp_symm_iff (a c : BitVec w) (p : Prop)
    : a.sle c = true ∧ (c = a → p) ↔ a.slt c = true ∨ a = c ∧ p := by
  rw [@eq_comm _ c, sle_and_imp_iff]

theorem append_ule_iff (a c : BitVec m) (b d : BitVec n)
    : (a ++ b).ule (c ++ d) = true ↔ a.ult c = true ∨ a = c ∧ b.ule d = true := by
  rw [ule_iff_ult_or_eq, append_ult_iff, append_eq_iff, ule_iff_ult_or_eq]
  tauto

theorem append_sle_iff (positive : 0 < m) (a c : BitVec m) (b d : BitVec n)
    : (a ++ b).sle (c ++ d) = true ↔ a.slt c = true ∨ a = c ∧ b.ule d = true := by
  rw [sle_iff_slt_or_eq, append_slt_iff positive, append_eq_iff, ule_iff_ult_or_eq]
  tauto

theorem exists_ult_iff (t : BitVec w) : (∃ x : BitVec w, x.ult t = true) ↔ t ≠ 0#w := by
  refine ⟨?_, fun nonzero => ⟨0#w, (zero_ult t).mpr nonzero⟩⟩
  rintro ⟨x, less⟩ rfl
  rw [BitVec.ult_iff_toNat_lt] at less
  exact absurd less (by simp)

theorem ult_allOnes_iff (t : BitVec w) : t.ult (BitVec.allOnes w) = true ↔ t ≠ BitVec.allOnes w := by
  constructor
  · rintro less rfl
    simp [BitVec.ult_iff_toNat_lt] at less
  · exact fun differs => ((ule_iff_ult_or_eq _ _).mp (ule_allOnes t)).resolve_right differs

theorem exists_ugt_iff (t : BitVec w) : (∃ x : BitVec w, t.ult x = true) ↔ t ≠ BitVec.allOnes w := by
  refine ⟨?_, fun differs => ⟨BitVec.allOnes w, (ult_allOnes_iff t).mpr differs⟩⟩
  rintro ⟨x, less⟩ rfl
  have bound := x.isLt
  rw [BitVec.ult_iff_toNat_lt, BitVec.toNat_allOnes] at less
  omega

theorem exists_slt_iff (positive : 0 < w) (t : BitVec w)
    : (∃ x : BitVec w, x.slt t = true) ↔ t ≠ BitVec.twoPow w (w - 1) := by
  constructor
  · rintro ⟨x, less⟩ rfl
    have atLeast := minSigned_sle positive x
    rw [← slt_eq_false, less] at atLeast
    cases atLeast
  · intro differs
    exact ⟨_, ((sle_iff_slt_or_eq _ t).mp (minSigned_sle positive t)).resolve_right differs.symm⟩

theorem exists_sgt_iff (positive : 0 < w) (t : BitVec w)
    : (∃ x : BitVec w, t.slt x = true) ↔ t ≠ ~~~BitVec.twoPow w (w - 1) := by
  constructor
  · rintro ⟨x, less⟩ rfl
    have atMost := sle_maxSigned positive x
    rw [← slt_eq_false, less] at atMost
    cases atMost
  · intro differs
    exact ⟨_, ((sle_iff_slt_or_eq t _).mp (sle_maxSigned positive t)).resolve_right differs⟩

end Ava6.Library.BitVecOrder

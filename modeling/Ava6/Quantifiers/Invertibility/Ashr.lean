import Ava6.Quantifiers.Invertibility.Shift

/-! Arithmetic right shift. Shifted by `s`, the values are the signed interval around zero
that the shifted greatest signed value bounds; the shifts of `s` lie between it and its sign.
-/

namespace Ava6.Quantifiers.BvInverter

open Ava6.Bv Ava6.Library.BitVecOrder

variable {w : Nat}

theorem ashr_eq_lshr {x : BitVec w} (nonneg : x.toNat < 2 ^ (w - 1)) (s : BitVec w)
    : BitVec.sshiftRight' x s = x >>> s := by
  have clear : x.msb = false := by simpa [BitVec.msb_eq_decide] using nonneg
  rw [BitVec.sshiftRight_eq', BitVec.sshiftRight_eq_of_msb_false clear, BitVec.ushiftRight_eq']

theorem ashr_eq_not_lshr_not {x : BitVec w} (negative : 2 ^ (w - 1) ≤ x.toNat) (s : BitVec w)
    : BitVec.sshiftRight' x s = ~~~(~~~x >>> s) := by
  have set : x.msb = true := by simpa [BitVec.msb_eq_decide] using negative
  rw [BitVec.sshiftRight_eq', BitVec.sshiftRight_eq_of_msb_true set, BitVec.ushiftRight_eq']

theorem lshr_mono {x y : BitVec w} (le : x.toNat ≤ y.toNat) (s : BitVec w)
    : (x >>> s).toNat ≤ (y >>> s).toNat := by
  rw [BitVec.ushiftRight_eq', BitVec.ushiftRight_eq', BitVec.toNat_ushiftRight,
    BitVec.toNat_ushiftRight, Nat.shiftRight_eq_div_pow, Nat.shiftRight_eq_div_pow]
  exact Nat.div_le_div_right le

/-- The signed interval from the complement of `b` to `b`. -/
def Around (b r : BitVec w) : Prop := r.toNat ≤ b.toNat ∨ (~~~b).toNat ≤ r.toNat

/-- Every value up to the shifted greatest signed value is the shift of a nonnegative one. -/
theorem exists_lshr_eq (positive : 0 < w) {s r : BitVec w}
    (le : r.toNat ≤ (~~~BitVec.twoPow w (w - 1) >>> s).toNat)
    : ∃ x : BitVec w, x.toNat < 2 ^ (w - 1) ∧ x >>> s = r := by
  have corners := toNat_corners positive
  have power : 0 < 2 ^ s.toNat := Nat.two_pow_pos _
  rw [BitVec.ushiftRight_eq', BitVec.toNat_ushiftRight, Nat.shiftRight_eq_div_pow,
    Nat.le_div_iff_mul_le power] at le
  have value : (r <<< s).toNat = r.toNat * 2 ^ s.toNat := by
    rw [BitVec.shiftLeft_eq', BitVec.toNat_shiftLeft, Nat.shiftLeft_eq, Nat.mod_eq_of_lt (by omega)]
  refine ⟨r <<< s, by omega, ?_⟩
  rw [BitVec.toNat_eq, BitVec.ushiftRight_eq', BitVec.toNat_ushiftRight,
    Nat.shiftRight_eq_div_pow, value, Nat.mul_div_cancel _ power]

theorem ashr_image_left (positive : 0 < w) (s r : BitVec w)
    : (∃ x, OpKind.ashr.result 0 s x = r)
      ↔ Around (~~~BitVec.twoPow w (w - 1) >>> s) r := by
  have corners := toNat_corners positive
  simp only [OpKind.result, OpKind.apply, if_true]
  constructor
  · rintro ⟨x, rfl⟩
    rcases Nat.lt_or_ge x.toNat (2 ^ (w - 1)) with nonneg | negative
    · rw [ashr_eq_lshr nonneg]
      exact Or.inl (lshr_mono (by omega) s)
    · rw [ashr_eq_not_lshr_not negative]
      have mono := lshr_mono (x := ~~~x) (y := ~~~BitVec.twoPow w (w - 1))
        (by rw [BitVec.toNat_not]; omega) s
      right
      rw [BitVec.toNat_not, BitVec.toNat_not]
      omega
  · rintro (le | ge)
    · obtain ⟨x, nonneg, rfl⟩ := exists_lshr_eq positive le
      exact ⟨x, ashr_eq_lshr nonneg s⟩
    · have bound := r.isLt
      rw [BitVec.toNat_not] at ge
      obtain ⟨x, nonneg, shifted⟩ := exists_lshr_eq (r := ~~~r) (s := s) positive
        (by rw [BitVec.toNat_not]; omega)
      refine ⟨~~~x, ?_⟩
      rw [ashr_eq_not_lshr_not (by rw [BitVec.toNat_not]; omega), BitVec.not_not, shifted,
        BitVec.not_not]

def aroundExtremes (positive : 0 < w) {b : BitVec w} (small : b.toNat < 2 ^ (w - 1))
    : Extremes (Around b) :=
  have corners := toNat_corners positive
  have complement : (~~~b).toNat = 2 ^ w - 1 - b.toNat := BitVec.toNat_not
  { ulo := 0#w
    uhi := BitVec.allOnes w
    slo := ~~~b
    shi := b
    ulo_mem := Or.inl (by omega)
    uhi_mem := Or.inr (by omega)
    slo_mem := Or.inr (Nat.le_refl _)
    shi_mem := Or.inl (Nat.le_refl _)
    ulo_le := fun r _ => by omega
    le_uhi := fun r _ => by have bound := r.isLt; omega
    slo_le := fun r member => by
      have inside : r.toNat ≤ b.toNat ∨ (~~~b).toNat ≤ r.toNat := member
      rw [toInt_le_iff positive]
      omega
    le_shi := fun r member => by
      have inside : r.toNat ≤ b.toNat ∨ (~~~b).toNat ≤ r.toNat := member
      rw [toInt_le_iff positive]
      omega }

/-- Shifting an arithmetic shift left and back restores it for amounts below the width. -/
theorem ashr_shl_ashr {s : BitVec w} (less : s.toNat < w) (x : BitVec w)
    : BitVec.sshiftRight' (BitVec.sshiftRight' x s <<< s) s = BitVec.sshiftRight' x s := by
  -- from position `s` on the inner shifts cancel
  have kept (j : Nat) (atLeast : s.toNat ≤ j) (inside : j < w)
      : (BitVec.sshiftRight' x s <<< s).getLsbD j = x.getLsbD j := by
    have back : s.toNat + (j - s.toNat) = j := by omega
    have small : ¬ w ≤ j - s.toNat := by omega
    rw [BitVec.shiftLeft_eq', BitVec.getLsbD_shiftLeft, BitVec.sshiftRight_eq',
      BitVec.getLsbD_sshiftRight, back]
    simp [inside, Nat.not_lt.mpr atLeast, small]
  apply BitVec.eq_of_getLsbD_eq
  intro i inside
  rw [BitVec.sshiftRight_eq', BitVec.getLsbD_sshiftRight]
  conv => rhs; rw [BitVec.sshiftRight_eq', BitVec.getLsbD_sshiftRight]
  rw [BitVec.msb_eq_getLsbD_last, BitVec.msb_eq_getLsbD_last, kept (w - 1) (by omega) (by omega)]
  split
  · next within => rw [kept _ (by omega) within]
  · rfl

/-- The condition of the inverter for arithmetic shifts is exact when the variable is
shifted. -/
theorem eval_sclBvAshr_left (v : Valuation) (pol : Bool) (litk : LitKind) (s t : Term w)
    : (sclBvAshr pol litk 0 s t).eval v = true
      ↔ Solvable pol litk .ashr 0 (s.eval v) (t.eval v) := by
  have positive := s.positive
  have corners := toNat_corners positive
  have image := ashr_image_left positive (s.eval v)
  have shifted := toNat_ushiftRight_cases positive (~~~BitVec.twoPow w (w - 1)) (s.eval v)
  have small : (~~~BitVec.twoPow w (w - 1) >>> s.eval v).toNat < 2 ^ (w - 1) := by omega
  rw [solvable_iff image (aroundExtremes positive small)]
  cases litk <;> cases pol <;>
    simp [sclBvAshr, condition, aroundExtremes, -BitVec.ushiftRight_eq', -BitVec.shiftLeft_eq',
      -BitVec.sshiftRight_eq', -Bool.coe_iff_coe]
  all_goals
    generalize s.eval v = s at *
    generalize t.eval v = t
  case equal.true =>
    have amount := toNat_amount (Nat.le_refl w)
    rw [ult_eq_false, BitVec.ule_iff_toNat_le, BitVec.ult_iff_toNat_lt, amount]
    rcases Nat.lt_or_ge s.toNat w with less | atLeast
    · simp only [Nat.not_le.mpr less, less, false_or, true_or, and_true]
      rw [← image]
      constructor
      · intro restored
        exact ⟨t <<< s, restored⟩
      · rintro ⟨x, rfl⟩
        exact ashr_shl_ashr less x
    · have zero : ~~~BitVec.twoPow w (w - 1) >>> s = 0#w := by
        rw [BitVec.ushiftRight_eq', BitVec.ushiftRight_eq_zero atLeast]
      have bound := t.isLt
      simp only [atLeast, Nat.not_lt.mpr atLeast, true_or, true_and, false_or]
      rw [zero, Around, BitVec.toNat_eq, BitVec.toNat_eq, BitVec.toNat_not]
      omega
  case equal.false =>
    by_cases same : t = 0#w
    · refine ⟨BitVec.allOnes w, Or.inr ?_, ?_⟩
      · rw [BitVec.toNat_not]
        omega
      · rw [same, BitVec.toNat_eq]
        omega
    · exact ⟨0#w, Or.inl (by omega), fun zero => same zero.symm⟩
  case slt.true => rw [ashr_eq_not_lshr_not (by omega)]

def ashrImage (s r : BitVec w) : Prop := ∃ x : BitVec w, BitVec.sshiftRight' s x = r

theorem ashr_image_right {idx : Nat} (right : idx ≠ 0) (s r : BitVec w)
    : (∃ x, OpKind.ashr.result idx s x = r) ↔ ashrImage s r := by
  simp only [OpKind.result, OpKind.apply, if_neg right, ashrImage]

theorem ashrImage_self (s : BitVec w) : ashrImage s s := ⟨0#w, by simp⟩

/-- A shift by the width leaves only copies of the sign. -/
theorem ashrImage_sign (s : BitVec w)
    : ashrImage s (if 2 ^ (w - 1) ≤ s.toNat then BitVec.allOnes w else 0#w) := by
  refine ⟨BitVec.ofNat w w, ?_⟩
  have gone (x : BitVec w) : x >>> BitVec.ofNat w w = 0#w := by
    rw [BitVec.ushiftRight_eq', toNat_amount (Nat.le_refl w),
      BitVec.ushiftRight_eq_zero (Nat.le_refl w)]
  split
  · next negative => rw [ashr_eq_not_lshr_not negative, gone, BitVec.not_zero]
  · next nonneg => rw [ashr_eq_lshr (by omega), gone]

/-- Shifting keeps the sign and moves a value towards it. -/
theorem ashrImage_bounds (positive : 0 < w) {s r : BitVec w} (member : ashrImage s r)
    : (s.toNat < 2 ^ (w - 1) ∧ r.toNat ≤ s.toNat)
      ∨ (2 ^ (w - 1) ≤ s.toNat ∧ s.toNat ≤ r.toNat) := by
  obtain ⟨x, rfl⟩ := member
  rcases Nat.lt_or_ge s.toNat (2 ^ (w - 1)) with nonneg | negative
  · rw [ashr_eq_lshr nonneg]
    have shifted := toNat_ushiftRight_cases positive s x
    omega
  · rw [ashr_eq_not_lshr_not negative, BitVec.toNat_not]
    have shifted := toNat_ushiftRight_cases positive (~~~s) x
    have bound := s.isLt
    rw [BitVec.toNat_not] at shifted
    omega

def ashrExtremes (positive : 0 < w) (s : BitVec w) : Extremes (ashrImage s) :=
  have corners := toNat_corners positive
  have bounds := fun r member => ashrImage_bounds positive (s := s) (r := r) member
  have sign := ashrImage_sign s
  have lo : ashrImage s (if 2 ^ (w - 1) ≤ s.toNat then s else 0#w) := by
    split
    · exact ashrImage_self s
    · next nonneg => rwa [if_neg nonneg] at sign
  have hi : ashrImage s (if 2 ^ (w - 1) ≤ s.toNat then BitVec.allOnes w else s) := by
    split
    · next negative => rwa [if_pos negative] at sign
    · exact ashrImage_self s
  { ulo := if 2 ^ (w - 1) ≤ s.toNat then s else 0#w
    uhi := if 2 ^ (w - 1) ≤ s.toNat then BitVec.allOnes w else s
    slo := if 2 ^ (w - 1) ≤ s.toNat then s else 0#w
    shi := if 2 ^ (w - 1) ≤ s.toNat then BitVec.allOnes w else s
    ulo_mem := lo
    uhi_mem := hi
    slo_mem := lo
    shi_mem := hi
    ulo_le := fun r member => by
      have range := bounds r member
      split <;> omega
    le_uhi := fun r member => by
      have range := bounds r member
      have bound := r.isLt
      split <;> omega
    slo_le := fun r member => by
      have range := bounds r member
      rw [toInt_le_iff positive]
      split <;> omega
    le_shi := fun r member => by
      have range := bounds r member
      have bound := r.isLt
      rw [toInt_le_iff positive]
      split <;> omega }

/-- Some shift of `s` differs from `t` unless `s` is its own sign and is `t`. -/
theorem exists_ashr_ne (positive : 0 < w) (s t : BitVec w)
    : (∃ r, ashrImage s r ∧ r ≠ t)
      ↔ (t ≠ 0#w ∨ s ≠ 0#w) ∧ (t ≠ BitVec.allOnes w ∨ s ≠ BitVec.allOnes w) := by
  have corners := toNat_corners positive
  constructor
  · rintro ⟨r, member, differ⟩
    have bounds := ashrImage_bounds positive member
    have range := r.isLt
    simp only [ne_eq, BitVec.toNat_eq] at differ ⊢
    omega
  · rintro ⟨zero, ones⟩
    by_cases same : s = t
    · subst same
      refine ⟨_, ashrImage_sign s, ?_⟩
      split
      · exact fun equal => by simp [equal] at ones
      · exact fun equal => by simp [← equal] at zero
    · exact ⟨s, ashrImage_self s, same⟩

/-- The mask of the greatest signed value takes the sign bit away; joined, it fills the
rest. -/
theorem toNat_maxSigned_cases (positive : 0 < w) (s : BitVec w)
    : (s.toNat < 2 ^ (w - 1)
        ∧ (s &&& ~~~BitVec.twoPow w (w - 1)).toNat = s.toNat
        ∧ (s ||| ~~~BitVec.twoPow w (w - 1)).toNat = 2 ^ (w - 1) - 1)
      ∨ (2 ^ (w - 1) ≤ s.toNat
        ∧ (s &&& ~~~BitVec.twoPow w (w - 1)).toNat = s.toNat - 2 ^ (w - 1)
        ∧ (s ||| ~~~BitVec.twoPow w (w - 1)).toNat = 2 ^ w - 1) := by
  have corners := toNat_corners positive
  have total := toNat_and_add_or s (~~~BitVec.twoPow w (w - 1))
  have masked : (s &&& ~~~BitVec.twoPow w (w - 1)).toNat = s.toNat % 2 ^ (w - 1) := by
    rw [BitVec.toNat_and, toNat_maxSigned positive, Nat.and_two_pow_sub_one_eq_mod]
  have bound := s.isLt
  rcases Nat.lt_or_ge s.toNat (2 ^ (w - 1)) with less | atLeast
  · rw [Nat.mod_eq_of_lt less] at masked
    omega
  · rw [Nat.mod_eq_sub_mod atLeast, Nat.mod_eq_of_lt (by omega)] at masked
    omega

/-- The condition of the inverter for arithmetic shifts is exact when the variable is the
amount. -/
theorem eval_sclBvAshr_right (v : Valuation) (pol : Bool) (litk : LitKind) {idx : Nat}
    (right : idx ≠ 0) (s t : Term w)
    : (sclBvAshr pol litk idx s t).eval v = true
      ↔ Solvable pol litk .ashr idx (s.eval v) (t.eval v) := by
  have positive := s.positive
  have corners := toNat_corners positive
  rw [solvable_iff (ashr_image_right right (s.eval v)) (ashrExtremes positive (s.eval v))]
  have sbound := (s.eval v).isLt
  have tbound := (t.eval v).isLt
  cases litk <;> cases pol <;>
    simp [sclBvAshr, condition, right, ashrExtremes, -BitVec.ushiftRight_eq', -Bool.coe_iff_coe]
  case equal.true =>
    refine (eval_defaultShiftIC v (k := .ashr) rfl .equal s t).trans ?_
    simp [OpKind.apply, ashrImage]
  case equal.false => exact (exists_ashr_ne positive _ _).symm
  case ult.true =>
    rw [← Bool.not_eq_true, BitVec.ule_iff_toNat_le, BitVec.ult_iff_toNat_lt, slt_eq_false,
      sle_iff positive, BitVec.toNat_eq]
    split <;> omega
  case ult.false =>
    rw [ult_eq_false, ult_eq_false, BitVec.ule_iff_toNat_le, BitVec.ule_iff_toNat_le,
      BitVec.ule_iff_toNat_le, BitVec.toNat_not]
    split <;> omega
  case ugt.true =>
    have shifted := toNat_ushiftRight_cases positive (s.eval v) (~~~t.eval v)
    rw [BitVec.toNat_not] at shifted
    rw [slt_iff positive, BitVec.ult_iff_toNat_lt, BitVec.ult_iff_toNat_lt]
    split <;> omega
  case ugt.false =>
    rw [BitVec.ult_iff_toNat_lt, BitVec.ule_iff_toNat_le, BitVec.ule_iff_toNat_le]
    split <;> omega
  case slt.true =>
    simp only [slt_iff positive]
    split <;> omega
  case slt.false =>
    rw [ult_eq_false, slt_eq_false, BitVec.ule_iff_toNat_le, sle_iff positive,
      sle_iff positive, BitVec.toNat_not]
    split <;> omega
  case sgt.true =>
    have masked := toNat_maxSigned_cases positive (s.eval v)
    simp only [slt_iff positive]
    split <;> omega
  case sgt.false =>
    simp only [sle_iff positive]
    split <;> omega

end Ava6.Quantifiers.BvInverter

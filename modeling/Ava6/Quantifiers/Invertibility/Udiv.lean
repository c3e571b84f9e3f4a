import Ava6.Quantifiers.Solvability

/-! Division. The quotients by `s` are the values up to the greatest quotient, or only the
all-ones vector for `s = 0`; the quotients of `s` include the all-ones vector.
-/

namespace Ava6.Quantifiers.BvInverter

open Ava6.Bv Ava6.Library.BitVecOrder

variable {w : Nat}

@[simp]
theorem smtUDiv_zero (x : BitVec w) : BitVec.smtUDiv x 0#w = BitVec.allOnes w := by
  simp [BitVec.smtUDiv_eq]

theorem toNat_smtUDiv (x : BitVec w) {y : BitVec w} (nonzero : 0 < y.toNat)
    : (BitVec.smtUDiv x y).toNat = x.toNat / y.toNat := by
  have differ : y ≠ 0#w := by
    rintro rfl
    simp at nonzero
  rw [BitVec.smtUDiv_eq, if_neg differ, BitVec.toNat_udiv]

theorem udiv_image_zero (r : BitVec w)
    : (∃ x, OpKind.udiv.result 0 0#w x = r) ↔ r = BitVec.allOnes w := by
  simp only [OpKind.result, OpKind.apply, if_true, smtUDiv_zero, exists_const]
  exact eq_comm

/-- A product that stays in range divides back. -/
theorem mul_udiv_cancel_iff {s : BitVec w} (nonzero : 0 < s.toNat) (t : BitVec w)
    : BitVec.smtUDiv (s * t) s = t ↔ t.toNat ≤ (2 ^ w - 1) / s.toNat := by
  rw [BitVec.toNat_eq, toNat_smtUDiv _ nonzero, BitVec.toNat_mul]
  exact mul_mod_div_eq_iff (Nat.two_pow_pos w) nonzero t.toNat

theorem udiv_image_left {s : BitVec w} (nonzero : 0 < s.toNat) (r : BitVec w)
    : (∃ x, OpKind.udiv.result 0 s x = r)
      ↔ r.toNat ≤ (BitVec.smtUDiv (BitVec.allOnes w) s).toNat := by
  simp only [OpKind.result, OpKind.apply, if_true]
  rw [toNat_smtUDiv _ nonzero, BitVec.toNat_allOnes]
  constructor
  · rintro ⟨x, rfl⟩
    have bound := x.isLt
    rw [toNat_smtUDiv _ nonzero]
    exact Nat.div_le_div_right (by omega)
  · intro le
    exact ⟨s * r, (mul_udiv_cancel_iff nonzero r).mpr le⟩

/-- Dividing a wrapped product by its other factor gives back `s` or less. -/
theorem mul_udiv_and_iff {s : BitVec w} (nonzero : 0 < s.toNat) (t : BitVec w)
    : BitVec.smtUDiv (s * t) t &&& s = s ↔ t.toNat ≤ (2 ^ w - 1) / s.toNat := by
  have range : 0 < 2 ^ w := Nat.two_pow_pos w
  rw [Nat.le_div_iff_mul_le nonzero, Nat.mul_comm]
  rcases Nat.eq_zero_or_pos t.toNat with zero | positive
  · have vector : t = 0#w := BitVec.eq_of_toNat_eq (by simp [zero])
    simp [vector]
  · have quotient := toNat_smtUDiv (s * t) positive
    rw [BitVec.toNat_mul] at quotient
    constructor
    · intro covered
      by_contra! overflow
      have reduced : s.toNat * t.toNat % 2 ^ w < s.toNat * t.toNat :=
        Nat.lt_of_lt_of_le (Nat.mod_lt _ range) (by omega)
      have less := (Nat.div_lt_iff_lt_mul positive).mpr reduced
      have le := (toNat_and_bounds (BitVec.smtUDiv (s * t) t) s).1
      rw [covered] at le
      omega
    · intro fits
      rw [Nat.mod_eq_of_lt (by omega), Nat.mul_div_cancel _ positive] at quotient
      rw [BitVec.eq_of_toNat_eq quotient, BitVec.and_self]

/-- The greatest quotient is the whole range for `s = 1` and leaves the sign bit clear
otherwise; likewise for the greatest and least signed values. -/
theorem udiv_bounds (positive : 0 < w) {s : BitVec w} (nonzero : 0 < s.toNat)
    : (s.toNat = 1
        ∧ (BitVec.smtUDiv (BitVec.allOnes w) s).toNat = 2 ^ w - 1
        ∧ (BitVec.smtUDiv (BitVec.twoPow w (w - 1)) s).toNat = 2 ^ (w - 1)
        ∧ (BitVec.smtUDiv (~~~BitVec.twoPow w (w - 1)) s).toNat = 2 ^ (w - 1) - 1)
      ∨ (1 < s.toNat
        ∧ 0 < (BitVec.smtUDiv (BitVec.allOnes w) s).toNat
        ∧ (BitVec.smtUDiv (BitVec.allOnes w) s).toNat < 2 ^ (w - 1)
        ∧ (BitVec.smtUDiv (BitVec.twoPow w (w - 1)) s).toNat < 2 ^ (w - 1)
        ∧ (BitVec.smtUDiv (~~~BitVec.twoPow w (w - 1)) s).toNat
          ≤ (BitVec.smtUDiv (BitVec.allOnes w) s).toNat) := by
  have double := two_pow_eq_double_half positive
  have half : 0 < 2 ^ (w - 1) := Nat.two_pow_pos _
  have bound := s.isLt
  rw [toNat_smtUDiv _ nonzero, toNat_smtUDiv _ nonzero, toNat_smtUDiv _ nonzero,
    toNat_minSigned positive, toNat_maxSigned positive, BitVec.toNat_allOnes]
  rcases Nat.eq_or_lt_of_le nonzero with one | more
  · left
    simp [← one]
  · right
    refine ⟨more, Nat.div_pos (by omega) nonzero, ?_, ?_, Nat.div_le_div_right (by omega)⟩
    · rw [Nat.div_lt_iff_lt_mul nonzero]
      have twice := Nat.mul_le_mul_left (2 ^ (w - 1)) more
      omega
    · exact Nat.div_lt_self half more

theorem eval_sclBvUdiv_zero (v : Valuation) (pol : Bool) (litk : LitKind) (s t : Term w)
    (zero : s.eval v = 0#w)
    : (sclBvUdiv pol litk 0 s t).eval v = true
      ↔ Solvable pol litk .udiv 0 (s.eval v) (t.eval v) := by
  have positive := s.positive
  have corners := toNat_corners positive
  rw [zero, solvable_iff udiv_image_zero (Extremes.singleton (BitVec.allOnes w))]
  cases litk <;> cases pol <;>
    simp [sclBvUdiv, condition, zero, Extremes.singleton, -Bool.coe_iff_coe]
  all_goals
    generalize t.eval v = t
  case equal.false => exact not_congr eq_comm
  case equal.true => exact eq_comm
  case ult.true =>
    rw [ult_eq_false]
    exact ule_allOnes t
  case slt.true =>
    rw [sle_eq_false, slt_iff positive, slt_iff positive]
    omega
  case sgt.false =>
    rw [sle_eq_false, slt_iff positive, slt_iff positive, sle_iff positive, BitVec.toNat_eq]
    omega

/-- The condition of the inverter for quotients is exact when the variable is the dividend. -/
theorem eval_sclBvUdiv_left (v : Valuation) (pol : Bool) (litk : LitKind) (s t : Term w)
    : (sclBvUdiv pol litk 0 s t).eval v = true
      ↔ Solvable pol litk .udiv 0 (s.eval v) (t.eval v) := by
  have positive := s.positive
  rcases Nat.eq_zero_or_pos (s.eval v).toNat with zero | nonzero
  · exact eval_sclBvUdiv_zero v pol litk s t (BitVec.eq_of_toNat_eq (by simp [zero]))
  rw [solvable_iff (udiv_image_left nonzero)
    (Extremes.segment positive (BitVec.smtUDiv (BitVec.allOnes w) (s.eval v)))]
  have greatest := toNat_smtUDiv (BitVec.allOnes w) nonzero
  rw [BitVec.toNat_allOnes] at greatest
  have bounds := udiv_bounds positive nonzero
  have corners := toNat_corners positive
  have back := mul_udiv_cancel_iff nonzero (t.eval v)
  rw [← greatest] at back
  have vector : s.eval v ≠ 0#w := by
    intro zero
    simp [zero] at nonzero
  cases litk <;> cases pol <;>
    simp [sclBvUdiv, condition, vector, -Bool.coe_iff_coe, -BitVec.toNat_not]
  case equal.false =>
    have parts := exists_segment_ne (BitVec.smtUDiv (BitVec.allOnes w) (s.eval v)) (t.eval v)
    refine parts.mpr (Or.inl fun zero => ?_)
    rw [zero] at bounds
    omega
  case equal.true => exact back
  case ult.false =>
    rw [mul_udiv_and_iff nonzero, BitVec.ule_iff_toNat_le, greatest]
  case ugt.false =>
    have pred := toNat_pred_cases (s.eval v)
    have disj := toNat_or_bounds (s.eval v) (t.eval v)
    rw [BitVec.ule_iff_toNat_le]
    omega
  case slt.false =>
    simp only [sle_iff positive]
    split <;> omega
  case slt.true =>
    simp only [sle_eq_false, slt_iff positive]
    split <;> omega
  case sgt.false =>
    rw [back, sle_eq_false, slt_iff positive, slt_iff positive, sle_iff positive]
    split <;> omega
  case sgt.true =>
    simp only [slt_iff positive]
    split <;> omega

/-- The quotients of `s`: all ones for the divisor zero, and the proper quotients. -/
def udivImage (s r : BitVec w) : Prop :=
  r = BitVec.allOnes w ∨ ∃ x : BitVec w, 0 < x.toNat ∧ s.toNat / x.toNat = r.toNat

theorem udiv_image_right {idx : Nat} (right : idx ≠ 0) (s r : BitVec w)
    : (∃ x, OpKind.udiv.result idx s x = r) ↔ udivImage s r := by
  simp only [OpKind.result, OpKind.apply, if_neg right, udivImage]
  constructor
  · rintro ⟨x, rfl⟩
    rcases Nat.eq_zero_or_pos x.toNat with zero | nonzero
    · have vector : x = 0#w := BitVec.eq_of_toNat_eq (by simp [zero])
      exact Or.inl (by rw [vector, smtUDiv_zero])
    · exact Or.inr ⟨x, nonzero, (toNat_smtUDiv s nonzero).symm⟩
  · rintro (rfl | ⟨x, nonzero, quotient⟩)
    · exact ⟨0#w, smtUDiv_zero s⟩
    · exact ⟨x, BitVec.eq_of_toNat_eq ((toNat_smtUDiv s nonzero).trans quotient)⟩

theorem udivImage_self (positive : 0 < w) (s : BitVec w) : udivImage s s :=
  Or.inr ⟨1#w, by rw [toNat_one positive]; exact Nat.one_pos,
    by rw [toNat_one positive, Nat.div_one]⟩

/-- Halving is a quotient once two is a vector of the width. -/
theorem udivImage_half (wide : 1 < w) (s : BitVec w) : udivImage s (s >>> 1#w) := by
  have four : 2 ^ 2 ≤ 2 ^ w := Nat.pow_le_pow_right Nat.zero_lt_two wide
  have two : (2#w).toNat = 2 := by
    rw [BitVec.toNat_ofNat, Nat.mod_eq_of_lt (by omega)]
  refine Or.inr ⟨2#w, by omega, ?_⟩
  rw [two, toNat_ushiftRight_one (by omega)]

/-- A quotient is all ones, `s` itself, or at most half of it. -/
theorem udivImage_bounds {s r : BitVec w} (member : udivImage s r)
    : r.toNat = 2 ^ w - 1
      ∨ (r.toNat = s.toNat ∨ 2 * r.toNat ≤ s.toNat)
        ∧ (s.toNat = 2 ^ w - 1 → 0 < r.toNat) := by
  rcases member with rfl | ⟨x, nonzero, quotient⟩
  · exact Or.inl BitVec.toNat_allOnes
  · right
    have bound := x.isLt
    constructor
    · rcases Nat.eq_or_lt_of_le nonzero with one | more
      · left
        rw [← quotient, ← one, Nat.succ_eq_one_add, Nat.add_zero, Nat.div_one]
      · right
        have below := Nat.div_mul_le_self s.toNat x.toNat
        rw [quotient] at below
        have twice := Nat.mul_le_mul_left r.toNat more
        omega
    · intro whole
      rw [← quotient]
      exact Nat.div_pos (by omega) nonzero

section Extremes

variable (positive : 0 < w) (s : BitVec w)

theorem udiv_uhi_mem : udivImage s (BitVec.allOnes w) := Or.inl rfl

include positive

theorem udiv_ulo_mem : udivImage s (if s = BitVec.allOnes w then 1#w else 0#w) := by
  have bound := s.isLt
  have corners := toNat_corners positive
  refine Or.inr ⟨BitVec.allOnes w, by omega, ?_⟩
  split
  · next same =>
    rw [same, Nat.div_self (by omega)]
    omega
  · next differ =>
    rw [BitVec.toNat_eq] at differ
    rw [Nat.div_eq_of_lt (by omega)]
    omega

theorem udiv_slo_mem : udivImage s (if 2 ^ (w - 1) ≤ s.toNat then s else BitVec.allOnes w) := by
  split
  · exact udivImage_self positive s
  · exact udiv_uhi_mem s

theorem udiv_shi_mem : udivImage s (if s.toNat < 2 ^ (w - 1) ∨ w = 1 then s else s >>> 1#w) := by
  split
  · exact udivImage_self positive s
  · exact udivImage_half (by omega) s

theorem udiv_ulo_le (r : BitVec w) (member : udivImage s r)
    : (if s = BitVec.allOnes w then 1#w else 0#w).toNat ≤ r.toNat := by
  have corners := toNat_corners positive
  have bounds := udivImage_bounds member
  split
  · next same =>
    rw [BitVec.toNat_eq] at same
    omega
  · omega

theorem udiv_le_uhi (r : BitVec w) (_ : udivImage s r) : r.toNat ≤ (BitVec.allOnes w).toNat := by
  have corners := toNat_corners positive
  have bound := r.isLt
  omega

theorem udiv_slo_le (r : BitVec w) (member : udivImage s r)
    : (if 2 ^ (w - 1) ≤ s.toNat then s else BitVec.allOnes w).toInt ≤ r.toInt := by
  have bound := s.isLt
  have corners := toNat_corners positive
  have bounds := udivImage_bounds member
  rw [toInt_le_iff positive]
  split <;> omega

theorem udiv_le_shi (r : BitVec w) (member : udivImage s r)
    : r.toInt ≤ (if s.toNat < 2 ^ (w - 1) ∨ w = 1 then s else s >>> 1#w).toInt := by
  have bound := s.isLt
  have corners := toNat_corners positive
  have shifted := toNat_ushiftRight_one positive s
  have bounds := udivImage_bounds member
  have rbound := r.isLt
  rw [toInt_le_iff positive]
  split
  · next small =>
    rcases small with _ | rfl <;> omega
  · omega

/-- Extremes of the quotients of `s`. At width one the only divisors are zero and one, so a
negative `s` is not halved. -/
def udivExtremes : Extremes (udivImage s) where
  ulo := if s = BitVec.allOnes w then 1#w else 0#w
  uhi := BitVec.allOnes w
  slo := if 2 ^ (w - 1) ≤ s.toNat then s else BitVec.allOnes w
  shi := if s.toNat < 2 ^ (w - 1) ∨ w = 1 then s else s >>> 1#w
  ulo_mem := udiv_ulo_mem positive s
  uhi_mem := udiv_uhi_mem s
  slo_mem := udiv_slo_mem positive s
  shi_mem := udiv_shi_mem positive s
  ulo_le := udiv_ulo_le positive s
  le_uhi := udiv_le_uhi positive s
  slo_le := udiv_slo_le positive s
  le_shi := udiv_le_shi positive s

end Extremes

/-- Dividing twice returns to `t` exactly when `t` is a quotient of `s`. -/
theorem udiv_udiv_iff (positive : 0 < w) (s t : BitVec w)
    : BitVec.smtUDiv s (BitVec.smtUDiv s t) = t ↔ udivImage s t := by
  have corners := toNat_corners positive
  have sbound := s.isLt
  constructor
  · intro back
    exact (udiv_image_right Nat.one_ne_zero s t).mp ⟨BitVec.smtUDiv s t, back⟩
  · intro member
    rcases Nat.eq_zero_or_pos t.toNat with zero | tpos
    · -- only the greatest divisor can give zero
      have vector : t = 0#w := BitVec.eq_of_toNat_eq (by simp [zero])
      have bounds := udivImage_bounds member
      rw [vector, smtUDiv_zero, BitVec.toNat_eq, toNat_smtUDiv _ (by omega),
        Nat.div_eq_of_lt (by omega)]
      rfl
    · have inner := toNat_smtUDiv s tpos
      rcases Nat.eq_zero_or_pos (BitVec.smtUDiv s t).toNat with none | qpos
      · have less : s.toNat < t.toNat := by
          rw [inner, Nat.div_eq_zero_iff] at none
          omega
        have vector : BitVec.smtUDiv s t = 0#w := BitVec.eq_of_toNat_eq (by simp [none])
        have bounds := udivImage_bounds member
        rw [vector, smtUDiv_zero, BitVec.toNat_eq]
        omega
      · rw [BitVec.toNat_eq, toNat_smtUDiv s qpos, inner]
        rw [inner] at qpos
        have atLeast : t.toNat ≤ s.toNat / (s.toNat / t.toNat) := by
          rw [Nat.le_div_iff_mul_le qpos, Nat.mul_comm]
          exact Nat.div_mul_le_self s.toNat t.toNat
        refine Nat.le_antisymm ?_ atLeast
        rcases member with rfl | ⟨x, nonzero, quotient⟩
        · have le := Nat.div_le_self s.toNat (s.toNat / (BitVec.allOnes w).toNat)
          omega
        · have divisor : x.toNat ≤ s.toNat / t.toNat := by
            rw [Nat.le_div_iff_mul_le tpos, ← quotient, Nat.mul_comm]
            exact Nat.div_mul_le_self s.toNat x.toNat
          calc s.toNat / (s.toNat / t.toNat) ≤ s.toNat / x.toNat :=
                Nat.div_le_div_left divisor nonzero
            _ = t.toNat := quotient

/-- Above width one the quotients of `s` are never a single value. -/
theorem exists_udiv_ne (wide : 1 < w) (s t : BitVec w) : ∃ r, udivImage s r ∧ r ≠ t := by
  have corners := toNat_corners (Nat.lt_of_succ_lt wide)
  have half := toNat_ushiftRight_one (Nat.lt_of_succ_lt wide) s
  by_cases same : BitVec.allOnes w = t
  · refine ⟨s >>> 1#w, udivImage_half wide s, ?_⟩
    have grow : 2 ^ 1 ≤ 2 ^ (w - 1) := Nat.pow_le_pow_right Nat.zero_lt_two (by omega)
    have bound := s.isLt
    rw [← same, ne_eq, BitVec.toNat_eq]
    omega
  · exact ⟨_, Or.inl rfl, same⟩

/-- At width one some quotient of `s` differs from `t` unless both are one. -/
theorem and_eq_zero_iff_udiv (s t : BitVec 1)
    : s &&& t = 0#1 ↔ ∃ r, udivImage s r ∧ r ≠ t := by
  have corners := toNat_corners Nat.one_pos
  have conj := toNat_and_bounds s t
  have sbound := s.isLt
  have tbound := t.isLt
  rw [BitVec.toNat_eq]
  constructor
  · intro disjoint
    by_cases same : s = t
    · refine ⟨BitVec.allOnes 1, Or.inl rfl, ?_⟩
      rw [ne_eq, BitVec.toNat_eq]
      rw [BitVec.toNat_eq] at same
      omega
    · exact ⟨s, udivImage_self Nat.one_pos s, same⟩
  · rintro ⟨r, member, differ⟩
    have bounds := udivImage_bounds member
    rw [ne_eq, BitVec.toNat_eq] at differ
    omega

/-- The condition of the inverter for quotients is exact when the variable is the divisor. -/
theorem eval_sclBvUdiv_right (v : Valuation) (pol : Bool) (litk : LitKind) {idx : Nat}
    (right : idx ≠ 0) (s t : Term w)
    : (sclBvUdiv pol litk idx s t).eval v = true
      ↔ Solvable pol litk .udiv idx (s.eval v) (t.eval v) := by
  have positive := s.positive
  rw [solvable_iff (udiv_image_right right (s.eval v)) (udivExtremes positive (s.eval v))]
  cases litk <;> cases pol <;>
    simp [sclBvUdiv, condition, right, udivExtremes, -BitVec.ushiftRight_eq', -Bool.coe_iff_coe]
  all_goals
    have corners := toNat_corners positive
    have sbound := (s.eval v).isLt
    have tbound := (t.eval v).isLt
  case equal.true => exact udiv_udiv_iff positive _ _
  case equal.false =>
    split
    · next wide => simpa using exists_udiv_ne wide (s.eval v) (t.eval v)
    · next narrow =>
      obtain rfl : w = 1 := by omega
      simpa using and_eq_zero_iff_udiv (s.eval v) (t.eval v)
  case ult.true =>
    have negated := toNat_neg_cases (t.eval v)
    have conj := toNat_and_bounds (-t.eval v) (s.eval v)
    have total := toNat_and_add_or (-t.eval v) (s.eval v)
    have range := (-t.eval v ||| s.eval v).isLt
    rw [BitVec.ult_iff_toNat_lt, BitVec.toNat_eq, BitVec.toNat_eq, BitVec.toNat_not]
    split
    · next same => rw [BitVec.toNat_eq] at same; omega
    · next differ => rw [BitVec.toNat_eq] at differ; omega
  case ugt.false =>
    rw [BitVec.ule_iff_toNat_le, BitVec.toNat_eq, BitVec.toNat_eq, BitVec.toNat_not]
    split
    · next same => rw [BitVec.toNat_eq] at same; omega
    · next differ => rw [BitVec.toNat_eq] at differ; omega
  case slt.false =>
    split
    · next wide =>
      simp [sle_eq_false, slt_eq_false, sle_iff positive, slt_iff positive,
        -BitVec.ushiftRight_eq']
      split <;> omega
    · next narrow =>
      have one : w = 1 := by omega
      simp [one]
  case slt.true =>
    simp only [slt_iff positive, sle_iff positive]
    split <;> omega
  case sgt.false =>
    simp only [sle_iff positive]
    split <;> omega
  case sgt.true =>
    split
    · next wide =>
      simp [sle_eq_false, slt_eq_false, sle_iff positive, slt_iff positive,
        -BitVec.ushiftRight_eq']
      split <;> omega
    · next narrow =>
      have one : w = 1 := by omega
      simp [one]

end Ava6.Quantifiers.BvInverter

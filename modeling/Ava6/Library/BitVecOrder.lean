import Mathlib.Data.BitVec
import Mathlib.Tactic.Ring

/-! The two orders of bit-vectors, read through unsigned values.
Signed comparisons become statements about `toNat` and `2 ^ (w - 1)`, so that linear
arithmetic decides them, and a set of vectors is compared with a bound through its
least and greatest members.
-/

namespace Ava6.Library.BitVecOrder

variable {w : Nat} {x y : BitVec w}

theorem two_pow_eq_double_half (positive : 0 < w) : 2 ^ w = 2 * 2 ^ (w - 1) := by
  obtain ⟨n, rfl⟩ := Nat.exists_eq_succ_of_ne_zero positive.ne'
  rw [Nat.succ_sub_one, Nat.pow_succ, Nat.mul_comm]

/-- Signed `<` by sign and unsigned value. -/
theorem slt_iff (positive : 0 < w)
    : x.slt y = true
      ↔ (2 ^ (w - 1) ≤ x.toNat ∧ y.toNat < 2 ^ (w - 1))
        ∨ (x.toNat < y.toNat ∧ (y.toNat < 2 ^ (w - 1) ∨ 2 ^ (w - 1) ≤ x.toNat)) := by
  have double := two_pow_eq_double_half positive
  have xlt := x.isLt
  have ylt := y.isLt
  rw [BitVec.slt_iff_toInt_lt, BitVec.toInt_eq_toNat_cond, BitVec.toInt_eq_toNat_cond]
  split <;> split <;> omega

/-- Signed `≤` by sign and unsigned value. -/
theorem sle_iff (positive : 0 < w)
    : x.sle y = true
      ↔ (2 ^ (w - 1) ≤ x.toNat ∧ y.toNat < 2 ^ (w - 1))
        ∨ (x.toNat ≤ y.toNat ∧ (y.toNat < 2 ^ (w - 1) ∨ 2 ^ (w - 1) ≤ x.toNat)) := by
  have double := two_pow_eq_double_half positive
  have xlt := x.isLt
  have ylt := y.isLt
  rw [BitVec.sle_iff_toInt_le, BitVec.toInt_eq_toNat_cond, BitVec.toInt_eq_toNat_cond]
  split <;> split <;> omega

theorem toNat_neg_cases (x : BitVec w)
    : (x.toNat = 0 ∧ (-x).toNat = 0) ∨ (0 < x.toNat ∧ (-x).toNat = 2 ^ w - x.toNat) := by
  have bound := x.isLt
  rw [BitVec.toNat_neg]
  rcases Nat.eq_zero_or_pos x.toNat with zero | positive
  · left
    simp [zero]
  · right
    exact ⟨positive, Nat.mod_eq_of_lt (by omega)⟩

/-- The bitwise complement of `-x` is the predecessor of `x`. -/
theorem toNat_pred_cases (x : BitVec w)
    : (x.toNat = 0 ∧ (~~~(-x)).toNat = 2 ^ w - 1)
      ∨ (0 < x.toNat ∧ (~~~(-x)).toNat = x.toNat - 1) := by
  have bound := x.isLt
  have negated := toNat_neg_cases x
  rw [BitVec.toNat_not]
  omega

theorem toNat_add_cases (x y : BitVec w)
    : (x.toNat + y.toNat < 2 ^ w ∧ (x + y).toNat = x.toNat + y.toNat)
      ∨ (2 ^ w ≤ x.toNat + y.toNat ∧ (x + y).toNat + 2 ^ w = x.toNat + y.toNat) := by
  have xlt := x.isLt
  have ylt := y.isLt
  rw [BitVec.toNat_add]
  rcases Nat.lt_or_ge (x.toNat + y.toNat) (2 ^ w) with fits | wraps
  · exact Or.inl ⟨fits, Nat.mod_eq_of_lt fits⟩
  · right
    rw [Nat.mod_eq_sub_mod wraps, Nat.mod_eq_of_lt (by omega)]
    omega

theorem toNat_sub_cases (x y : BitVec w)
    : (y.toNat ≤ x.toNat ∧ (x - y).toNat = x.toNat - y.toNat)
      ∨ (x.toNat < y.toNat ∧ (x - y).toNat = x.toNat + 2 ^ w - y.toNat) := by
  have xlt := x.isLt
  have ylt := y.isLt
  rw [BitVec.toNat_sub]
  rcases Nat.lt_or_ge x.toNat y.toNat with less | atLeast
  · exact Or.inr ⟨less, by rw [Nat.mod_eq_of_lt (by omega)]; omega⟩
  · left
    rw [Nat.mod_eq_sub_mod (by omega), Nat.mod_eq_of_lt (by omega)]
    omega

/-- A product reduced modulo `m` divides back exactly when it was in range. -/
theorem mul_mod_div_eq_iff {m p : Nat} (modulus : 0 < m) (factor : 0 < p) (t : Nat)
    : p * t % m / p = t ↔ t ≤ (m - 1) / p := by
  rw [Nat.le_div_iff_mul_le factor]
  constructor
  · intro quotient
    have small := Nat.mod_lt (p * t) modulus
    have below := Nat.div_mul_le_self (p * t % m) p
    rw [quotient] at below
    omega
  · intro fits
    rw [Nat.mul_comm] at fits
    rw [Nat.mod_eq_of_lt (by omega), Nat.mul_div_cancel_left _ factor]

/-- Bounds and sign of a disjunction. -/
theorem toNat_or_bounds (x y : BitVec w)
    : x.toNat ≤ (x ||| y).toNat
      ∧ y.toNat ≤ (x ||| y).toNat
      ∧ ((x ||| y).toNat < 2 ^ (w - 1)
        ↔ x.toNat < 2 ^ (w - 1) ∧ y.toNat < 2 ^ (w - 1)) := by
  rw [BitVec.toNat_or]
  have left := Nat.left_le_or (n := x.toNat) (m := y.toNat)
  have right := Nat.right_le_or (n := x.toNat) (m := y.toNat)
  refine ⟨left, right, ?_, fun both => Nat.or_lt_two_pow both.1 both.2⟩
  intro small
  exact ⟨Nat.lt_of_le_of_lt left small, Nat.lt_of_le_of_lt right small⟩

/-- Bounds and sign of a conjunction. -/
theorem toNat_and_bounds (x y : BitVec w)
    : (x &&& y).toNat ≤ x.toNat
      ∧ (x &&& y).toNat ≤ y.toNat
      ∧ ((x &&& y).toNat < 2 ^ (w - 1)
        ↔ x.toNat < 2 ^ (w - 1) ∨ y.toNat < 2 ^ (w - 1)) := by
  have sign
      : 2 ^ (w - 1) ≤ (x &&& y).toNat
        ↔ 2 ^ (w - 1) ≤ x.toNat ∧ 2 ^ (w - 1) ≤ y.toNat := by
    simpa only [BitVec.msb_eq_decide, Bool.and_eq_true, decide_eq_true_eq]
      using congrArg (· = true) (BitVec.msb_and (x := x) (y := y)) |> iff_of_eq
  refine ⟨?_, ?_, by omega⟩
  · exact BitVec.toNat_and x y ▸ Nat.and_le_left
  · exact BitVec.toNat_and x y ▸ Nat.and_le_right

/-- Conjunction and disjunction together have the sum of their operands, by induction on the
number of bits. -/
theorem and_add_or (a b : Nat) : (a &&& b) + (a ||| b) = a + b := by
  induction a using Nat.strongRecOn generalizing b with
  | ind a ih =>
    rcases Nat.eq_zero_or_pos a with zero | pos
    · simp [zero]
    · have halves := ih (a / 2) (by omega) (b / 2)
      rw [← Nat.and_div_two, ← Nat.or_div_two] at halves
      have andLow := Nat.and_mod_two_eq_one (a := a) (b := b)
      have orLow := Nat.or_mod_two_eq_one (a := a) (b := b)
      omega

theorem toNat_and_add_or (x y : BitVec w)
    : (x &&& y).toNat + (x ||| y).toNat = x.toNat + y.toNat := by
  rw [BitVec.toNat_and, BitVec.toNat_or, and_add_or]

theorem toNat_minSigned (positive : 0 < w) : (BitVec.twoPow w (w - 1)).toNat = 2 ^ (w - 1) :=
  BitVec.toNat_twoPow_of_lt (by omega)

theorem toNat_maxSigned (positive : 0 < w)
    : (~~~BitVec.twoPow w (w - 1)).toNat = 2 ^ (w - 1) - 1 := by
  have double := two_pow_eq_double_half positive
  rw [BitVec.toNat_not, toNat_minSigned positive]
  omega

theorem toNat_one (positive : 0 < w) : (1#w).toNat = 1 := by
  rw [BitVec.toNat_ofNat, Nat.mod_eq_of_lt (Nat.one_lt_two_pow positive.ne')]

/-- The values of the constants, as one fact for linear arithmetic. -/
theorem toNat_corners (positive : 0 < w)
    : (0#w).toNat = 0
      ∧ (1#w).toNat = 1
      ∧ (BitVec.twoPow w (w - 1)).toNat = 2 ^ (w - 1)
      ∧ (~~~BitVec.twoPow w (w - 1)).toNat = 2 ^ (w - 1) - 1
      ∧ (BitVec.allOnes w).toNat = 2 ^ w - 1
      ∧ 2 ^ w = 2 * 2 ^ (w - 1)
      ∧ 0 < 2 ^ (w - 1) :=
  ⟨rfl, toNat_one positive, toNat_minSigned positive, toNat_maxSigned positive,
    BitVec.toNat_allOnes, two_pow_eq_double_half positive, Nat.two_pow_pos _⟩

theorem toNat_ushiftRight_one (positive : 0 < w) (x : BitVec w)
    : (x >>> 1#w).toNat = x.toNat / 2 := by
  rw [BitVec.ushiftRight_eq', toNat_one positive, BitVec.toNat_ushiftRight,
    Nat.shiftRight_eq_div_pow, pow_one]

theorem minSigned_sle (positive : 0 < w) (x : BitVec w)
    : (BitVec.twoPow w (w - 1)).sle x = true := by
  have low := toNat_minSigned positive
  rw [sle_iff positive]
  omega

theorem sle_maxSigned (positive : 0 < w) (x : BitVec w)
    : x.sle (~~~BitVec.twoPow w (w - 1)) = true := by
  have high := toNat_maxSigned positive
  have half : 0 < 2 ^ (w - 1) := Nat.two_pow_pos _
  rw [sle_iff positive]
  omega

theorem ult_eq_false (x y : BitVec w) : x.ult y = false ↔ y.ule x = true := by
  simp [BitVec.ule_eq_not_ult]

theorem slt_eq_false (x y : BitVec w) : x.slt y = false ↔ y.sle x = true := by
  simp [BitVec.sle_eq_not_slt]

theorem sle_eq_false (x y : BitVec w) : x.sle y = false ↔ y.slt x = true := by
  simp [BitVec.sle_eq_not_slt]

@[simp] theorem zero_ule (x : BitVec w) : (0#w).ule x = true := by
  simp [BitVec.ule_iff_toNat_le]

@[simp] theorem zero_ult (x : BitVec w) : (0#w).ult x = true ↔ x ≠ 0#w := by
  rw [BitVec.ult_iff_toNat_lt, ne_eq, BitVec.toNat_eq, BitVec.toNat_ofNat, Nat.zero_mod]
  omega

@[simp] theorem ule_allOnes (x : BitVec w) : x.ule (BitVec.allOnes w) = true := by
  have bound := x.isLt
  rw [BitVec.ule_iff_toNat_le, BitVec.toNat_allOnes]
  omega

/-- The least and greatest members of a set of vectors in the unsigned and in the signed
order. A comparison of some member with a bound is one of the right extreme with it.
-/
structure Extremes (image : BitVec w → Prop) where
  ulo : BitVec w
  uhi : BitVec w
  slo : BitVec w
  shi : BitVec w
  ulo_mem : image ulo
  uhi_mem : image uhi
  slo_mem : image slo
  shi_mem : image shi
  ulo_le : ∀ r, image r → ulo.toNat ≤ r.toNat
  le_uhi : ∀ r, image r → r.toNat ≤ uhi.toNat
  slo_le : ∀ r, image r → slo.toInt ≤ r.toInt
  le_shi : ∀ r, image r → r.toInt ≤ shi.toInt

namespace Extremes
variable {image : BitVec w → Prop} (extremes : Extremes image) (t : BitVec w)

/-- Some member has a property if the extreme one has it whenever another has. -/
theorem exists_iff {p : BitVec w → Prop} {extreme : BitVec w} (mem : image extreme)
    (inherits : ∀ r, image r → p r → p extreme)
    : (∃ r, image r ∧ p r) ↔ p extreme :=
  ⟨fun ⟨r, member, holds⟩ => inherits r member holds, fun holds => ⟨extreme, mem, holds⟩⟩

theorem exists_ult : (∃ r, image r ∧ r.ult t = true) ↔ extremes.ulo.ult t = true := by
  simp only [BitVec.ult_iff_toNat_lt]
  exact exists_iff extremes.ulo_mem fun r member => Nat.lt_of_le_of_lt (extremes.ulo_le r member)

theorem exists_uge : (∃ r, image r ∧ t.ule r = true) ↔ t.ule extremes.uhi = true := by
  simp only [BitVec.ule_iff_toNat_le]
  exact exists_iff extremes.uhi_mem fun r member less => Nat.le_trans less (extremes.le_uhi r member)

theorem exists_ugt : (∃ r, image r ∧ t.ult r = true) ↔ t.ult extremes.uhi = true := by
  simp only [BitVec.ult_iff_toNat_lt]
  exact exists_iff extremes.uhi_mem fun r member less => Nat.lt_of_lt_of_le less (extremes.le_uhi r member)

theorem exists_ule : (∃ r, image r ∧ r.ule t = true) ↔ extremes.ulo.ule t = true := by
  simp only [BitVec.ule_iff_toNat_le]
  exact exists_iff extremes.ulo_mem fun r member => Nat.le_trans (extremes.ulo_le r member)

theorem exists_slt : (∃ r, image r ∧ r.slt t = true) ↔ extremes.slo.slt t = true := by
  simp only [BitVec.slt_iff_toInt_lt]
  exact exists_iff extremes.slo_mem fun r member => Int.lt_of_le_of_lt (extremes.slo_le r member)

theorem exists_sge : (∃ r, image r ∧ t.sle r = true) ↔ t.sle extremes.shi = true := by
  simp only [BitVec.sle_iff_toInt_le]
  exact exists_iff extremes.shi_mem fun r member less => Int.le_trans less (extremes.le_shi r member)

theorem exists_sgt : (∃ r, image r ∧ t.slt r = true) ↔ t.slt extremes.shi = true := by
  simp only [BitVec.slt_iff_toInt_lt]
  exact exists_iff extremes.shi_mem fun r member less => Int.lt_of_lt_of_le less (extremes.le_shi r member)

theorem exists_sle : (∃ r, image r ∧ r.sle t = true) ↔ extremes.slo.sle t = true := by
  simp only [BitVec.sle_iff_toInt_le]
  exact exists_iff extremes.slo_mem fun r member => Int.le_trans (extremes.slo_le r member)

/-- A bound is at most the greatest member if it is a member or is less. -/
theorem mem_or_slt_shi_iff : image t ∨ t.slt extremes.shi = true ↔ t.sle extremes.shi = true := by
  rw [BitVec.sle_iff_toInt_le, BitVec.slt_iff_toInt_lt]
  refine ⟨fun atMost => ?_, fun atMost => ?_⟩
  · rcases atMost with member | less
    · exact extremes.le_shi t member
    · exact Int.le_of_lt less
  · rcases Int.lt_or_eq_of_le atMost with less | same
    · exact Or.inr less
    · left
      rw [BitVec.eq_of_toInt_eq same]
      exact extremes.shi_mem

end Extremes

end Ava6.Library.BitVecOrder

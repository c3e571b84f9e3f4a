import Mathlib.Data.Nat.Bitwise
import Mathlib.Tactic.Linarith
import Mathlib.Tactic.Ring

/-! Sizes of products from the positions of bits of the factors. A product is as large as two bits of the factors
together say, and not much larger than the highest two.
-/

namespace Ava6.Library

/-- Bits of both numbers whose positions add up to the bound. -/
def BitPair (x y t : Nat) : Prop := ∃ i j, t ≤ i + j ∧ x.testBit j = true ∧ y.testBit i = true

section BitPairs

variable {x y t : Nat}

theorem BitPair.le_mul (pair : BitPair x y t) : 2 ^ t ≤ x * y := by
  obtain ⟨i, j, enough, xBit, yBit⟩ := pair
  calc 2 ^ t ≤ 2 ^ (j + i) := Nat.pow_le_pow_right Nat.two_pos (by omega)
    _ = 2 ^ j * 2 ^ i := Nat.pow_add 2 j i
    _ ≤ x * y := Nat.mul_le_mul (Nat.ge_two_pow_of_testBit xBit) (Nat.ge_two_pow_of_testBit yBit)

theorem BitPair.pos (pair : BitPair x y t) : 0 < x ∧ 0 < y := by
  obtain ⟨i, j, -, xBit, yBit⟩ := pair
  exact ⟨(Nat.two_pow_pos j).trans_le (Nat.ge_two_pow_of_testBit xBit),
    (Nat.two_pow_pos i).trans_le (Nat.ge_two_pow_of_testBit yBit)⟩

/-- Without such bits, even the product of the successors is at most the next power. -/
theorem succ_mul_succ_le (noPair : ¬BitPair x y t) (xSmall : x < 2 ^ t) (ySmall : y < 2 ^ t)
    : (x + 1) * (y + 1) ≤ 2 ^ (t + 1) := by
  have next : 2 ^ (t + 1) = 2 ^ t + 2 ^ t := by rw [Nat.pow_succ, Nat.mul_two]
  by_cases xZero : x = 0
  · rw [xZero]
    omega
  by_cases yZero : y = 0
  · rw [yZero]
    omega
  have apart : ¬t ≤ y.log2 + x.log2 := fun enough =>
    noPair ⟨y.log2, x.log2, enough, Nat.testBit_log2 xZero, Nat.testBit_log2 yZero⟩
  have xLt : x < 2 ^ (x.log2 + 1) := Nat.lt_log2_self
  have yLt : y < 2 ^ (y.log2 + 1) := Nat.lt_log2_self
  calc (x + 1) * (y + 1) ≤ 2 ^ (x.log2 + 1) * 2 ^ (y.log2 + 1) := Nat.mul_le_mul xLt yLt
    _ = 2 ^ (x.log2 + 1 + (y.log2 + 1)) := (Nat.pow_add 2 _ _).symm
    _ ≤ 2 ^ (t + 1) := Nat.pow_le_pow_right Nat.two_pos (by omega)

theorem mul_lt_of_no_pair (noPair : ¬BitPair x y t) (xSmall : x < 2 ^ t) (ySmall : y < 2 ^ t)
    : x * y < 2 ^ (t + 1) := by
  have bound := succ_mul_succ_le noPair xSmall ySmall
  have expanded : (x + 1) * (y + 1) = x * y + x + y + 1 := by ring
  omega

end BitPairs

/-- The number whose bits are those of a two's complement that differ from the sign. -/
def magnitude (z : Int) : Nat := if 0 ≤ z then z.toNat else (-z - 1).toNat

theorem magnitude_spec (z : Int) : z = magnitude z ∨ z = -(magnitude z + 1 : Int) := by
  unfold magnitude
  split <;> omega

theorem magnitude_lt {z : Int} {t : Nat} (lower : -(2 : Int) ^ t ≤ z) (upper : z < 2 ^ t) : magnitude z < 2 ^ t := by
  have isPower : ((2 ^ t : Nat) : Int) = 2 ^ t := by push_cast; rfl
  rcases magnitude_spec z with isSame | isNegative <;> omega

section Signed

variable {a b : Int} {t : Nat}

/-- A pair of bits takes the product out of the range. -/
theorem BitPair.outside (pair : BitPair (magnitude a) (magnitude b) t) : a * b < -2 ^ t ∨ 2 ^ t ≤ a * b := by
  have product : (2 : Int) ^ t ≤ magnitude a * magnitude b := by exact_mod_cast pair.le_mul
  have aPositive : (0 : Int) < magnitude a := by exact_mod_cast pair.pos.1
  have bPositive : (0 : Int) < magnitude b := by exact_mod_cast pair.pos.2
  rcases magnitude_spec a with aSame | aNegative <;> rcases magnitude_spec b with bSame | bNegative
  · right
    rw [aSame, bSame]
    exact product
  · left
    rw [aSame, bNegative]
    linarith
  · left
    rw [aNegative, bSame]
    linarith
  · right
    rw [aNegative, bNegative]
    linarith

/-- Without a pair, the product is off the range by one bit at most. -/
theorem mul_bounds_of_no_pair (noPair : ¬BitPair (magnitude a) (magnitude b) t) (aSmall : magnitude a < 2 ^ t)
    (bSmall : magnitude b < 2 ^ t)
    : -(2 : Int) ^ (t + 1) ≤ a * b ∧ a * b ≤ 2 ^ (t + 1) := by
  have product : ((magnitude a : Int) + 1) * (magnitude b + 1) ≤ 2 ^ (t + 1) := by
    exact_mod_cast succ_mul_succ_le noPair aSmall bSmall
  have aNonneg : (0 : Int) ≤ magnitude a := Int.natCast_nonneg _
  have bNonneg : (0 : Int) ≤ magnitude b := Int.natCast_nonneg _
  have both := mul_nonneg aNonneg bNonneg
  rcases magnitude_spec a with aSame | aNegative <;> rcases magnitude_spec b with bSame | bNegative
  · rw [aSame, bSame]
    constructor <;> linarith
  · rw [aSame, bNegative]
    constructor <;> linarith
  · rw [aNegative, bSame]
    constructor <;> linarith
  · rw [aNegative, bNegative]
    constructor <;> linarith

end Signed

end Ava6.Library

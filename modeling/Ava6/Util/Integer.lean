import Mathlib.Data.Int.Bitwise
import Mathlib.Data.Nat.Size

/-! Integers of any size with the operations on their bits that values of bit-vectors use. Bits are
those of the two's complement without end, counts of bits are machine words.
-/

namespace Ava6.Util.Integer

def bitwiseOr (a b : Int) : Int := Int.lor a b

def bitwiseAnd (a b : Int) : Int := Int.land a b

def bitwiseXor (a b : Int) : Int := Int.xor a b

def bitwiseNot (a : Int) : Int := Int.lnot a

def multiplyByPow2 (a : Int) (pow : UInt32) : Int := a * 2 ^ pow.toNat

def modByPow2 (a : Int) (exp : UInt32) : Int := a % 2 ^ exp.toNat

def divByPow2 (a : Int) (exp : UInt32) : Int := a / 2 ^ exp.toNat

def setBit (a : Int) (i : Nat) (value : Bool) : Int :=
  if value then Int.lor a (2 ^ i) else Int.ldiff a (2 ^ i)

/-- Sets the bits from `size` up to the sum of `size` and `amount`, which may overflow. -/
def oneExtend (a : Int) (size amount : UInt32) : Int :=
  (List.range' size.toNat ((size + amount).toNat - size.toNat)).foldl
    (fun res i => setBit res i true) a

/-- The low word of the absolute value. -/
def toUnsignedInt (a : Int) : UInt32 := UInt32.ofNat (a.natAbs % 2 ^ 64)

/-- The index of the highest bit overflows if no bits are wanted from position zero. -/
def extractBitRange (a : Int) (bitCount low : UInt32) : Int :=
  let high := low + bitCount - 1
  let rem := a % 2 ^ (high + 1).toNat
  rem / 2 ^ low.toNat

def floorDivideQuotient (a b : Int) : Int := a.fdiv b

def floorDivideRemainder (a b : Int) : Int := a.fmod b

def length (a : Int) : Nat := if a = 0 then 1 else a.natAbs.size

/-- The number that digits stand for, the most significant one first. -/
def ofDigits (base : Nat) (num : List Nat) : Int :=
  num.foldl (fun value (digit : Nat) => value * base + digit) 0

theorem modByPow2_nonneg (a : Int) (exp : UInt32) : 0 ≤ modByPow2 a exp :=
  Int.emod_nonneg _ (pow_ne_zero _ two_ne_zero)

theorem modByPow2_lt (a : Int) (exp : UInt32) : modByPow2 a exp < 2 ^ exp.toNat :=
  Int.emod_lt_of_pos _ (Int.pow_pos (by decide))

theorem setBit_natCast (a i : Nat) : setBit (a : Int) i true = ((a ||| 2 ^ i : Nat) : Int) := by
  have isNat : (2 : Int) ^ i = ((2 ^ i : Nat) : Int) := by push_cast; rfl
  rw [setBit, if_pos rfl, isNat]
  rfl

theorem clearBit_natCast (a i : Nat)
    : setBit (a : Int) i false = ((a.ldiff (2 ^ i) : Nat) : Int) := by
  have isNat : (2 : Int) ^ i = ((2 ^ i : Nat) : Int) := by push_cast; rfl
  rw [setBit, if_neg (by simp), isNat]
  rfl

theorem testBit_setBits (a : Nat) (positions : List Nat) (i : Nat)
    : (positions.foldl (fun res i => res ||| 2 ^ i) a).testBit i
      = (a.testBit i || positions.contains i) := by
  induction positions generalizing a with
  | nil => simp
  | cons position rest ih =>
      rw [List.foldl_cons, ih, Nat.testBit_or, Nat.testBit_two_pow, List.contains_cons, Bool.or_assoc]
      congr 1
      by_cases same : i = position
      · simp [same]
      · simp [same, Ne.symm same]

/-- The bits of an extended number. -/
theorem oneExtend_natCast (a : Nat) (size amount : UInt32)
    (fits : size.toNat + amount.toNat < 2 ^ 32)
    : ∃ res : Nat, oneExtend a size amount = res
      ∧ ∀ i, res.testBit i
        = (a.testBit i || decide (size.toNat ≤ i ∧ i < size.toNat + amount.toNat)) := by
  have noOverflow : (size + amount).toNat = size.toNat + amount.toNat := by
    rw [UInt32.toNat_add, Nat.mod_eq_of_lt fits]
  have cast (positions : List Nat) (a : Nat)
      : positions.foldl (fun res i => setBit res i true) (a : Int)
        = ((positions.foldl (fun res i => res ||| 2 ^ i) a : Nat) : Int) := by
    induction positions generalizing a with
    | nil => rfl
    | cons position rest ih => rw [List.foldl_cons, List.foldl_cons, setBit_natCast, ih]
  refine ⟨_, cast _ a, fun i => ?_⟩
  rw [testBit_setBits, noOverflow, Nat.add_sub_cancel_left]
  congr 1
  rw [Bool.eq_iff_iff, List.contains_iff_mem, List.mem_range'_1, decide_eq_true_iff]

/-- A range of bits of a natural number, for at least one bit or from position zero. -/
theorem extractBitRange_natCast (a : Nat) (bitCount low : UInt32)
    (fits : low.toNat + bitCount.toNat < 2 ^ 32)
    : extractBitRange a bitCount low
      = ((a % 2 ^ (low.toNat + bitCount.toNat) / 2 ^ low.toNat : Nat) : Int) := by
  have above : low + bitCount - 1 + 1 = low + bitCount := by simp
  rw [extractBitRange]
  simp only [above, UInt32.toNat_add, Nat.mod_eq_of_lt fits]
  push_cast
  rfl

theorem toUnsignedInt_natCast (a : Nat) (small : a < 2 ^ 32) : (toUnsignedInt a).toNat = a := by
  rw [toUnsignedInt, Int.natAbs_natCast, Nat.mod_eq_of_lt (by omega), UInt32.toNat_ofNat']
  exact Nat.mod_eq_of_lt small

end Ava6.Util.Integer

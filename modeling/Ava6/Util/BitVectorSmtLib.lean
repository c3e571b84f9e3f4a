import Ava6.Util.BitVector
import Mathlib.Tactic

/-! Every bit-vector value represents a bit-vector of its size, and the operations on values represent
those of SMT-LIB.
-/

namespace Ava6.Util

namespace BitVector

open Integer

/-- The value is the bit-vector, as a natural number. -/
structure Represents (a : BitVector) {n : Nat} (x : BitVec n) : Prop where
  size : a.size.toNat = n
  value : a.value = x.toNat

variable {a b : BitVector} {n : Nat} {x y : BitVec n}

theorem Represents.lt (ofA : Represents a x) : n < 2 ^ 32 := ofA.size ▸ a.size.toNat_lt

variable {size : UInt32}

/-- A constructed value represents the bit-vector of its integer. -/
theorem represents_ofInteger {val : Int} (sameSize : size.toNat = n)
    (sameValue : BitVec.ofInt n val = x)
    : Represents (ofInteger size val) x := by
  refine ⟨sameSize, ?_⟩
  subst sameSize sameValue
  rw [BitVec.toNat_ofInt, ofInteger, Int.toNat_of_nonneg (Int.emod_nonneg _ (by positivity))]
  simp [modByPow2]

theorem represents_ofInteger_natCast {val : Nat} (sameSize : size.toNat = n)
    (sameValue : val % 2 ^ n = x.toNat)
    : Represents (ofInteger size val) x := by
  refine represents_ofInteger sameSize (BitVec.eq_of_toNat_eq ?_)
  rw [BitVec.ofInt_natCast, BitVec.toNat_ofNat, sameValue]

theorem represents_of_bits {val : Nat} (sameSize : size.toNat = n)
    (bits : ∀ i < n, val.testBit i = x.getLsbD i)
    : Represents (ofInteger size val) x := by
  refine represents_ofInteger_natCast sameSize (Nat.eq_of_testBit_eq (fun i => ?_))
  rw [Nat.testBit_mod_two_pow, BitVec.testBit_toNat]
  by_cases below : i < n
  · simp [below, bits i below]
  · simp [below, BitVec.getLsbD_of_ge x i (Nat.le_of_not_lt below)]

-- Bitwise and arithmetic operations

theorem represents_xor (ofA : Represents a x) (ofB : Represents b y)
    : Represents (a.xor b) (x ^^^ y) := by
  have bits : bitwiseXor x.toNat y.toNat = ((x ^^^ y).toNat : Int) := by
    rw [BitVec.toNat_xor]
    rfl
  rw [xor, ofA.value, ofB.value, bits]
  exact represents_ofInteger_natCast ofA.size (Nat.mod_eq_of_lt (BitVec.isLt _))

theorem represents_or (ofA : Represents a x) (ofB : Represents b y)
    : Represents (a.or b) (x ||| y) := by
  have bits : bitwiseOr x.toNat y.toNat = ((x ||| y).toNat : Int) := by
    rw [BitVec.toNat_or]
    rfl
  rw [or, ofA.value, ofB.value, bits]
  exact represents_ofInteger_natCast ofA.size (Nat.mod_eq_of_lt (BitVec.isLt _))

theorem represents_and (ofA : Represents a x) (ofB : Represents b y)
    : Represents (a.and b) (x &&& y) := by
  have bits : bitwiseAnd x.toNat y.toNat = ((x &&& y).toNat : Int) := by
    rw [BitVec.toNat_and]
    rfl
  rw [and, ofA.value, ofB.value, bits]
  exact represents_ofInteger_natCast ofA.size (Nat.mod_eq_of_lt (BitVec.isLt _))

theorem represents_not (ofA : Represents a x) : Represents a.not (~~~x) := by
  rw [not, ofA.value]
  refine represents_ofInteger ofA.size ?_
  have complement : bitwiseNot (x.toNat : Int) = Int.negSucc x.toNat := rfl
  rw [complement, BitVec.ofInt_negSucc_eq_not_ofNat, BitVec.ofNat_toNat, BitVec.setWidth_eq]

theorem represents_add (ofA : Represents a x) (ofB : Represents b y)
    : Represents (a.add b) (x + y) := by
  rw [add, ofA.value, ofB.value]
  refine represents_ofInteger ofA.size ?_
  rw [BitVec.ofInt_add, BitVec.ofInt_natCast, BitVec.ofInt_natCast, BitVec.ofNat_toNat,
    BitVec.ofNat_toNat, BitVec.setWidth_eq, BitVec.setWidth_eq]

theorem represents_mul (ofA : Represents a x) (ofB : Represents b y)
    : Represents (a.mul b) (x * y) := by
  rw [mul, ofA.value, ofB.value]
  refine represents_ofInteger ofA.size ?_
  rw [BitVec.ofInt_mul, BitVec.ofInt_natCast, BitVec.ofInt_natCast, BitVec.ofNat_toNat,
    BitVec.ofNat_toNat, BitVec.setWidth_eq, BitVec.setWidth_eq]

theorem represents_one (ofA : Represents a x) : Represents (ofInteger a.size 1) (1#n) :=
  represents_ofInteger ofA.size (by simp)

theorem represents_sub (ofA : Represents a x) (ofB : Represents b y)
    : Represents (a.sub b) (x - y) := by
  have result := represents_add (represents_add ofA (represents_not ofB)) (represents_one ofA)
  rwa [BitVec.add_assoc, ← BitVec.neg_eq_not_add, ← BitVec.sub_eq_add_neg] at result

theorem represents_neg (ofA : Represents a x) : Represents a.neg (-x) := by
  have result := represents_add (represents_not ofA) (represents_one ofA)
  rwa [← BitVec.neg_eq_not_add] at result

theorem toNat_sub_one (sameSize : size.toNat = n) (pos : 0 < n)
    : (size - 1).toNat = n - 1 := by
  have notZero : (1 : UInt32) ≤ size := by
    rw [UInt32.le_iff_toNat_le, sameSize]
    exact pos
  rw [UInt32.toNat_sub_of_le _ _ notZero, sameSize]
  rfl

/-- A one that is extended by ones has all bits set. -/
theorem represents_oneExtend_one (sameSize : size.toNat = n) (pos : 0 < n)
    : Represents (ofInteger size (oneExtend 1 1 (size - 1))) (BitVec.allOnes n) := by
  have small : n < 2 ^ 32 := sameSize ▸ size.toNat_lt
  have amount := toNat_sub_one sameSize pos
  obtain ⟨res, isRes, bits⟩ := oneExtend_natCast 1 1 (size - 1)
    (by rw [amount, UInt32.toNat_one]; omega)
  rw [Nat.cast_one] at isRes
  rw [isRes]
  refine represents_of_bits sameSize (fun i below => ?_)
  rw [bits, amount, UInt32.toNat_one, BitVec.getLsbD_allOnes]
  cases i with
  | zero => simp [below]
  | succ i =>
      have inRange : 1 ≤ i + 1 ∧ i + 1 < 1 + (n - 1) := by omega
      simp [below, inRange]

theorem represents_unsignedDivTotal (pos : 0 < n) (ofA : Represents a x) (ofB : Represents b y)
    : Represents (a.unsignedDivTotal b) (x.smtUDiv y) := by
  rw [unsignedDivTotal, BitVec.smtUDiv_eq, ofA.value, ofB.value]
  by_cases isZero : y = 0#n
  · subst isZero
    rw [if_pos (by simp), if_pos rfl]
    exact represents_oneExtend_one ofA.size pos
  · have notZero : ((y.toNat : Nat) : Int) ≠ 0 := by
      intro zero
      exact isZero (BitVec.eq_of_toNat_eq (by simpa using zero))
    have quotient : floorDivideQuotient x.toNat y.toNat = ((x / y).toNat : Int) := by
      rw [BitVec.toNat_udiv]
      exact Int.fdiv_eq_ediv_of_nonneg _ (Int.natCast_nonneg _)
    rw [if_neg notZero, if_neg isZero, quotient]
    exact represents_ofInteger_natCast ofA.size (Nat.mod_eq_of_lt (BitVec.isLt _))

theorem represents_unsignedRemTotal (ofA : Represents a x) (ofB : Represents b y)
    : Represents (a.unsignedRemTotal b) (x % y) := by
  rw [unsignedRemTotal, ofA.value, ofB.value]
  split
  · next zero =>
      have isZero : y = 0#n := BitVec.eq_of_toNat_eq (by simpa using zero)
      rw [isZero, BitVec.umod_zero]
      exact represents_ofInteger_natCast ofA.size (Nat.mod_eq_of_lt (BitVec.isLt _))
  · have remainder : floorDivideRemainder x.toNat y.toNat = ((x % y).toNat : Int) := by
      rw [BitVec.toNat_umod]
      exact Int.fmod_eq_emod_of_nonneg _ (Int.natCast_nonneg _)
    rw [remainder]
    exact represents_ofInteger_natCast ofA.size (Nat.mod_eq_of_lt (BitVec.isLt _))

-- Ranges of bits

theorem represents_concat {m : Nat} {z : BitVec m} (ofA : Represents a x) (ofB : Represents b z)
    (fits : n + m < 2 ^ 32)
    : Represents (a.concat b) (x ++ z) := by
  have joined : multiplyByPow2 a.value b.size + b.value = ((x ++ z).toNat : Int) := by
    rw [BitVec.toNat_append, ← Nat.shiftLeft_add_eq_or_of_lt z.isLt, Nat.shiftLeft_eq, multiplyByPow2,
      ofA.value, ofB.value, ofB.size]
    push_cast
    rfl
  rw [concat, joined]
  refine represents_ofInteger_natCast ?_ (Nat.mod_eq_of_lt (BitVec.isLt _))
  rw [UInt32.toNat_add, ofA.size, ofB.size, Nat.mod_eq_of_lt fits]

theorem represents_extract {high low : UInt32} (ofA : Represents a x) (ordered : low ≤ high)
    (inside : high.toNat < n)
    : Represents (a.extract high low) (x.extractLsb high.toNat low.toNat) := by
  have below : low.toNat ≤ high.toNat := ordered
  have count : (high - low + 1).toNat = high.toNat - low.toNat + 1 := by
    have small := ofA.lt
    rw [UInt32.toNat_add, UInt32.toNat_sub_of_le _ _ ordered]
    exact Nat.mod_eq_of_lt (by simp; omega)
  have range : extractBitRange a.value (high - low + 1) low
      = ((x.extractLsb high.toNat low.toNat).toNat : Int) := by
    rw [ofA.value, extractBitRange_natCast _ _ _ (by rw [count]; have := ofA.lt; omega), count,
      BitVec.extractLsb_toNat, pow_add, Nat.mod_mul_right_div_self, Nat.shiftRight_eq_div_pow]
  rw [extract, range]
  exact represents_ofInteger_natCast count (Nat.mod_eq_of_lt (BitVec.isLt _))

theorem signBit_eq (pos : 0 < n) (ofA : Represents a x)
    : extractBitRange a.value 1 (a.size - 1) = if x.msb then 1 else 0 := by
  have small := ofA.lt
  have position := toNat_sub_one ofA.size pos
  have count : n - 1 + 1 = n := by omega
  rw [ofA.value, extractBitRange_natCast _ _ _ (by rw [position, UInt32.toNat_one]; omega), position,
    UInt32.toNat_one, count, Nat.mod_eq_of_lt x.isLt, BitVec.msb_eq_decide]
  have upper : x.toNat < 2 * 2 ^ (n - 1) := by
    rw [← Nat.pow_succ', Nat.succ_eq_add_one, count]
    exact x.isLt
  by_cases negative : 2 ^ (n - 1) ≤ x.toNat
  · have quotient : x.toNat / 2 ^ (n - 1) = 1 := Nat.div_eq_of_lt_le (by omega) (by omega)
    simp [negative, quotient]
  · have quotient : x.toNat / 2 ^ (n - 1) = 0 := Nat.div_eq_of_lt (by omega)
    simp [negative, quotient]

theorem toSignedInteger_eq (pos : 0 < n) (ofA : Represents a x) : a.toSignedInteger = x.toInt := by
  have small := ofA.lt
  have position := toNat_sub_one ofA.size pos
  have count : n - 1 + 1 = n := by omega
  have low : extractBitRange a.value (a.size - 1) 0 = ((x.toNat % 2 ^ (n - 1) : Nat) : Int) := by
    rw [ofA.value, extractBitRange_natCast _ _ _ (by rw [position, UInt32.toNat_zero]; omega), position]
    simp
  have double : 2 ^ n = 2 * 2 ^ (n - 1) := by rw [← Nat.pow_succ', Nat.succ_eq_add_one, count]
  have upper := x.isLt
  rw [toSignedInteger, low, signBit_eq pos ofA, multiplyByPow2, position, BitVec.toInt_eq_msb_cond,
    BitVec.msb_eq_decide]
  by_cases negative : 2 ^ (n - 1) ≤ x.toNat
  · have remainder : x.toNat % 2 ^ (n - 1) = x.toNat - 2 ^ (n - 1) := by
      rw [Nat.mod_eq_sub_mod negative, Nat.mod_eq_of_lt (by omega)]
    simp only [negative, remainder, decide_true, if_true]
    push_cast [negative, double]
    ring
  · have remainder : x.toNat % 2 ^ (n - 1) = x.toNat := Nat.mod_eq_of_lt (by omega)
    simp [negative, remainder]

theorem represents_zeroExtend {k : UInt32} (ofA : Represents a x) (fits : n + k.toNat < 2 ^ 32)
    : Represents (a.zeroExtend k) (x.zeroExtend (n + k.toNat)) := by
  rw [zeroExtend, ofA.value]
  refine represents_of_bits ?_ (fun i below => ?_)
  · rw [UInt32.toNat_add, ofA.size, Nat.mod_eq_of_lt fits]
  · rw [BitVec.testBit_toNat, BitVec.getLsbD_setWidth]
    simp [below]

/-- Sign extension, by cases on the sign. -/
theorem represents_signExtend {k : UInt32} (pos : 0 < n) (ofA : Represents a x)
    (fits : n + k.toNat < 2 ^ 32)
    : Represents (a.signExtend k) (x.signExtend (n + k.toNat)) := by
  have sameSize : (a.size + k).toNat = n + k.toNat := by
    rw [UInt32.toNat_add, ofA.size, Nat.mod_eq_of_lt fits]
  rw [signExtend]
  simp only [signBit_eq pos ofA]
  cases sign : x.msb with
  | false =>
      rw [if_pos (by simp), ofA.value]
      refine represents_of_bits sameSize (fun i below => ?_)
      rw [BitVec.testBit_toNat, BitVec.getLsbD_signExtend, sign]
      by_cases inside : i < n
      · simp [inside, below]
      · simp [inside, below, BitVec.getLsbD_of_ge x i (Nat.le_of_not_lt inside)]
  | true =>
      rw [if_neg (by simp), ofA.value]
      obtain ⟨res, isRes, bits⟩ := oneExtend_natCast x.toNat a.size k (by rw [ofA.size]; exact fits)
      rw [isRes]
      refine represents_of_bits sameSize (fun i below => ?_)
      rw [bits, BitVec.testBit_toNat, BitVec.getLsbD_signExtend, sign, ofA.size]
      by_cases inside : i < n
      · simp [inside, below]
      · simp [inside, below, Nat.le_of_not_lt inside]

-- Shifts

theorem represents_zero (sameSize : size.toNat = n)
    : Represents (ofInteger size 0) (0#n) :=
  represents_ofInteger sameSize (by simp)

/-- A shift amount that is not cut is a number of bits. -/
theorem shiftAmount_eq (ofA : Represents a x) (small : y.toNat ≤ n)
    : (toUnsignedInt y.toNat).toNat = y.toNat :=
  toUnsignedInt_natCast _ (Nat.lt_of_le_of_lt small ofA.lt)

theorem represents_leftShift (ofA : Represents a x) (ofB : Represents b y)
    : Represents (a.leftShift b) (x <<< y) := by
  rw [leftShift, ofB.value, ofA.size, BitVec.shiftLeft_eq']
  split
  · next large =>
      have tooFar : n ≤ y.toNat := by omega
      rw [BitVec.shiftLeft_eq_zero tooFar]
      exact represents_zero ofA.size
  · next small =>
      split
      · next zero =>
          have isZero : y.toNat = 0 := by omega
          rw [isZero, BitVec.shiftLeft_zero]
          exact ofA
      · rw [ofA.value, multiplyByPow2, shiftAmount_eq ofA (by omega)]
        have product : (x.toNat : Int) * 2 ^ y.toNat = ((x.toNat * 2 ^ y.toNat : Nat) : Int) := by
          push_cast
          rfl
        rw [product]
        refine represents_ofInteger_natCast ofA.size ?_
        rw [BitVec.toNat_shiftLeft, Nat.shiftLeft_eq]

theorem represents_logicalRightShift (ofA : Represents a x) (ofB : Represents b y)
    : Represents (a.logicalRightShift b) (x >>> y) := by
  rw [logicalRightShift, ofB.value, ofA.size, BitVec.ushiftRight_eq']
  split
  · next large =>
      have tooFar : n ≤ y.toNat := by omega
      rw [BitVec.ushiftRight_eq_zero tooFar]
      exact represents_zero ofA.size
  · next small =>
      have quotient : (x.toNat : Int) / 2 ^ y.toNat = ((x >>> y.toNat).toNat : Int) := by
        rw [BitVec.toNat_ushiftRight, Nat.shiftRight_eq_div_pow]
        push_cast
        rfl
      rw [ofA.value, divByPow2, shiftAmount_eq ofA (by omega), quotient]
      exact represents_ofInteger_natCast ofA.size (Nat.mod_eq_of_lt (BitVec.isLt _))

/-- The bits of a shift by at least the size are all the sign. -/
theorem sshiftRight_of_ge {k : Nat} (tooFar : n ≤ k)
    : x.sshiftRight k = if x.msb then BitVec.allOnes n else 0#n := by
  refine BitVec.eq_of_getLsbD_eq (fun i below => ?_)
  have outside : ¬k + i < n := by omega
  rw [BitVec.getLsbD_sshiftRight, if_neg outside]
  cases x.msb <;> simp [below]

/-- One less than a multiple of the size of the range. -/
theorem represents_minus_one (sameSize : size.toNat = n)
    : Represents (ofInteger size (multiplyByPow2 size.toNat size - 1)) (BitVec.allOnes n) := by
  have multiple : BitVec.ofInt n (2 ^ n) = 0#n := by
    refine BitVec.eq_of_toNat_eq ?_
    rw [BitVec.toNat_ofInt]
    simp
  refine represents_ofInteger sameSize ?_
  rw [multiplyByPow2, sameSize, sub_eq_add_neg, BitVec.ofInt_add, BitVec.ofInt_mul, multiple,
    BitVec.mul_zero, BitVec.zero_add, ← BitVec.neg_one_eq_allOnes, BitVec.ofInt_neg]
  rfl

theorem represents_arithRightShift (pos : 0 < n) (ofA : Represents a x) (ofB : Represents b y)
    : Represents (a.arithRightShift b) (x.sshiftRight' y) := by
  rw [arithRightShift, BitVec.sshiftRight_eq']
  simp only [ofB.value, signBit_eq pos ofA, ofA.size]
  split
  · next large =>
      rw [sshiftRight_of_ge (by omega)]
      cases x.msb with
      | false => exact represents_zero ofA.size
      | true =>
          have ones := represents_minus_one ofA.size
          rwa [ofA.size] at ones
  · next small =>
      have amount : (toUnsignedInt y.toNat).toNat = y.toNat := shiftAmount_eq ofA (by omega)
      split
      · next zero =>
          have isZero : y.toNat = 0 := by omega
          rw [isZero, BitVec.sshiftRight_zero]
          exact ofA
      · have quotient : divByPow2 a.value (toUnsignedInt y.toNat)
            = ((x.toNat / 2 ^ y.toNat : Nat) : Int) := by
          rw [ofA.value, divByPow2, amount]
          push_cast
          rfl
        rw [quotient]
        cases sign : x.msb with
        | false =>
            rw [if_pos (by simp)]
            refine represents_ofInteger_natCast ofA.size ?_
            rw [BitVec.toNat_sshiftRight_of_msb_false sign, Nat.shiftRight_eq_div_pow]
            exact Nat.mod_eq_of_lt (Nat.lt_of_le_of_lt (Nat.div_le_self ..) x.isLt)
        | true =>
            have bound : y.toNat ≤ n := by omega
            have rest : (a.size - toUnsignedInt y.toNat).toNat = n - y.toNat := by
              rw [UInt32.toNat_sub_of_le _ _ (by
                rw [UInt32.le_iff_toNat_le, amount, ofA.size]; exact bound), amount, ofA.size]
            have upTo : n - y.toNat + y.toNat = n := Nat.sub_add_cancel bound
            obtain ⟨res, isRes, bits⟩ := oneExtend_natCast (x.toNat / 2 ^ y.toNat)
              (a.size - toUnsignedInt y.toNat) (toUnsignedInt y.toNat)
              (by rw [rest, amount, upTo]; exact ofA.lt)
            rw [if_neg (by simp), isRes]
            refine represents_of_bits ofA.size (fun i below => ?_)
            rw [bits, rest, amount, upTo, BitVec.getLsbD_sshiftRight, sign, Nat.testBit_div_two_pow,
              BitVec.testBit_toNat]
            by_cases inside : y.toNat + i < n
            · have notSign : ¬n - y.toNat ≤ i := by omega
              simp [inside, notSign, below, Nat.add_comm i]
            · have isSign : n - y.toNat ≤ i := by omega
              simp [inside, isSign, below]

theorem represents_mkOnes (sameSize : size.toNat = n) (pos : 0 < n)
    : Represents (mkOnes size) (BitVec.allOnes n) := by
  have count : 1 + (size - 1) = size := by rw [UInt32.add_comm, UInt32.sub_add_cancel]
  have isExtended : mkOnes size = ofInteger (1 + (size - 1)) (oneExtend 1 1 (size - 1)) := rfl
  rw [isExtended, count]
  exact represents_oneExtend_one sameSize pos

theorem represents_mkMinSigned (sameSize : size.toNat = n) (pos : 0 < n)
    : Represents (mkMinSigned size) (BitVec.intMin n) := by
  refine ⟨sameSize, ?_⟩
  have bit : Integer.setBit ((0 : Nat) : Int) (n - 1) true = ((0 ||| 2 ^ (n - 1) : Nat) : Int) :=
    setBit_natCast 0 (n - 1)
  rw [Nat.zero_or] at bit
  rw [BitVec.toNat_intMin_of_pos pos, ← bit]
  simp only [mkMinSigned, setBit, ofSize, toNat_sub_one sameSize pos]
  rfl

theorem represents_mkMaxSigned (sameSize : size.toNat = n) (pos : 0 < n)
    : Represents (mkMaxSigned size) (BitVec.intMax n) := by
  have complement := represents_not (represents_mkMinSigned sameSize pos)
  have isMax : ~~~BitVec.intMin n = BitVec.intMax n := by
    refine BitVec.eq_of_toNat_eq ?_
    rw [BitVec.toNat_not, BitVec.toNat_intMin_of_pos pos, BitVec.toNat_intMax]
    have double : 2 ^ n = 2 * 2 ^ (n - 1) := by
      rw [← Nat.pow_succ', Nat.succ_eq_add_one, Nat.sub_add_cancel pos]
    omega
  rwa [isMax] at complement

-- Values that can be built

def InRange (a : BitVector) : Prop := 0 ≤ a.value ∧ a.value < 2 ^ a.size.toNat

/-- Values that the constructors and operations lead to. Numerals have digits of their base and a
size that a machine word holds, and bits are set inside the size. -/
inductive Built : BitVector → Prop
  | ofInteger (size : UInt32) (val : Int) : Built (ofInteger size val)
  | ofSize (size : UInt32) : Built (ofSize size)
  | ofUInt32 (size z : UInt32) : Built (ofUInt32 size z)
  | ofUInt64 (size : UInt32) (z : UInt64) : Built (ofUInt64 size z)
  | ofBitVector (size : UInt32) {q : BitVector} : Built q → Built (ofBitVector size q)
  | ofNumeral {num : List Nat} {base : Nat} (isBase : base = 2 ∨ base = 10 ∨ base = 16)
      (digits : ∀ digit ∈ num, digit < base) (fits : numeralSize num base < 2 ^ 32)
      : Built (ofNumeral num base)
  | setBit {a : BitVector} (i : UInt32) (value : Bool) (inside : i < a.size)
      : Built a → Built (a.setBit i value)
  | concat {a b : BitVector} : Built a → Built b → Built (a.concat b)
  | extract {a : BitVector} (high low : UInt32) : Built a → Built (a.extract high low)
  | xor {a b : BitVector} : Built a → Built b → Built (a.xor b)
  | or {a b : BitVector} : Built a → Built b → Built (a.or b)
  | and {a b : BitVector} : Built a → Built b → Built (a.and b)
  | not {a : BitVector} : Built a → Built a.not
  | add {a b : BitVector} : Built a → Built b → Built (a.add b)
  | sub {a b : BitVector} : Built a → Built b → Built (a.sub b)
  | neg {a : BitVector} : Built a → Built a.neg
  | mul {a b : BitVector} : Built a → Built b → Built (a.mul b)
  | unsignedDivTotal {a b : BitVector} : Built a → Built b → Built (a.unsignedDivTotal b)
  | unsignedRemTotal {a b : BitVector} : Built a → Built b → Built (a.unsignedRemTotal b)
  | zeroExtend {a : BitVector} (n : UInt32) : Built a → Built (a.zeroExtend n)
  | signExtend {a : BitVector} (n : UInt32) : Built a → Built (a.signExtend n)
  | leftShift {a b : BitVector} : Built a → Built b → Built (a.leftShift b)
  | logicalRightShift {a b : BitVector} : Built a → Built b → Built (a.logicalRightShift b)
  | arithRightShift {a b : BitVector} : Built a → Built b → Built (a.arithRightShift b)
  | mkZero (size : UInt32) : Built (mkZero size)
  | mkOne (size : UInt32) : Built (mkOne size)
  | mkOnes (size : UInt32) : Built (mkOnes size)
  | mkMinSigned (size : UInt32) (pos : 0 < size) : Built (mkMinSigned size)
  | mkMaxSigned (size : UInt32) : Built (mkMaxSigned size)

theorem inRange_ofInteger (size : UInt32) (val : Int) : InRange (ofInteger size val) :=
  ⟨modByPow2_nonneg val size, modByPow2_lt val size⟩

theorem inRange_ofSize (size : UInt32) : InRange (ofSize size) := ⟨le_rfl, by simp [ofSize]⟩

theorem InRange.represents (inRange : InRange a) : ∃ x : BitVec a.size.toNat, Represents a x := by
  refine ⟨BitVec.ofInt a.size.toNat a.value, rfl, ?_⟩
  rw [BitVec.toNat_ofInt, Int.toNat_of_nonneg (Int.emod_nonneg _ (by positivity))]
  refine (Int.emod_eq_of_lt inRange.1 ?_).symm
  have upper := inRange.2
  exact_mod_cast upper

theorem Represents.inRange (ofA : Represents a x) : InRange a := by
  refine ⟨ofA.value ▸ Int.natCast_nonneg _, ?_⟩
  rw [ofA.value, ofA.size]
  exact_mod_cast x.isLt

theorem InRange.setBit {i : UInt32} (inRange : InRange a) (inside : i < a.size) (value : Bool)
    : InRange (a.setBit i value) := by
  obtain ⟨x, ofA⟩ := inRange.represents
  have below : i.toNat < a.size.toNat := inside
  cases value with
  | false =>
      have cleared : (a.setBit i false).value = ((x.toNat.ldiff (2 ^ i.toNat) : Nat) : Int) := by
        rw [BitVector.setBit, ofA.value, clearBit_natCast]
      have smaller : x.toNat.ldiff (2 ^ i.toNat) < 2 ^ a.size.toNat := by
        refine Nat.lt_pow_two_of_testBit _ (fun j outside => ?_)
        rw [Nat.testBit_ldiff, BitVec.testBit_toNat, BitVec.getLsbD_of_ge x j outside, Bool.false_and]
      exact ⟨cleared ▸ Int.natCast_nonneg _, by rw [cleared]; exact_mod_cast smaller⟩
  | true =>
      have changed : (a.setBit i true).value = ((x.toNat ||| 2 ^ i.toNat : Nat) : Int) := by
        rw [BitVector.setBit, ofA.value, setBit_natCast]
      have smaller : x.toNat ||| 2 ^ i.toNat < 2 ^ a.size.toNat :=
        Nat.or_lt_two_pow x.isLt (Nat.pow_lt_pow_right (by decide) below)
      exact ⟨changed ▸ Int.natCast_nonneg _, by rw [changed]; exact_mod_cast smaller⟩

/-- The number of a numeral and its bound. -/
theorem ofDigits_natCast (base : Nat) {num : List Nat} (digits : ∀ digit ∈ num, digit < base)
    : ∃ value : Nat, ofDigits base num = value ∧ value < base ^ num.length := by
  suffices every : ∀ start : Nat, ∃ value : Nat,
      num.foldl (fun value (digit : Nat) => value * (base : Int) + digit) (start : Int) = value
        ∧ value < (start + 1) * base ^ num.length by
    obtain ⟨value, isValue, bound⟩ := every 0
    exact ⟨value, isValue, by simpa using bound⟩
  induction num with
  | nil => exact fun start => ⟨start, rfl, by simp⟩
  | cons digit rest ih =>
      intro start
      obtain ⟨value, isValue, bound⟩ := ih (fun other member => digits other (by simp [member]))
        (start * base + digit)
      have small : start * base + digit + 1 ≤ (start + 1) * base := by
        have isDigit := digits digit (by simp)
        rw [Nat.succ_mul]
        omega
      refine ⟨value, ?_, ?_⟩
      · rw [List.foldl_cons, ← isValue]
        push_cast
        rfl
      · calc
          value < (start * base + digit + 1) * base ^ rest.length := bound
          _ ≤ (start + 1) * base * base ^ rest.length := Nat.mul_le_mul_right _ small
          _ = (start + 1) * base ^ (digit :: rest).length := by
            rw [List.length_cons, pow_succ']
            ring

theorem inRange_ofNumeral {num : List Nat} {base : Nat} (isBase : base = 2 ∨ base = 10 ∨ base = 16)
    (digits : ∀ digit ∈ num, digit < base) (fits : numeralSize num base < 2 ^ 32)
    : InRange (ofNumeral num base) := by
  obtain ⟨value, isValue, bound⟩ := ofDigits_natCast base digits
  have size : (ofNumeral num base).size.toNat = numeralSize num base := by
    rw [ofNumeral, UInt32.toNat_ofNat', Nat.mod_eq_of_lt fits]
  have small : value < 2 ^ numeralSize num base := by
    rcases isBase with rfl | rfl | rfl
    · exact bound
    · rw [numeralSize, isValue, length]
      split
      · next zero =>
          have isZero : value = 0 := by simpa using zero
          simp [isZero]
      · exact Nat.lt_size_self value
    · rw [numeralSize, Nat.mul_comm, pow_mul]
      exact bound
  have holds : (ofNumeral num base).value = value := isValue
  rw [InRange, holds, size]
  exact ⟨Int.natCast_nonneg _, by exact_mod_cast small⟩

theorem Built.inRange (built : Built a) : InRange a := by
  induction built with
  | ofSize size => exact inRange_ofSize size
  | ofNumeral isBase digits fits => exact inRange_ofNumeral isBase digits fits
  | setBit i value inside _ ih => exact ih.setBit inside value
  | unsignedDivTotal | unsignedRemTotal | signExtend | logicalRightShift =>
      simp only [BitVector.unsignedDivTotal, BitVector.unsignedRemTotal, BitVector.signExtend,
        BitVector.logicalRightShift]
      split <;> exact inRange_ofInteger _ _
  | leftShift _ _ ofA _ =>
      rw [BitVector.leftShift]
      split
      · exact inRange_ofInteger _ _
      · split
        · exact ofA
        · exact inRange_ofInteger _ _
  | arithRightShift _ _ ofA _ =>
      simp only [BitVector.arithRightShift]
      split
      · split <;> exact inRange_ofInteger _ _
      · split
        · exact ofA
        · split <;> exact inRange_ofInteger _ _
  | mkZero size => exact inRange_ofSize size
  | mkOnes size =>
      simp only [BitVector.mkOnes, BitVector.signExtend]
      split <;> exact inRange_ofInteger _ _
  | mkMinSigned size pos => exact (represents_mkMinSigned rfl pos).inRange
  | ofInteger | ofUInt32 | ofUInt64 | ofBitVector | concat | extract | xor | or | and | not | add
  | sub | neg | mul | zeroExtend | mkOne | mkMaxSigned => exact inRange_ofInteger _ _

/-- The operations on values that represent bit-vectors of a size represent those of SMT-LIB.
Sizes of results fit into a machine word, as typing demands. -/
structure SmtLib {n : Nat} (a b : BitVector) (x y : BitVec n) : Prop where
  concat {m : Nat} {c : BitVector} {z : BitVec m} (ofC : Represents c z) (fits : n + m < 2 ^ 32)
    : Represents (a.concat c) (x ++ z)
  extract {high low : UInt32} (ordered : low ≤ high) (inside : high.toNat < n)
    : Represents (a.extract high low) (x.extractLsb high.toNat low.toNat)
  xor : Represents (a.xor b) (x ^^^ y)
  or : Represents (a.or b) (x ||| y)
  and : Represents (a.and b) (x &&& y)
  not : Represents a.not (~~~x)
  add : Represents (a.add b) (x + y)
  sub : Represents (a.sub b) (x - y)
  neg : Represents a.neg (-x)
  mul : Represents (a.mul b) (x * y)
  unsignedDivTotal : Represents (a.unsignedDivTotal b) (x.smtUDiv y)
  unsignedRemTotal : Represents (a.unsignedRemTotal b) (x % y)
  zeroExtend {k : UInt32} (fits : n + k.toNat < 2 ^ 32)
    : Represents (a.zeroExtend k) (x.zeroExtend (n + k.toNat))
  signExtend {k : UInt32} (fits : n + k.toNat < 2 ^ 32)
    : Represents (a.signExtend k) (x.signExtend (n + k.toNat))
  leftShift : Represents (a.leftShift b) (x <<< y)
  logicalRightShift : Represents (a.logicalRightShift b) (x >>> y)
  arithRightShift : Represents (a.arithRightShift b) (x.sshiftRight' y)
  lessThan : a.lessThan b = x.ult y
  lessThanEq : a.lessThanEq b = x.ule y
  greaterThan : a.greaterThan b = y.ult x
  greaterThanEq : a.greaterThanEq b = y.ule x
  unsignedLessThan : a.unsignedLessThan b = x.ult y
  unsignedLessThanEq : a.unsignedLessThanEq b = x.ule y
  signedLessThan : a.signedLessThan b = x.slt y
  signedLessThanEq : a.signedLessThanEq b = x.sle y
  toSignedInteger : a.toSignedInteger = x.toInt

theorem lessThan_eq (ofA : Represents a x) (ofB : Represents b y)
    : decide (a.value < b.value) = x.ult y := by
  rw [ofA.value, ofB.value, BitVec.ult]
  simp

theorem lessThanEq_eq (ofA : Represents a x) (ofB : Represents b y)
    : decide (a.value ≤ b.value) = x.ule y := by
  rw [ofA.value, ofB.value, BitVec.ule]
  simp

/-- All operations are those of bit-vectors, by the lemma of each. -/
theorem Represents.smtLib (pos : 0 < n) (ofA : Represents a x) (ofB : Represents b y)
    : SmtLib a b x y where
  concat := represents_concat ofA
  extract := represents_extract ofA
  xor := represents_xor ofA ofB
  or := represents_or ofA ofB
  and := represents_and ofA ofB
  not := represents_not ofA
  add := represents_add ofA ofB
  sub := represents_sub ofA ofB
  neg := represents_neg ofA
  mul := represents_mul ofA ofB
  unsignedDivTotal := represents_unsignedDivTotal pos ofA ofB
  unsignedRemTotal := represents_unsignedRemTotal ofA ofB
  zeroExtend := represents_zeroExtend ofA
  signExtend := represents_signExtend pos ofA
  leftShift := represents_leftShift ofA ofB
  logicalRightShift := represents_logicalRightShift ofA ofB
  arithRightShift := represents_arithRightShift pos ofA ofB
  lessThan := lessThan_eq ofA ofB
  lessThanEq := lessThanEq_eq ofA ofB
  greaterThan := lessThan_eq ofB ofA
  greaterThanEq := lessThanEq_eq ofB ofA
  unsignedLessThan := lessThan_eq ofA ofB
  unsignedLessThanEq := lessThanEq_eq ofA ofB
  signedLessThan := by
    rw [BitVector.signedLessThan, toSignedInteger_eq pos ofA, toSignedInteger_eq pos ofB,
      BitVec.slt_eq_decide]
  signedLessThanEq := by
    rw [BitVector.signedLessThanEq, toSignedInteger_eq pos ofA, toSignedInteger_eq pos ofB,
      BitVec.sle_eq_decide]
  toSignedInteger := toSignedInteger_eq pos ofA

/-- Whatever is built is in the range of its size, and the operations on it are those of SMT-LIB on the vectors that it
represents. By the lemma of each operation on represented vectors.
-/
theorem bitVector_implements_smtLib
    : (∀ a, Built a → InRange a ∧ ∃ x : BitVec a.size.toNat, Represents a x)
      ∧ (∀ a b, Built a → Built b → ∀ (n : Nat) (x y : BitVec n), 1 ≤ n →
        Represents a x → Represents b y → SmtLib a b x y)
      ∧ ∀ size : UInt32, 1 ≤ size →
        Represents (mkOnes size) (BitVec.allOnes size.toNat)
        ∧ Represents (mkMinSigned size) (BitVec.intMin size.toNat)
        ∧ Represents (mkMaxSigned size) (BitVec.intMax size.toNat) := by
  refine ⟨fun a built => ⟨built.inRange, built.inRange.represents⟩,
    fun a b _ _ n x y pos ofA ofB => ofA.smtLib pos ofB, fun size pos => ?_⟩
  exact ⟨represents_mkOnes rfl pos, represents_mkMinSigned rfl pos, represents_mkMaxSigned rfl pos⟩

/-- Shifting the smallest number of four bits by four and by nine. -/
theorem bitVector_implements_smtLib_four_bits
    : Represents ((mkMinSigned 4).arithRightShift (ofUInt32 4 4)) (BitVec.allOnes 4)
      ∧ Represents ((mkMinSigned 4).arithRightShift (ofUInt32 4 9)) (BitVec.allOnes 4)
      ∧ (mkMinSigned 4).signedLessThan (ofUInt32 4 7) = true
      ∧ Represents (mkOnes 1) (BitVec.allOnes 1) := by
  have isMin := (bitVector_implements_smtLib.2.2 4 (by decide)).2.1
  have byFour := bitVector_implements_smtLib.2.1 _ _ (.mkMinSigned 4 (by decide)) (.ofUInt32 4 4) 4
    (BitVec.intMin 4) 4#4 (by decide) isMin ⟨rfl, by decide⟩
  have byNine := bitVector_implements_smtLib.2.1 _ _ (.mkMinSigned 4 (by decide)) (.ofUInt32 4 9) 4
    (BitVec.intMin 4) 9#4 (by decide) isMin ⟨rfl, by decide⟩
  have toSeven := bitVector_implements_smtLib.2.1 _ _ (.mkMinSigned 4 (by decide)) (.ofUInt32 4 7) 4
    (BitVec.intMin 4) 7#4 (by decide) isMin ⟨rfl, by decide⟩
  exact ⟨byFour.arithRightShift, byNine.arithRightShift, toSeven.signedLessThan,
    (bitVector_implements_smtLib.2.2 1 (by decide)).1⟩

end BitVector

end Ava6.Util

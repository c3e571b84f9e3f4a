import Mathlib.Data.BitVec

/-! Bit-vectors that carry their width, so that vectors of different widths stand in one list. Two of them are
equal when their widths and all their bits are.
-/

namespace Ava6.Library

structure Vec where
  width : Nat
  bits : BitVec width
  deriving DecidableEq, Repr

namespace Vec

/-- Positions from the width on hold no bit. -/
def bit (v : Vec) (i : Nat) : Bool := v.bits.getLsbD i

def toNat (v : Vec) : Nat := v.bits.toNat

def toInt (v : Vec) : Int := v.bits.toInt

def empty : Vec := ⟨0, 0#0⟩

/-- The first vector has the most significant bits. -/
def append (a b : Vec) : Vec := ⟨a.width + b.width, a.bits ++ b.bits⟩

def concat (vs : List Vec) : Vec := vs.foldr append empty

def extract (high low : Nat) (a : Vec) : Vec := ⟨high - low + 1, a.bits.extractLsb high low⟩

def signExtend (amount : Nat) (a : Vec) : Vec := ⟨a.width + amount, a.bits.signExtend (a.width + amount)⟩

def zeroExtend (amount : Nat) (a : Vec) : Vec := ⟨a.width + amount, a.bits.setWidth (a.width + amount)⟩

/-- An operation on two vectors of one width. -/
def zipWith (op : (w : Nat) → BitVec w → BitVec w → BitVec w) (a b : Vec) : Vec :=
  ⟨a.width, op a.width a.bits (b.bits.setWidth a.width)⟩

theorem ext_bit {a b : Vec} (sameWidth : a.width = b.width) (sameBits : ∀ i, a.bit i = b.bit i) : a = b := by
  obtain ⟨w, x⟩ := a
  obtain ⟨w', y⟩ := b
  cases sameWidth
  exact congrArg (Vec.mk w) (BitVec.eq_of_getLsbD_eq (fun i _ => sameBits i))

theorem bit_of_ge (a : Vec) {i : Nat} (outside : a.width ≤ i) : a.bit i = false :=
  BitVec.getLsbD_of_ge a.bits i outside

@[simp]
theorem width_append (a b : Vec) : (a.append b).width = a.width + b.width := rfl

@[simp]
theorem width_extract (high low : Nat) (a : Vec) : (a.extract high low).width = high - low + 1 := rfl

@[simp]
theorem width_signExtend (amount : Nat) (a : Vec) : (a.signExtend amount).width = a.width + amount := rfl

@[simp]
theorem width_zipWith (op : (w : Nat) → BitVec w → BitVec w → BitVec w) (a b : Vec)
    : (zipWith op a b).width = a.width :=
  rfl

theorem bit_append (a b : Vec) (i : Nat)
    : (a.append b).bit i = if i < b.width then b.bit i else a.bit (i - b.width) :=
  BitVec.getLsbD_append

theorem bit_extract (high low : Nat) (a : Vec) (i : Nat)
    : (a.extract high low).bit i = (decide (i ≤ high - low) && a.bit (low + i)) := by
  rw [bit, extract, BitVec.getLsbD_extract]
  rfl

theorem bit_signExtend (amount : Nat) (a : Vec) (i : Nat)
    : (a.signExtend amount).bit i
      = if i < a.width then a.bit i else (decide (i < a.width + amount) && a.bit (a.width - 1)) := by
  rw [bit, signExtend, BitVec.getLsbD_signExtend]
  by_cases inside : i < a.width
  · simp [inside, Nat.lt_add_right amount inside, bit]
  · simp [inside, bit, BitVec.msb_eq_getLsbD_last]

theorem bit_setWidth {w i : Nat} (b : Vec) (inside : i < w) : (b.bits.setWidth w).getLsbD i = b.bit i := by
  rw [BitVec.getLsbD_setWidth, decide_eq_true inside, Bool.true_and]
  rfl

/-- An operation that acts on each bit by itself. -/
def Bitwise (op : (w : Nat) → BitVec w → BitVec w → BitVec w) (f : Bool → Bool → Bool) : Prop :=
  ∀ w (x y : BitVec w) i, i < w → (op w x y).getLsbD i = f (x.getLsbD i) (y.getLsbD i)

theorem bitwise_and : Bitwise (fun _ x y => x &&& y) and := fun _ _ _ _ _ => BitVec.getLsbD_and

theorem bitwise_or : Bitwise (fun _ x y => x ||| y) or := fun _ _ _ _ _ => BitVec.getLsbD_or

theorem bitwise_xor : Bitwise (fun _ x y => x ^^^ y) xor := fun _ _ _ _ _ => BitVec.getLsbD_xor

theorem Bitwise.bit_zipWith {op : (w : Nat) → BitVec w → BitVec w → BitVec w} {f : Bool → Bool → Bool}
    (bitwise : Bitwise op f) {a b : Vec} {i : Nat} (inside : i < a.width)
    : (zipWith op a b).bit i = f (a.bit i) (b.bit i) := by
  rw [bit, zipWith, bitwise _ _ _ _ inside, bit_setWidth b inside]
  rfl

@[simp]
theorem append_empty (a : Vec) : a.append empty = a := by
  refine ext_bit rfl (fun i => ?_)
  simp [bit_append, empty]

theorem append_assoc (a b c : Vec) : (a.append b).append c = a.append (b.append c) := by
  refine ext_bit (Nat.add_assoc _ _ _) (fun i => ?_)
  simp only [bit_append, width_append]
  by_cases inLast : i < c.width
  · simp [inLast, Nat.lt_add_left b.width inLast]
  · have same : i - c.width < b.width ↔ i < b.width + c.width := by omega
    simp only [inLast, if_false, same, Nat.sub_sub, Nat.add_comm c.width]

@[simp]
theorem concat_cons (v : Vec) (vs : List Vec) : concat (v :: vs) = v.append (concat vs) := rfl

theorem width_concat (vs : List Vec) : (concat vs).width = (vs.map width).sum := by
  induction vs with
  | nil => rfl
  | cons v vs ih => rw [concat_cons, width_append, ih, List.map_cons, List.sum_cons]

section Bitwise

variable {op : (w : Nat) → BitVec w → BitVec w → BitVec w} {f : Bool → Bool → Bool}

end Bitwise

theorem toNat_lt (a : Vec) : a.toNat < 2 ^ a.width := a.bits.isLt

theorem eq_iff_toNat {a b : Vec} (sameWidth : a.width = b.width) : a = b ↔ a.toNat = b.toNat := by
  obtain ⟨w, x⟩ := a
  obtain ⟨w', y⟩ := b
  cases sameWidth
  refine ⟨fun same => congrArg toNat same, fun same => ?_⟩
  exact congrArg (Vec.mk w) (BitVec.eq_of_toNat_eq same)

theorem toNat_append (a b : Vec) : (a.append b).toNat = a.toNat * 2 ^ b.width + b.toNat := by
  have disjoint := Nat.two_pow_add_eq_or_of_lt b.toNat_lt a.toNat
  rw [Nat.mul_comm a.toNat, disjoint, toNat, append, BitVec.toNat_append, Nat.shiftLeft_eq, Nat.mul_comm]
  rfl

theorem toNat_extract (high low : Nat) (a : Vec)
    : (a.extract high low).toNat = a.toNat / 2 ^ low % 2 ^ (high - low + 1) := by
  rw [toNat, extract, BitVec.extractLsb_toNat, Nat.shiftRight_eq_div_pow]
  rfl

/-- The least significant bits. -/
theorem toNat_extract_zero (a : Vec) {n : Nat} (positive : 0 < n)
    : (a.extract (n - 1) 0).toNat = a.toNat % 2 ^ n := by
  rw [toNat_extract, Nat.pow_zero, Nat.div_one, Nat.sub_zero, Nat.sub_add_cancel positive]

/-- The most significant bits. -/
theorem toNat_extract_top (a : Vec) {low : Nat} (inside : low < a.width)
    : (a.extract (a.width - 1) low).toNat = a.toNat / 2 ^ low := by
  rw [toNat_extract]
  refine Nat.mod_eq_of_lt (Nat.div_lt_of_lt_mul ?_)
  rw [← Nat.pow_add, show low + (a.width - 1 - low + 1) = a.width by omega]
  exact a.toNat_lt

theorem toNat_zeroExtend (amount : Nat) (a : Vec) : (a.zeroExtend amount).toNat = a.toNat :=
  (BitVec.toNat_setWidth_of_le (Nat.le_add_right _ _))

/-- A vector whose sign bit is set moves up to the end of the range. -/
theorem toNat_signExtend (amount : Nat) (a : Vec)
    : (a.signExtend amount).toNat
      = if a.toNat < 2 ^ (a.width - 1) then a.toNat else a.toNat + (2 ^ (a.width + amount) - 2 ^ a.width) := by
  have sign : a.bits.msb = decide (2 ^ (a.width - 1) ≤ a.toNat) := by
    rw [BitVec.msb_eq_decide]
    rfl
  rw [toNat, signExtend, BitVec.toNat_signExtend, BitVec.toNat_setWidth_of_le (Nat.le_add_right _ _), sign]
  change a.toNat + _ = _
  by_cases small : a.toNat < 2 ^ (a.width - 1)
  · rw [decide_eq_false (Nat.not_le.mpr small), if_neg Bool.false_ne_true, if_pos small, Nat.add_zero]
  · rw [decide_eq_true (Nat.not_lt.mp small), if_pos rfl, if_neg small]

theorem bit_eq_testBit (a : Vec) (i : Nat) : a.bit i = a.toNat.testBit i := rfl

/-- The number of a vector is its signed number, up to multiples of the range. -/
theorem toNat_eq_emod (a : Vec) : (a.toNat : Int) = a.toInt % 2 ^ a.width := by
  have below : (a.toNat : Int) < (2 ^ a.width : Nat) := by exact_mod_cast a.toNat_lt
  have same : a.toInt % (2 ^ a.width : Nat) = a.toNat := by
    rw [toInt, BitVec.toInt_eq_toNat_bmod, Int.bmod_emod]
    exact Int.emod_eq_of_lt (Int.natCast_nonneg _) below
  rw [← same]
  push_cast
  rfl

/-- The sign bit. -/
def msb (a : Vec) : Bool := a.bits.msb

theorem toInt_eq (a : Vec) : a.toInt = a.toNat - if a.msb then (2 : Int) ^ a.width else 0 := by
  rw [toInt, BitVec.toInt_eq_msb_cond, msb, toNat]
  split
  · rw [Nat.cast_pow, Nat.cast_ofNat]
  · rw [sub_zero]

theorem toInt_bounds (a : Vec)
    : -(2 : Int) ^ (a.width - 1) ≤ a.toInt ∧ a.toInt < 2 ^ (a.width - 1) :=
  ⟨BitVec.le_toInt a.bits, BitVec.toInt_lt⟩

theorem toInt_signExtend (amount : Nat) (a : Vec) : (a.signExtend amount).toInt = a.toInt :=
  BitVec.toInt_signExtend_of_le (Nat.le_add_right _ _)

theorem toInt_of_small (a : Vec) (small : 2 * a.toNat < 2 ^ a.width) : a.toInt = a.toNat :=
  BitVec.toInt_eq_toNat_of_lt small

theorem toNat_zipWith_mul {a b : Vec} (sameWidth : b.width = a.width)
    : (zipWith (fun _ x y => x * y) a b).toNat = a.toNat * b.toNat % 2 ^ a.width := by
  obtain ⟨w, x⟩ := a
  obtain ⟨w', y⟩ := b
  cases sameWidth
  rw [zipWith, BitVec.setWidth_eq]
  exact BitVec.toNat_mul x y

/-- A product of vectors of one width. -/
theorem toInt_zipWith_mul {a b : Vec} (sameWidth : b.width = a.width)
    : (zipWith (fun _ x y => x * y) a b).toInt = (a.toInt * b.toInt).bmod (2 ^ a.width) := by
  obtain ⟨w, x⟩ := a
  obtain ⟨w', y⟩ := b
  cases sameWidth
  rw [zipWith, BitVec.setWidth_eq]
  exact BitVec.toInt_mul x y

theorem toNat_zipWith_sub_eq_zero_iff {a b : Vec} (sameWidth : b.width = a.width)
    : (zipWith (fun _ x y => x - y) a b).toNat = 0 ↔ a.toNat = b.toNat := by
  obtain ⟨w, x⟩ := a
  obtain ⟨w', y⟩ := b
  cases sameWidth
  rw [zipWith, BitVec.setWidth_eq, toNat, toNat, toNat, BitVec.toNat_inj, ← sub_eq_zero (a := x), ← BitVec.toNat_inj]
  exact Iff.rfl

theorem toInt_inj {a b : Vec} (sameWidth : a.width = b.width) : a.toInt = b.toInt ↔ a.toNat = b.toNat := by
  obtain ⟨w, x⟩ := a
  obtain ⟨w', y⟩ := b
  cases sameWidth
  exact BitVec.toInt_inj.trans BitVec.toNat_inj.symm

theorem toInt_eq_zero_iff (a : Vec) : a.toInt = 0 ↔ a.toNat = 0 := by
  rw [toInt, ← @BitVec.toInt_zero a.width, BitVec.toInt_inj, ← BitVec.toNat_inj, BitVec.toNat_zero]
  exact Iff.rfl

end Vec

end Ava6.Library

import Ava6.Bv.Bitblast.Utils

/-! The recursive divider of the bit-blaster. -/

namespace Ava6.Bv.Bitblast

open Ava6.Library.BitList

variable (v : Valuation)

/-- A choice between two vectors, bit by bit. -/
def iteBits (cond : Gate) (a b : Bits) : Bits := List.zipWith (mkIte cond) a b

theorem values_iteBits (cond : Gate) {a b : Bits} (same : a.length = b.length)
    : values v (iteBits cond a b) = if cond.eval v then values v a else values v b := by
  induction a generalizing b with
  | nil =>
    obtain rfl : b = [] := List.length_eq_zero_iff.mp same.symm
    simp [iteBits]
  | cons x a ih =>
    cases b with
    | nil => simp at same
    | cons y b =>
      have rest := ih (b := b) (by simpa using same)
      unfold iteBits at rest ⊢
      rw [List.zipWith_cons_cons, values_cons, rest, eval_mkIte]
      split <;> rfl

@[simp]
theorem length_iteBits (cond : Gate) {a b : Bits} (same : a.length = b.length)
    : (iteBits cond a b).length = a.length := by
  simp [iteBits, same]

/-- `q1[0] = mkIte(sign, q1[0], true)`. -/
def setLowest (sign : Gate) : Bits → Bits
  | [] => []
  | lowest :: rest => mkIte sign lowest mkTrue :: rest

/-- The part of the divider after the recursive call, which returned the quotient and the
remainder of half the dividend. -/
def uDivModStep (a b : Bits) (rest : Bits × Bits) : Bits × Bits :=
  let q1 := lshift rest.1 1
  let r1 := lshift rest.2 1
  let isOdd := mkIff (a.getD 0 mkFalse) mkTrue
  let oneIfOdd := mkIte isOdd mkTrue mkFalse
  let r1ShiftAdd := (rippleCarryAdder r1 (makeZero b.length) oneIfOdd).1
  let notB := negateBits b
  let rMinusB := rippleCarryAdder r1ShiftAdd notB mkTrue
  -- the carry-out is clear when the remainder is below the divisor
  let sign := mkNot rMinusB.2
  let quotient := setLowest sign q1
  let remainder := iteBits sign r1ShiftAdd rMinusB.1
  let aMinusB := rippleCarryAdder a notB mkTrue
  let aLtB := mkNot aMinusB.2
  (iteBits aLtB (makeZero quotient.length) quotient, iteBits aLtB a remainder)

/-- Quotient and remainder of the restoring divider. The recursion divides `a / 2` first; it
stops at width zero, or when all bits of `a` are the false constant. -/
def uDivModRec (a b : Bits) : Nat → Bits × Bits
  | 0 => (makeZero a.length, makeZero a.length)
  | recWidth + 1 =>
      if isZero a then (makeZero a.length, makeZero a.length)
      else uDivModStep a b (uDivModRec (rshift a 1) b recWidth)

/-- The carry-out of a subtraction is clear exactly when something was borrowed. -/
theorem subtract_cases {a b : Bits} (same : a.length = b.length)
    : ((mkNot (rippleCarryAdder a (negateBits b) mkTrue).2).eval v = true
        ∧ value (values v a) < value (values v b))
      ∨ ((mkNot (rippleCarryAdder a (negateBits b) mkTrue).2).eval v = false
        ∧ value (values v b) ≤ value (values v a)
        ∧ value (values v (rippleCarryAdder a (negateBits b) mkTrue).1)
          = value (values v a) - value (values v b)) := by
  have sum := value_subtract v a b same
  have length := length_rippleCarryAdder a (negateBits b) mkTrue (by simp [same])
  have bound := value_lt (values v (rippleCarryAdder a (negateBits b) mkTrue).1)
  have divisor := value_lt (values v b)
  have dividend := value_lt (values v a)
  rw [length_values, length] at bound
  rw [length_values, ← same] at divisor
  rw [length_values] at dividend
  rw [eval_mkNot]
  cases carry : (rippleCarryAdder a (negateBits b) mkTrue).2.eval v with
  | false =>
    rw [carry, Bool.toNat_false] at sum
    exact Or.inl ⟨rfl, by omega⟩
  | true =>
    rw [carry, Bool.toNat_true] at sum
    exact Or.inr ⟨rfl, by omega, by omega⟩

/-- One step of long division by two. -/
theorem div_mod_step {a b q r : Nat} (divisor : 0 < b) (quotient : a / 2 / b = q)
    (remainder : a / 2 % b = r)
    : (2 * r + a % 2 < b → a / b = 2 * q ∧ a % b = 2 * r + a % 2)
      ∧ (b ≤ 2 * r + a % 2 → a / b = 2 * q + 1 ∧ a % b = 2 * r + a % 2 - b) := by
  have half := Nat.div_add_mod (a / 2) b
  have whole := Nat.div_add_mod a 2
  have small := Nat.mod_lt (a / 2) divisor
  rw [quotient, remainder] at half
  rw [remainder] at small
  have total : a = b * (2 * q) + (2 * r + a % 2) := by
    calc a = 2 * (a / 2) + a % 2 := whole.symm
      _ = 2 * (b * q + r) + a % 2 := by rw [half]
      _ = b * (2 * q) + (2 * r + a % 2) := by ring
  constructor
  · intro fits
    have unique := (Nat.div_mod_unique divisor).mpr
      ⟨(Nat.add_comm _ _).trans total.symm, fits⟩
    exact unique
  · intro exceeds
    have again : (2 * r + a % 2 - b) + b * (2 * q + 1) = a := by
      have expand : b * (2 * q + 1) = b * (2 * q) + b := by ring
      omega
    exact (Nat.div_mod_unique divisor).mpr ⟨again, by omega⟩

theorem length_lshift_one (bits : Bits) (nonempty : 0 < bits.length)
    : (lshift bits 1).length = bits.length := by
  simp [lshift]
  omega

/-- The lowest bit of a doubled number is free for the quotient digit. -/
theorem value_setLowest (sign : Gate) (bits : Bits) (nonempty : 0 < bits.length)
    (room : 2 * value (values v bits) < 2 ^ bits.length)
    : value (values v (setLowest sign (lshift bits 1)))
      = 2 * value (values v bits) + (if sign.eval v then 0 else 1) := by
  have doubled := value_lshift_one v bits (List.length_pos_iff.mp nonempty) room
  obtain ⟨rest, shape⟩ : ∃ rest, lshift bits 1 = mkFalse :: rest := ⟨_, rfl⟩
  rw [shape, values_cons, value_cons, eval_mkFalse, Bool.toNat_false] at doubled
  rw [shape, setLowest, values_cons, value_cons, eval_mkIte, eval_mkFalse, eval_mkTrue]
  split <;> simp <;> omega

theorem length_setLowest (sign : Gate) (bits : Bits) : (setLowest sign bits).length = bits.length := by
  cases bits <;> rfl

theorem length_uDivModStep {a b : Bits} {rest : Bits × Bits} (same : a.length = b.length)
    (nonempty : 0 < a.length) (qLength : rest.1.length = a.length)
    (rLength : rest.2.length = a.length)
    : (uDivModStep a b rest).1.length = a.length ∧ (uDivModStep a b rest).2.length = a.length := by
  have shiftedLength := length_lshift_one rest.2 (by omega)
  have addedLength := length_rippleCarryAdder (lshift rest.2 1) (makeZero b.length)
    (mkIte (mkIff (a.getD 0 mkFalse) mkTrue) mkTrue mkFalse)
    (by simp [makeZero, shiftedLength, rLength, same])
  unfold uDivModStep
  dsimp only
  generalize (rippleCarryAdder (lshift rest.2 1) (makeZero b.length)
    (mkIte (mkIff (a.getD 0 mkFalse) mkTrue) mkTrue mkFalse)) = adder at *
  have adderLength : adder.1.length = b.length := by rw [addedLength, shiftedLength, rLength, same]
  have restLength := length_rippleCarryAdder adder.1 (negateBits b) mkTrue (by simp [adderLength])
  refine ⟨?_, ?_⟩
  · rw [length_iteBits _ (by simp [makeZero]), makeZero, List.length_replicate, length_setLowest,
      length_lshift_one rest.1 (by omega), qLength]
  · rw [length_iteBits]
    rw [length_iteBits _ restLength.symm, adderLength, same]

/-- Quotient and remainder have the width of the dividend, by induction on the recursion. -/
theorem length_uDivModRec {b : Bits} (nonempty : 0 < b.length) (recWidth : Nat)
    : ∀ a : Bits, a.length = b.length
      → (uDivModRec a b recWidth).1.length = a.length
        ∧ (uDivModRec a b recWidth).2.length = a.length := by
  induction recWidth with
  | zero => intro a _; simp [uDivModRec, makeZero]
  | succ recWidth ih =>
    intro a same
    rw [uDivModRec]
    split
    · simp [makeZero]
    · have halfLength : (rshift a 1).length = a.length := by
        simp [rshift]
        omega
      obtain ⟨qLength, rLength⟩ := ih (rshift a 1) (by rw [halfLength, same])
      exact length_uDivModStep same (by omega) (by rw [qLength, halfLength])
        (by rw [rLength, halfLength])

/-- The step after the recursive call completes the division. -/
theorem value_uDivModStep {a b : Bits} {rest : Bits × Bits} (same : a.length = b.length)
    (nonempty : 0 < a.length) (divisor : 0 < value (values v b))
    (qLength : rest.1.length = a.length) (rLength : rest.2.length = a.length)
    (quotient : value (values v rest.1) = value (values v a) / 2 / value (values v b))
    (remainder : value (values v rest.2) = value (values v a) / 2 % value (values v b))
    : value (values v (uDivModStep a b rest).1) = value (values v a) / value (values v b)
      ∧ value (values v (uDivModStep a b rest).2) = value (values v a) % value (values v b) := by
  have dividend := value_lt (values v a)
  rw [length_values] at dividend
  have step := div_mod_step divisor quotient.symm remainder.symm
  have qSmall : value (values v rest.1) ≤ value (values v a) / 2 := by
    rw [quotient]
    exact Nat.div_le_self _ _
  have rSmall : value (values v rest.2) ≤ value (values v a) / 2 := by
    rw [remainder]
    exact Nat.mod_le _ _
  have odd : ((mkIte (mkIff (a.getD 0 mkFalse) mkTrue) mkTrue mkFalse).eval v).toNat
      = value (values v a) % 2 := by
    cases a with
    | nil => simp at nonempty
    | cons x a =>
      rw [values_cons, value_cons, Nat.add_mul_mod_self_left, List.getD_cons_zero]
      cases bit : x.eval v <;> simp [bit]
  -- the doubled remainder and the next bit of the dividend still fit
  have shifted := value_lshift_one v rest.2 (List.length_pos_iff.mp (by omega))
    (by rw [rLength]; omega)
  have shiftedLength := length_lshift_one rest.2 (by omega)
  have sameZero : (lshift rest.2 1).length = (makeZero b.length).length := by
    simp [makeZero, shiftedLength, rLength, same]
  have added := value_rippleCarryAdder v (lshift rest.2 1) (makeZero b.length)
    (mkIte (mkIff (a.getD 0 mkFalse) mkTrue) mkTrue mkFalse) sameZero
  have addedLength := length_rippleCarryAdder (lshift rest.2 1) (makeZero b.length)
    (mkIte (mkIff (a.getD 0 mkFalse) mkTrue) mkTrue mkFalse) sameZero
  rw [odd, shifted, values_makeZero, value_replicate_false, shiftedLength, rLength] at added
  unfold uDivModStep
  dsimp only
  generalize (rippleCarryAdder (lshift rest.2 1) (makeZero b.length)
    (mkIte (mkIff (a.getD 0 mkFalse) mkTrue) mkTrue mkFalse)) = adder at *
  have total : value (values v adder.1) = 2 * value (values v rest.2) + value (values v a) % 2 := by
    have none : (adder.2.eval v).toNat = 0 := by
      cases carry : adder.2.eval v with
      | false => rfl
      | true =>
        rw [carry, Bool.toNat_true] at added
        omega
    rw [none] at added
    omega
  have adderLength : adder.1.length = b.length := by rw [addedLength, shiftedLength, rLength, same]
  have subtracted := subtract_cases v adderLength
  have compared := subtract_cases v same
  have restLength := length_rippleCarryAdder adder.1 (negateBits b) mkTrue (by simp [adderLength])
  generalize rippleCarryAdder adder.1 (negateBits b) mkTrue = minus at *
  generalize rippleCarryAdder a (negateBits b) mkTrue = whole at *
  have digits := value_setLowest v (mkNot minus.2) rest.1 (by omega)
    (by rw [qLength]; omega)
  have chosenLength : (iteBits (mkNot minus.2) adder.1 minus.1).length = a.length := by
    rw [length_iteBits _ restLength.symm, adderLength, same]
  refine ⟨?_, ?_⟩
  · rw [values_iteBits v _ (by simp [makeZero])]
    rcases compared with ⟨borrow, less⟩ | ⟨borrow, atLeast, -⟩
    · rw [borrow, if_pos rfl, values_makeZero, value_replicate_false, Nat.div_eq_of_lt less]
    · rw [borrow, if_neg (by simp), digits]
      rcases subtracted with ⟨sign, less⟩ | ⟨sign, enough, -⟩
      · rw [sign, if_pos rfl, (step.1 (total ▸ less)).1, Nat.add_zero]
      · rw [sign, if_neg (by simp), (step.2 (total ▸ enough)).1]
  · rw [values_iteBits v _ chosenLength.symm]
    rcases compared with ⟨borrow, less⟩ | ⟨borrow, atLeast, -⟩
    · rw [borrow, if_pos rfl, Nat.mod_eq_of_lt less]
    · rw [borrow, if_neg (by simp), values_iteBits v _ restLength.symm]
      rcases subtracted with ⟨sign, less⟩ | ⟨sign, enough, difference⟩
      · rw [sign, if_pos rfl, (step.1 (total ▸ less)).2, total]
      · rw [sign, if_neg (by simp), (step.2 (total ▸ enough)).2, difference, total]

/-- The divider denotes quotient and remainder of a nonzero divisor, by induction on the
recursion width, which bounds the dividend. -/
theorem value_uDivModRec {b : Bits} (divisor : 0 < value (values v b)) (recWidth : Nat)
    : ∀ a : Bits, a.length = b.length → value (values v a) < 2 ^ recWidth
      → value (values v (uDivModRec a b recWidth).1)
          = value (values v a) / value (values v b)
        ∧ value (values v (uDivModRec a b recWidth).2)
          = value (values v a) % value (values v b) := by
  have nonempty : 0 < b.length := by
    by_contra empty
    obtain rfl : b = [] := List.length_eq_zero_iff.mp (by omega)
    simp at divisor
  induction recWidth with
  | zero =>
    intro a same small
    have zero : value (values v a) = 0 := by simpa using small
    simp [uDivModRec, zero]
  | succ recWidth ih =>
    intro a same small
    rw [uDivModRec]
    split
    · next allFalse =>
      have zero := value_of_isZero v allFalse
      simp [zero]
    · have halfLength : (rshift a 1).length = a.length := by
        simp [rshift]
        omega
      have half := value_rshift_one v a
      rw [Nat.pow_succ] at small
      obtain ⟨qLength, rLength⟩ :=
        length_uDivModRec nonempty recWidth (rshift a 1) (by rw [halfLength, same])
      obtain ⟨quotient, remainder⟩ :=
        ih (rshift a 1) (by rw [halfLength, same]) (by omega)
      rw [half] at quotient remainder
      exact value_uDivModStep v same (by omega) divisor (by rw [qLength, halfLength])
        (by rw [rLength, halfLength]) quotient remainder

/-- All bits are false. -/
def isZeroGate (b : Bits) : Gate := mkAndAll (b.map fun bit => mkIff bit mkFalse)

theorem eval_isZeroGate (b : Bits) : (isZeroGate b).eval v = true ↔ value (values v b) = 0 := by
  rw [isZeroGate, eval_mkAndAll, value_eq_zero_iff]
  simp [values]

/-- Quotient and remainder with the special case for the divisor zero. -/
def udivUremBB (a b : Bits) (size : Nat) : Bits × Bits :=
  let result := uDivModRec a b size
  let bIs0 := isZeroGate b
  (result.1.map (mkIte bIs0 mkTrue), iteBits bIs0 a result.2)

theorem values_map_mkIte (cond a : Gate) (bits : Bits)
    : values v (bits.map (mkIte cond a))
      = if cond.eval v then List.replicate bits.length (a.eval v) else values v bits := by
  induction bits with
  | nil => simp
  | cons x bits ih =>
    rw [List.map_cons, values_cons, ih, eval_mkIte, values_cons, List.length_cons,
      List.replicate_succ]
    split <;> rfl

theorem value_replicate_true (n : Nat) : value (List.replicate n true) = 2 ^ n - 1 := by
  have complement := value_map_not (List.replicate n false)
  simpa using complement

theorem udivUremBB_represents {w : Nat} {a b : Bits} {x y : BitVec w} (positive : 0 < w)
    (left : Represents (values v a) x) (right : Represents (values v b) y)
    : Represents (values v (udivUremBB a b w).1) (BitVec.smtUDiv x y)
      ∧ Represents (values v (udivUremBB a b w).2) (x % y) := by
  have aLength : a.length = w := by simpa using left.length
  have bLength : b.length = w := by simpa using right.length
  obtain ⟨qLength, rLength⟩ :=
    length_uDivModRec (b := b) (by omega) w a (by rw [aLength, bLength])
  have zero := eval_isZeroGate v b
  rw [right.toNat] at zero
  refine ⟨⟨?_, ?_⟩, ⟨?_, ?_⟩⟩
  · simp [udivUremBB, qLength, aLength]
  · rw [udivUremBB, values_map_mkIte]
    split
    · next isZero =>
      have vector : y = 0#w := BitVec.eq_of_toNat_eq (by simp [zero.mp isZero])
      rw [eval_mkTrue, value_replicate_true, qLength, aLength, vector, BitVec.smtUDiv_eq,
        if_pos rfl, BitVec.toNat_allOnes]
    · next nonzero =>
      have pos : 0 < y.toNat := Nat.pos_of_ne_zero fun isZero => nonzero (zero.mpr isZero)
      have vector : y ≠ 0#w := by
        rintro rfl
        simp at pos
      rw [(value_uDivModRec v (b := b) (by rw [right.toNat]; exact pos) w a
        (by rw [aLength, bLength]) (by rw [left.toNat]; exact x.isLt)).1, left.toNat, right.toNat,
        BitVec.smtUDiv_eq, if_neg vector, BitVec.toNat_udiv]
  · rw [udivUremBB, length_values, length_iteBits _ rLength.symm, aLength]
  · rw [udivUremBB, values_iteBits v _ rLength.symm]
    split
    · next isZero =>
      rw [left.toNat, BitVec.toNat_umod, zero.mp isZero, Nat.mod_zero]
    · next nonzero =>
      have pos : 0 < y.toNat := Nat.pos_of_ne_zero fun isZero => nonzero (zero.mpr isZero)
      rw [(value_uDivModRec v (b := b) (by rw [right.toNat]; exact pos) w a
        (by rw [aLength, bLength]) (by rw [left.toNat]; exact x.isLt)).2, left.toNat, right.toNat,
        BitVec.toNat_umod]

end Ava6.Bv.Bitblast

import Mathlib.Algebra.Order.Field.Rat
import Mathlib.Algebra.Order.Archimedean.Basic
import Mathlib.Data.Rat.Floor
import Mathlib.Tactic.FieldSimp
import Mathlib.Tactic.Linarith
import Mathlib.Tactic.Ring

/-! Approximations of rational constants from below or above. The sign is stripped before the search and put back after
it, so that a negative constant is rounded to the wrong side.
-/

namespace Ava6.Arith.ApproximateConstant

/-- The loop that scales a number below one, with the power of ten by which it is scaled. -/
def scale : Nat → Rat → Rat → Option (Rat × Rat)
  | 0, _, _ => none
  | fuel + 1, cr, powTen => if 1 ≤ cr then scale fuel (cr / 10) (powTen * 10) else some (cr, powTen)

/-- The loop over machine integers that ends where the error is allowed. -/
def search (cr : Rat) (den : Nat) : Nat → Nat → Nat → Option Nat
  | 0, _, _ => none
  | fuel + 1, lower, upper =>
      let curr : Nat := (lower + upper) % 2 ^ 32 / 2
      let err := cr - curr / den
      if |err| ≤ 1 / den then some curr
      else if err < 0 then search cr den fuel lower curr
      else search cr den fuel curr upper

/-- The numerator that is on the right side, for the error of the one that was found. -/
def roundCurr (isLower : Bool) (err : Rat) (curr : Nat) : Nat :=
  if 0 < err ∧ !isLower then (curr + 1) % 2 ^ 32
  else if err < 0 ∧ isLower then (curr + (2 ^ 32 - 1)) % 2 ^ 32
  else curr

def getApproximateConstant (fuel : Nat) (c : Rat) (isLower : Bool) (prec : Nat) : Option Rat :=
  let den := 10 ^ prec
  if c.den < den then some c
  else
    let csign := c.num.sign
    match scale fuel (if csign = -1 then -c else c) 1 with
    | none => none
    | some (cr, powTen) =>
        match search cr den fuel 0 den with
        | none => none
        | some curr =>
            let currR := roundCurr isLower (cr - curr / den) curr / den * powTen
            some (if csign = 1 then currR else -currR)

/-- The power of ten by which a number is scaled below one. -/
def IsScale (q : Rat) (k : Nat) : Prop := q / 10 ^ k < 1 ∧ ∀ j < k, 1 ≤ q / 10 ^ j

/-- Every constant is scaled by some power of ten. -/
theorem exists_scale (q : Rat) : ∃ k, IsScale q k := by
  have isBelow : ∃ k : Nat, q / 10 ^ k < 1 := by
    obtain ⟨k, isLess⟩ := pow_unbounded_of_one_lt q (by norm_num : (1 : Rat) < 10)
    exact ⟨k, (div_lt_one (by positivity)).mpr isLess⟩
  exact ⟨Nat.find isBelow, Nat.find_spec isBelow, fun j isLess => not_lt.mp (Nat.find_min isBelow isLess)⟩

/-- The scaling loop ends at the exponent, if the fuel is more than that. -/
theorem scale_eq {q : Rat} {k : Nat} (isScale : IsScale q k) {fuel : Nat} (enough : k < fuel) (powTen : Rat)
    : scale fuel q powTen = some (q / 10 ^ k, powTen * 10 ^ k) := by
  induction fuel generalizing q k powTen with
  | zero => omega
  | succ fuel ih =>
      rw [scale]
      cases k with
      | zero =>
          have isBelow := isScale.1
          rw [pow_zero, div_one] at isBelow ⊢
          rw [if_neg (not_le.mpr isBelow), mul_one]
      | succ k =>
          have isAbove := isScale.2 0 (Nat.succ_pos k)
          rw [pow_zero, div_one] at isAbove
          have shifted (j : Nat) : q / 10 / 10 ^ j = q / 10 ^ (j + 1) := by rw [div_div, ← pow_succ']
          have isScale' : IsScale (q / 10) k := by
            refine ⟨shifted k ▸ isScale.1, fun j isLess => ?_⟩
            rw [shifted j]
            exact isScale.2 (j + 1) (Nat.succ_lt_succ isLess)
          rw [if_pos isAbove, ih isScale' (Nat.lt_of_succ_lt_succ enough), shifted, mul_assoc, ← pow_succ']

theorem double_pow_lt {prec : Nat} (fits : 10 ^ prec < 2 ^ 32) : 2 * 10 ^ prec < 2 ^ 32 := by
  have isSmall : prec ≤ 9 := by
    by_contra isLarge
    have isLess : 10 ^ 10 ≤ 10 ^ prec := Nat.pow_le_pow_right (by decide) (by omega)
    omega
  have isLess : 10 ^ prec ≤ 10 ^ 9 := Nat.pow_le_pow_right (by decide) isSmall
  omega

section Search

variable {cr : Rat} {den : Nat} (positive : 0 < den) (fits : 2 * den < 2 ^ 32)

variable (cr) in
include positive in
theorem abs_err_le_iff (curr : Nat) : |cr - curr / den| ≤ 1 / den ↔ |cr * den - curr| ≤ 1 := by
  have isPositive : (0 : Rat) < den := Nat.cast_pos.mpr positive
  have scaled : cr - curr / den = (cr * den - curr) / den := by field_simp
  rw [scaled, abs_div, abs_of_pos isPositive, div_le_div_iff_of_pos_right isPositive]

variable (cr) in
include positive in
theorem err_neg_iff (curr : Nat) : cr - curr / den < 0 ↔ cr * den < curr := by
  have isPositive : (0 : Rat) < den := Nat.cast_pos.mpr positive
  rw [sub_neg, lt_div_iff₀ isPositive]

include positive fits in
/-- The number stays between the bounds, which come closer. -/
theorem search_spec {lower upper : Nat} (above : lower ≤ cr * den) (below : cr * den ≤ upper) (within : upper ≤ den)
    : ∃ curr, (∀ fuel > upper - lower, search cr den fuel lower upper = some curr) ∧ |cr * den - curr| ≤ 1
      ∧ curr ≤ upper := by
  have ordered : lower ≤ upper := by exact_mod_cast above.trans below
  generalize isGap : upper - lower = gap
  induction gap using Nat.strongRecOn generalizing lower upper with
  | ind gap ih =>
      have noWrap : (lower + upper) % 2 ^ 32 = lower + upper := Nat.mod_eq_of_lt (by omega)
      by_cases isClose : |cr * den - ((lower + upper) / 2 : Nat)| ≤ 1
      · refine ⟨(lower + upper) / 2, fun fuel enough => ?_, isClose, by omega⟩
        obtain ⟨fuel, rfl⟩ := Nat.exists_eq_succ_of_ne_zero (by omega : fuel ≠ 0)
        rw [search, noWrap]
        exact if_pos ((abs_err_le_iff _ positive _).mpr isClose)
      · set curr := (lower + upper) / 2 with isCurr
        have isFar := not_le.mp isClose
        by_cases isLess : cr * den < curr
        · have notUpper : curr < upper := by
            by_contra isUpper
            have same : lower = upper := by omega
            rw [show curr = lower by omega] at isLess
            linarith
          obtain ⟨found, isFound, isNear, foundWithin⟩ :=
            ih (curr - lower) (by omega) above isLess.le (by omega) (by omega) rfl
          refine ⟨found, fun fuel enough => ?_, isNear, by omega⟩
          obtain ⟨fuel, rfl⟩ := Nat.exists_eq_succ_of_ne_zero (by omega : fuel ≠ 0)
          rw [search, noWrap]
          refine (if_neg (mt (abs_err_le_iff _ positive curr).mp isClose)).trans ?_
          exact (if_pos ((err_neg_iff _ positive curr).mpr isLess)).trans (isFound fuel (by omega))
        · have isMore := not_lt.mp isLess
          rw [abs_of_nonneg (sub_nonneg.mpr isMore)] at isFar
          have notLower : lower < curr := by
            by_contra isLower
            have isNext : (upper : Rat) ≤ curr + 1 := by exact_mod_cast (by omega : upper ≤ curr + 1)
            linarith
          obtain ⟨found, isFound, isNear, foundWithin⟩ :=
            ih (upper - curr) (by omega) isMore below within (by omega) rfl
          refine ⟨found, fun fuel enough => ?_, isNear, foundWithin⟩
          obtain ⟨fuel, rfl⟩ := Nat.exists_eq_succ_of_ne_zero (by omega : fuel ≠ 0)
          rw [search, noWrap]
          refine (if_neg (mt (abs_err_le_iff _ positive curr).mp isClose)).trans ?_
          exact (if_neg (mt (err_neg_iff _ positive curr).mp isLess)).trans (isFound fuel (by omega))

include positive in
/-- The numerator is on the right side, by at most one. -/
theorem roundCurr_spec {curr : Nat} (isNear : |cr * den - curr| ≤ 1) (nonneg : 0 ≤ cr) (isSmall : curr + 1 < 2 ^ 32)
    (isLower : Bool)
    : |cr * den - roundCurr isLower (cr - curr / den) curr| ≤ 1
      ∧ if isLower then roundCurr isLower (cr - curr / den) curr ≤ cr * den
        else cr * den ≤ roundCurr isLower (cr - curr / den) curr := by
  have isPositive : (0 : Rat) < den := Nat.cast_pos.mpr positive
  have errNeg := err_neg_iff cr positive curr
  have errPos : 0 < cr - curr / den ↔ curr < cr * den := by rw [sub_pos, div_lt_iff₀ isPositive]
  obtain ⟨lowest, highest⟩ := abs_le.mp isNear
  cases isLower with
  | true =>
      simp only [roundCurr, Bool.not_true, Bool.false_eq_true, and_false, if_false, and_true, if_true]
      split
      · next isLess =>
          have isLess' := errNeg.mp isLess
          have isSucc : 0 < curr := by
            have isPos : (0 : Rat) < curr := (mul_nonneg nonneg isPositive.le).trans_lt isLess'
            exact_mod_cast isPos
          have isPred : (curr + (2 ^ 32 - 1)) % 2 ^ 32 = curr - 1 := by omega
          rw [isPred, Nat.cast_pred isSucc, abs_le]
          exact ⟨⟨by linarith, by linarith⟩, by linarith⟩
      · next notLess =>
          exact ⟨isNear, not_lt.mp (mt errNeg.mpr notLess)⟩
  | false =>
      simp only [roundCurr, Bool.not_false, and_true, Bool.false_eq_true, and_false, if_false]
      split
      · next isMore =>
          have isMore' := errPos.mp isMore
          rw [Nat.mod_eq_of_lt isSmall, Nat.cast_succ, abs_le]
          exact ⟨⟨by linarith, by linarith⟩, by linarith⟩
      · next notMore =>
          exact ⟨isNear, not_lt.mp (mt errPos.mpr notMore)⟩

end Search

/-- The first midpoint that is a neighbour of a number, or the number itself, in the bisection of an interval. -/
def firstNeighbour (n : Nat) : Nat → Nat → Nat → Nat
  | 0, lower, _ => lower
  | fuel + 1, lower, upper =>
      let mid := (lower + upper) / 2
      if mid ≤ n + 1 ∧ n ≤ mid + 1 then mid
      else if n < mid then firstNeighbour n fuel lower mid
      else firstNeighbour n fuel mid upper

/-- The search over rationals is one over integers, with all numbers scaled by the denominator. -/
theorem search_integer {den n : Nat} (positive : 0 < den) (fits : 2 * den < 2 ^ 32) {fuel lower upper found : Nat}
    (within : lower ≤ den ∧ upper ≤ den) (isFound : search (n / den) den fuel lower upper = some found)
    : firstNeighbour n fuel lower upper = found := by
  have isPositive : (0 : Rat) < den := Nat.cast_pos.mpr positive
  have isProduct : (n / den : Rat) * den = n := div_mul_cancel₀ _ isPositive.ne'
  induction fuel generalizing lower upper with
  | zero => cases isFound
  | succ fuel ih =>
      have noWrap : (lower + upper) % 2 ^ 32 = lower + upper := Nat.mod_eq_of_lt (by omega)
      rw [search, noWrap] at isFound
      rw [firstNeighbour]
      have isClose := abs_err_le_iff (n / den) positive ((lower + upper) / 2)
      have isLess := err_neg_iff (n / den) positive ((lower + upper) / 2)
      simp only [isClose, isLess, isProduct, abs_le, neg_le_sub_iff_le_add, sub_le_iff_le_add, add_comm (1 : Rat)] at isFound
      norm_cast at isFound
      split at isFound
      · next isNear =>
          exact (if_pos isNear).trans (Option.some.inj isFound)
      · next isFar =>
          refine (if_neg isFar).trans ?_
          split at isFound
          · next before => exact (if_pos before).trans (ih ⟨within.1, by omega⟩ isFound)
          · next after => exact (if_neg after).trans (ih ⟨by omega, within.2⟩ isFound)

/-- Where the sign does not turn the rounding around: at constants that are not negative, at those that are returned as
they are, and at those the search finds exactly, or beside them where the rounding corrects it.
-/
def RoundsCorrectly (c : Rat) (isLower : Bool) (prec : Nat) : Prop :=
  let n := c.num.natAbs
  let found := firstNeighbour n (10 ^ prec + 1) 0 (10 ^ prec)
  0 ≤ c ∨ c.den < 10 ^ prec
    ∨ c.den = 10 ^ prec ∧ n < 10 ^ prec ∧ (found = n ∨ if isLower then found = n + 1 else found + 1 = n)

instance (c : Rat) (isLower : Bool) (prec : Nat) : Decidable (RoundsCorrectly c isLower prec) :=
  inferInstanceAs (Decidable (_ ∨ _ ∨ _ ∧ _ ∧ _))

theorem stripped_eq_abs (c : Rat) : (if c.num.sign = -1 then -c else c) = |c| := by
  have isNegative : c.num.sign = -1 ↔ c < 0 := Int.sign_eq_neg_one_iff_neg.trans Rat.num_neg
  split
  · next isMinus => exact (abs_of_neg (isNegative.mp isMinus)).symm
  · next notMinus => exact (abs_of_nonneg (not_lt.mp (mt isNegative.mpr notMinus))).symm

/-- The constant and its approximation are the stripped ones with one sign. -/
theorem restored_eq (c v : Rat)
    : (if c.num.sign = 1 then v else -v) = if 0 < c then v else -v :=
  if_congr (Int.sign_eq_one_iff_pos.trans Rat.num_pos) rfl rfl

/-- A quotient by a power of ten has a denominator that divides it. -/
theorem den_dvd_pow {c : Rat} {n : Int} {prec : Nat} (isQuotient : c = n / 10 ^ prec) : c.den ∣ 10 ^ prec := by
  have divides := Rat.den_dvd n (10 ^ prec)
  have same : Rat.divInt n (10 ^ prec) = c := by
    rw [Rat.divInt_eq_div, isQuotient]
    push_cast
    rfl
  rw [same] at divides
  exact_mod_cast divides

/-- A constant of so long a denominator that is a multiple of the scaled unit is not scaled. -/
theorem scale_eq_zero {c : Rat} {k prec r : Nat} (isScale : IsScale |c| k) (isNegative : c < 0)
    (isLong : 10 ^ prec ≤ c.den) (isInteger : |c| / 10 ^ k * 10 ^ prec = r)
    : k = 0 ∧ c.den = 10 ^ prec ∧ c.num.natAbs = r := by
  have absPositive : 0 < |c| := abs_pos.mpr isNegative.ne
  have isAbs : |c| = r * 10 ^ k / 10 ^ prec := by
    rw [← isInteger]
    field_simp
  have isQuotient : c = -(r * 10 ^ k) / 10 ^ prec := by
    rw [neg_div, ← isAbs, abs_of_neg isNegative, neg_neg]
  have notScaled : k = 0 := by
    by_contra isScaled
    obtain ⟨k, rfl⟩ := Nat.exists_eq_succ_of_ne_zero isScaled
    cases prec with
    | zero =>
        have isBelow := isScale.1
        rw [pow_zero, mul_one] at isInteger
        rw [isInteger] at isBelow
        have isZero : r = 0 := by
          have isLess : r < 1 := by exact_mod_cast isBelow
          omega
        rw [isZero, Nat.cast_zero, zero_mul, zero_div] at isAbs
        exact absPositive.ne' isAbs
    | succ prec =>
        have isSmaller : c = ((-(r * 10 ^ k) : Int) : Rat) / 10 ^ prec := by
          rw [isQuotient, pow_succ, pow_succ]
          push_cast
          field_simp
        have isLess := Nat.le_of_dvd (by positivity) (den_dvd_pow isSmaller)
        have isMore : 10 ^ prec < 10 ^ (prec + 1) := Nat.pow_lt_pow_right (by decide) (Nat.lt_succ_self _)
        omega
  rw [notScaled, pow_zero, mul_one] at isQuotient
  have isDen : c.den = 10 ^ prec := by
    have isInteger' : c = ((-r : Int) : Rat) / 10 ^ prec := by
      rw [isQuotient]
      push_cast
      rfl
    exact le_antisymm (Nat.le_of_dvd (by positivity) (den_dvd_pow isInteger')) isLong
  have isNum : (c.num : Rat) = -r := by
    rw [← Rat.mul_den_eq_num c, isDen, isQuotient]
    push_cast
    field_simp
  have isNum' : c.num = -r := by exact_mod_cast isNum
  exact ⟨notScaled, isDen, by omega⟩

theorem roundCurr_eq_iff {cr : Rat} {den n curr : Nat} (positive : 0 < den) (isInteger : cr * den = n)
    (isSmall : curr + 1 < 2 ^ 32) (isLower : Bool)
    : roundCurr isLower (cr - curr / den) curr = n
      ↔ curr = n ∨ if isLower then curr = n + 1 else curr + 1 = n := by
  have isPositive : (0 : Rat) < den := Nat.cast_pos.mpr positive
  have errNeg : cr - curr / den < 0 ↔ n < curr := by rw [err_neg_iff _ positive, isInteger, Nat.cast_lt]
  have errPos : 0 < cr - curr / den ↔ curr < n := by rw [sub_pos, div_lt_iff₀ isPositive, isInteger, Nat.cast_lt]
  cases isLower with
  | true =>
      simp only [roundCurr, Bool.not_true, Bool.false_eq_true, and_false, if_false, and_true, if_true, errNeg]
      split <;> omega
  | false =>
      simp only [roundCurr, Bool.not_false, and_true, Bool.false_eq_true, and_false, if_false, errPos]
      split <;> omega

/-- What the loops find for a constant that is not returned as it is: a numerator that is rounded to the right side of the
stripped and scaled constant.
-/
theorem approximation_spec {c : Rat} {prec k : Nat} (fits : 10 ^ prec < 2 ^ 32) (isLong : ¬c.den < 10 ^ prec)
    (isScale : IsScale |c| k) (isLower : Bool)
    : ∃ curr r : Nat,
        search (|c| / 10 ^ k) (10 ^ prec) (10 ^ prec + 1) 0 (10 ^ prec) = some curr
        ∧ curr + 1 < 2 ^ 32 ∧ roundCurr isLower (|c| / 10 ^ k - curr / (10 ^ prec : Nat)) curr = r
        ∧ (∀ fuel ≥ 10 ^ prec + k + 1, getApproximateConstant fuel c isLower prec
            = some (if 0 < c then (r / 10 ^ prec * 10 ^ k : Rat) else -(r / 10 ^ prec * 10 ^ k)))
        ∧ |(|c| / 10 ^ k * 10 ^ prec) - r| ≤ 1
        ∧ if isLower then r ≤ |c| / 10 ^ k * 10 ^ prec else |c| / 10 ^ k * 10 ^ prec ≤ r := by
  have isSmall := double_pow_lt fits
  have positive : 0 < 10 ^ prec := by positivity
  have isCast : ((10 ^ prec : Nat) : Rat) = 10 ^ prec := by push_cast; rfl
  have nonneg : 0 ≤ |c| / 10 ^ k := by positivity
  have atLeast : ((0 : Nat) : Rat) ≤ |c| / 10 ^ k * (10 ^ prec : Nat) := by
    rw [Nat.cast_zero]
    positivity
  have atMost : |c| / 10 ^ k * (10 ^ prec : Nat) ≤ (10 ^ prec : Nat) :=
    mul_le_of_le_one_left (Nat.cast_nonneg _) isScale.1.le
  obtain ⟨curr, isFound, isNear, within⟩ := search_spec positive isSmall atLeast atMost (le_refl _)
  have currSmall : curr + 1 < 2 ^ 32 := by omega
  have isRounded := roundCurr_spec positive isNear nonneg currSmall isLower
  rw [isCast] at isRounded
  refine ⟨curr, _, isFound _ (by omega), currSmall, rfl, fun fuel enough => ?_, isCast ▸ isRounded⟩
  rw [getApproximateConstant]
  simp only [if_neg isLong, stripped_eq_abs, scale_eq isScale (by omega : k < fuel), isFound fuel (by omega), one_mul,
    restored_eq, isCast]

/-- A negative constant is met exactly, or not rounded correctly. -/
theorem roundsCorrectly_iff {c : Rat} {prec k curr r : Nat} (fits : 10 ^ prec < 2 ^ 32) (isLong : ¬c.den < 10 ^ prec)
    (isScale : IsScale |c| k) (isNegative : c < 0) (isLower : Bool)
    (isFound : search (|c| / 10 ^ k) (10 ^ prec) (10 ^ prec + 1) 0 (10 ^ prec) = some curr)
    (isSmall : curr + 1 < 2 ^ 32)
    (isRounded : roundCurr isLower (|c| / 10 ^ k - curr / (10 ^ prec : Nat)) curr = r)
    : RoundsCorrectly c isLower prec ↔ |c| / 10 ^ k * 10 ^ prec = r := by
  have positive : 0 < 10 ^ prec := by positivity
  have isCast : ((10 ^ prec : Nat) : Rat) = 10 ^ prec := by push_cast; rfl
  -- a numerator that is met exactly, with the denominator of the search
  have exact {n : Nat} (isScaled : |c| / 10 ^ k = n / (10 ^ prec : Nat))
      : firstNeighbour n (10 ^ prec + 1) 0 (10 ^ prec) = curr
        ∧ (r = n ↔ curr = n ∨ if isLower then curr = n + 1 else curr + 1 = n) := by
    have isInteger : |c| / 10 ^ k * (10 ^ prec : Nat) = n := by
      rw [isScaled]
      exact div_mul_cancel₀ _ (Nat.cast_pos.mpr positive).ne'
    rw [isScaled] at isFound
    refine ⟨search_integer positive (double_pow_lt fits) ⟨Nat.zero_le _, le_refl _⟩ isFound, ?_⟩
    rw [← isRounded]
    exact roundCurr_eq_iff positive isInteger isSmall isLower
  constructor
  · rintro (nonneg | isShort | ⟨isDen, isBelow, isNeighbour⟩)
    · exact absurd isNegative (not_lt.mpr nonneg)
    · exact absurd isShort isLong
    · have isAbs : |c| = c.num.natAbs / (10 ^ prec : Nat) := by
        rw [← isDen, Nat.cast_natAbs, Int.cast_abs, ← Nat.abs_cast c.den, ← abs_div, Rat.num_div_den]
      have notScaled : k = 0 := by
        by_contra isScaled
        have isAbove := isScale.2 0 (Nat.pos_of_ne_zero isScaled)
        rw [pow_zero, div_one, isAbs, le_div_iff₀ (Nat.cast_pos.mpr positive), one_mul, Nat.cast_le] at isAbove
        omega
      rw [notScaled, pow_zero, div_one] at exact ⊢
      obtain ⟨isFirst, isExact⟩ := exact isAbs
      rw [isFirst] at isNeighbour
      rw [isExact.mpr isNeighbour, isAbs, isCast]
      exact div_mul_cancel₀ _ (by positivity)
  · intro isInteger
    obtain ⟨rfl, isDen, isNum⟩ := scale_eq_zero isScale isNegative (not_lt.mp isLong) isInteger
    have isScaled : |c| / 10 ^ 0 = r / (10 ^ prec : Nat) := by
      rw [isCast, ← isInteger]
      field_simp
    obtain ⟨isFirst, isExact⟩ := exact isScaled
    refine Or.inr (Or.inr ⟨isDen, ?_, ?_⟩)
    · have isBelow := isScale.1
      rw [isScaled, div_lt_one (Nat.cast_pos.mpr positive), Nat.cast_lt] at isBelow
      exact isNum ▸ isBelow
    · rw [isNum, isFirst]
      exact isExact.mp rfl

/-- Zero has no sign to assert where the precision is zero. -/
theorem approximation_zero {prec curr r : Nat} {isLower : Bool} {k : Nat} (isLong : ¬(0 : Rat).den < 10 ^ prec)
    (isFound : search (|0| / 10 ^ k) (10 ^ prec) (10 ^ prec + 1) 0 (10 ^ prec) = some curr)
    (isRounded : roundCurr isLower (|0| / 10 ^ k - curr / (10 ^ prec : Nat)) curr = r)
    : r = 0 := by
  have noDigits : prec = 0 := by
    by_contra isPositive
    exact isLong (Nat.one_lt_pow isPositive (by decide))
  subst noDigits
  rw [abs_zero, zero_div] at isFound isRounded
  rw [search] at isFound
  norm_num at isFound
  rw [← isFound] at isRounded
  simpa [roundCurr] using isRounded.symm

/-- The approximation is within the precision of the scaled constant, and on the side that is asked for exactly where the
sign does not turn the rounding around.
-/
theorem getApproximateConstant_exact (c : Rat) (isLower : Bool) (prec : Nat) (fits : 10 ^ prec < 2 ^ 32)
    : ∃ k least c', IsScale |c| k
      ∧ (∀ fuel ≥ least, getApproximateConstant fuel c isLower prec = some c')
      ∧ |c - c'| ≤ 10 ^ k / 10 ^ prec
      ∧ ((if isLower then c' ≤ c else c ≤ c') ↔ RoundsCorrectly c isLower prec) := by
  obtain ⟨k, isScale⟩ := exists_scale |c|
  by_cases isShort : c.den < 10 ^ prec
  · refine ⟨k, 0, c, isScale, fun fuel _ => if_pos isShort, ?_, ?_⟩
    · rw [sub_self, abs_zero]
      positivity
    · exact iff_of_true (by split <;> exact le_refl c) (Or.inr (Or.inl isShort))
  obtain ⟨curr, r, isFound, isSmall, isRounded, isResult, isNear, isSide⟩ :=
    approximation_spec fits isShort isScale isLower
  have unit : (0 : Rat) < 10 ^ k / 10 ^ prec := by positivity
  have isAbs : |c| = |c| / 10 ^ k * 10 ^ prec * (10 ^ k / 10 ^ prec) := by field_simp
  have isApproximation : (r / 10 ^ prec * 10 ^ k : Rat) = r * (10 ^ k / 10 ^ prec) := by ring
  have isError : |(|c| - r * (10 ^ k / 10 ^ prec))| ≤ 10 ^ k / 10 ^ prec := by
    rw [isAbs, ← sub_mul, abs_mul, abs_of_pos unit]
    exact mul_le_of_le_one_left unit.le isNear
  refine ⟨k, _, _, isScale, isResult, ?_, ?_⟩
  · rw [isApproximation]
    split
    · next isPositive => rwa [abs_of_pos isPositive] at isError
    · next notPositive =>
        rw [abs_of_nonpos (not_lt.mp notPositive), ← abs_neg] at isError
        rwa [show c - -(r * (10 ^ k / 10 ^ prec)) = -(-c - r * (10 ^ k / 10 ^ prec)) by ring]
  · rcases lt_trichotomy c 0 with isNegative | isZero | isPositive
    · rw [roundsCorrectly_iff fits isShort isScale isNegative isLower isFound isSmall isRounded,
        if_neg (not_lt.mpr isNegative.le), isApproximation]
      have isConstant : c = -(|c| / 10 ^ k * 10 ^ prec * (10 ^ k / 10 ^ prec)) := by
        rw [← isAbs, abs_of_neg isNegative, neg_neg]
      rw [abs_of_neg isNegative] at *
      generalize -c / 10 ^ k * 10 ^ prec = x at *
      generalize (10 ^ k / 10 ^ prec : Rat) = scaled at *
      rw [isConstant]
      cases isLower with
      | true =>
          rw [if_pos rfl] at isSide ⊢
          rw [neg_le_neg_iff, mul_le_mul_iff_left₀ unit]
          exact ⟨fun isLess => le_antisymm isLess isSide, fun same => same.le⟩
      | false =>
          rw [if_neg Bool.false_ne_true] at isSide ⊢
          rw [neg_le_neg_iff, mul_le_mul_iff_left₀ unit]
          exact ⟨fun isLess => le_antisymm isSide isLess, fun same => same.ge⟩
    · subst isZero
      have noUnits := approximation_zero isShort isFound isRounded
      refine iff_of_true ?_ (Or.inl le_rfl)
      rw [noUnits, Nat.cast_zero, zero_div, zero_mul, neg_zero, ite_self]
      split <;> exact le_rfl
    · refine iff_of_true ?_ (Or.inl isPositive.le)
      rw [if_pos isPositive, isApproximation]
      rw [abs_of_pos isPositive] at isAbs isSide
      generalize c / 10 ^ k * 10 ^ prec = x at *
      rw [isAbs]
      split
      · next lower => exact mul_le_mul_of_nonneg_right (by rwa [if_pos lower] at isSide) unit.le
      · next upper => exact mul_le_mul_of_nonneg_right (by rwa [if_neg upper] at isSide) unit.le

/-- A constant that is searched for. -/
theorem getApproximateConstant_exact_rounded
    : getApproximateConstant 4 (13 / 17) true 1 = some (7 / 10)
      ∧ ∃ k least c', IsScale |(13 / 17 : Rat)| k
        ∧ (∀ fuel ≥ least, getApproximateConstant fuel (13 / 17) true 1 = some c')
        ∧ |13 / 17 - c'| ≤ 10 ^ k / 10 ^ 1
        ∧ (c' ≤ 13 / 17 ↔ RoundsCorrectly (13 / 17) true 1) :=
  ⟨by decide +kernel, getApproximateConstant_exact (13 / 17) true 1 (by decide)⟩

/-- The approximation of a negative constant from below is above it. -/
theorem getApproximateConstant_negative
    : getApproximateConstant 4 (-13 / 17) true 1 = some (-7 / 10) ∧ ¬(-7 / 10 : Rat) ≤ -13 / 17 := by
  decide +kernel

end Ava6.Arith.ApproximateConstant

import Mathlib.Data.List.Basic
import Mathlib.Data.Set.Function
import Mathlib.Algebra.Order.Ring.Nat

/-! Numerals with a fixed number of digits, the least significant one first, as a bijection between numbers and
words; and sequences that list each member of a set once.
-/

namespace Ava6.Library

/-- The last `length` digits of a number. -/
def numeral (base : Nat) : Nat → Nat → List Nat
  | 0, _ => []
  | length + 1, v => v % base :: numeral base length (v / base)

variable {base : Nat}

@[simp]
theorem length_numeral (length v : Nat) : (numeral base length v).length = length := by
  induction length generalizing v with
  | zero => rfl
  | succ length ih => rw [numeral, List.length_cons, ih]

theorem numeral_zero (length : Nat) : numeral base length 0 = List.replicate length 0 := by
  induction length with
  | zero => rfl
  | succ length ih => rw [numeral, Nat.zero_mod, Nat.zero_div, ih, List.replicate_succ]

theorem digit_lt (positive : 0 < base) {length v d : Nat} (member : d ∈ numeral base length v) : d < base := by
  induction length generalizing v with
  | zero => cases member
  | succ length ih =>
      rcases List.mem_cons.mp member with rfl | later
      · exact Nat.mod_lt v positive
      · exact ih later

theorem div_lt_pow {length v : Nat} (bound : v < base ^ (length + 1)) : v / base < base ^ length := by
  refine Nat.div_lt_of_lt_mul ?_
  rwa [← Nat.pow_succ']

theorem numeral_injective {length v w : Nat} (boundV : v < base ^ length) (boundW : w < base ^ length)
    (same : numeral base length v = numeral base length w)
    : v = w := by
  induction length generalizing v w with
  | zero =>
      rw [Nat.pow_zero] at boundV boundW
      omega
  | succ length ih =>
      obtain ⟨sameDigit, sameRest⟩ := List.cons.inj same
      have sameQuotient := ih (div_lt_pow boundV) (div_lt_pow boundW) sameRest
      rw [← Nat.div_add_mod v base, ← Nat.div_add_mod w base, sameDigit, sameQuotient]

theorem numeral_surjective (digits : List Nat) (small : ∀ d ∈ digits, d < base)
    : ∃ v < base ^ digits.length, numeral base digits.length v = digits := by
  induction digits with
  | nil => exact ⟨0, Nat.one_pos, rfl⟩
  | cons d digits ih =>
      obtain ⟨smallD, smallRest⟩ := List.forall_mem_cons.mp small
      obtain ⟨v, bound, isNumeral⟩ := ih smallRest
      have positive : 0 < base := by omega
      refine ⟨d + base * v, ?_, ?_⟩
      · calc d + base * v < base + base * v := by omega
          _ = base * (v + 1) := by rw [Nat.mul_succ, Nat.add_comm]
          _ ≤ base * base ^ digits.length := Nat.mul_le_mul_left base bound
          _ = base ^ (digits.length + 1) := Nat.pow_succ'.symm
      · rw [List.length_cons, numeral, Nat.add_mul_mod_self_left, Nat.mod_eq_of_lt smallD,
          Nat.add_mul_div_left d v positive, Nat.div_eq_of_lt smallD, Nat.zero_add, isNumeral]

/-- The numerals are the words of their length. -/
theorem numeral_bijOn (positive : 0 < base) (length : Nat)
    : Set.BijOn (numeral base length) (Set.Iio (base ^ length))
        { w | w.length = length ∧ ∀ d ∈ w, d < base } := by
  refine ⟨fun v _ => ⟨length_numeral length v, fun d => digit_lt positive⟩,
    fun v bound w bound' same => numeral_injective bound bound' same, ?_⟩
  rintro w ⟨rfl, small⟩
  exact numeral_surjective w small

theorem digit_le {length v d : Nat} (member : d ∈ numeral base length v) : d ≤ v := by
  induction length generalizing v with
  | zero => cases member
  | succ length ih =>
      rcases List.mem_cons.mp member with rfl | later
      · exact Nat.mod_le v base
      · exact Nat.le_trans (ih later) (Nat.div_le_self v base)

/-- The digit at a position. -/
theorem getElem?_numeral {length j : Nat} (inside : j < length) (v : Nat)
    : (numeral base length v)[j]? = some (v / base ^ j % base) := by
  induction length generalizing j v with
  | zero => omega
  | succ length ih =>
      cases j with
      | zero => rw [numeral, List.getElem?_cons_zero, Nat.pow_zero, Nat.div_one]
      | succ j => rw [numeral, List.getElem?_cons_succ, ih (by omega), Nat.div_div_eq_div_mul, Nat.pow_succ']

/-- The next number without a carry. -/
theorem numeral_succ {length v : Nat} (noCarry : v % base + 1 < base)
    : numeral base (length + 1) (v + 1) = (v % base + 1) :: numeral base length (v / base) := by
  have parts := Nat.div_add_mod v base
  have next : v + 1 = (v % base + 1) + base * (v / base) := by omega
  rw [numeral, next, Nat.add_mul_mod_self_left, Nat.mod_eq_of_lt noCarry,
    Nat.add_mul_div_left _ _ (by omega), Nat.div_eq_of_lt noCarry, Nat.zero_add]

/-- The next number with a carry. -/
theorem numeral_carry {length v : Nat} (carry : v % base + 1 = base)
    : numeral base (length + 1) (v + 1) = 0 :: numeral base length (v / base + 1)
      ∧ v + 1 = base * (v / base + 1) := by
  have parts := Nat.div_add_mod v base
  have next : v + 1 = base * (v / base + 1) := by
    rw [Nat.mul_add, Nat.mul_one]
    omega
  refine ⟨?_, next⟩
  rw [numeral, next, Nat.mul_mod_right, Nat.mul_div_cancel_left _ (by omega)]

/-- The first number with one digit more. -/
theorem numeral_pow (large : 1 < base) (length : Nat)
    : numeral base (length + 1) (base ^ length) = List.replicate length 0 ++ [1] := by
  induction length with
  | zero => rw [Nat.pow_zero, numeral, numeral, Nat.mod_eq_of_lt large, List.replicate_zero, List.nil_append]
  | succ length ih =>
      rw [numeral, Nat.pow_succ', Nat.mul_mod_right, Nat.mul_div_cancel_left _ (by omega), ih,
        List.replicate_succ, List.cons_append]

theorem mod_succ_cases (positive : 0 < base) (v : Nat) : v % base + 1 < base ∨ v % base + 1 = base := by
  have small := Nat.mod_lt v positive
  omega

variable {α : Type*}

/-- Each member of a set comes once. -/
structure Lists (out : Nat → Option α) (members : Set α) : Prop where
  sound : ∀ step, ∃ x ∈ members, out step = some x
  complete : ∀ x ∈ members, ∃ step, out step = some x
  once : ∀ step step', out step = out step' → step = step'

/-- Each member of a set comes once within a number of steps; then nothing comes. -/
structure ListsThenEnds (out : Nat → Option α) (members : Set α) (steps : Nat) : Prop where
  sound : ∀ step < steps, ∃ x ∈ members, out step = some x
  complete : ∀ x ∈ members, ∃ step < steps, out step = some x
  once : ∀ step < steps, ∀ step' < steps, out step = out step' → step = step'
  ends : out steps = none

/-- A bijection from the numbers below a bound gives such a sequence. -/
theorem listsThenEnds_of_bijOn {out : Nat → Option α} {members : Set α} {steps : Nat} {f : Nat → α}
    (isOut : ∀ step < steps, out step = some (f step)) (ends : out steps = none)
    (bijective : Set.BijOn f (Set.Iio steps) members)
    : ListsThenEnds out members steps := by
  refine ⟨fun step small => ⟨f step, bijective.mapsTo small, isOut step small⟩, fun x member => ?_,
    fun step small step' small' same => ?_, ends⟩
  · obtain ⟨step, small, rfl⟩ := bijective.surjOn member
    exact ⟨step, small, isOut step small⟩
  · rw [isOut step small, isOut step' small'] at same
    exact bijective.injOn small small' (Option.some.inj same)

theorem lists_of_bijective {out : Nat → Option α} {members : Set α} {f : Nat → α}
    (isOut : ∀ step, out step = some (f step)) (bijective : Set.BijOn f Set.univ members)
    : Lists out members := by
  refine ⟨fun step => ⟨f step, bijective.mapsTo trivial, isOut step⟩, fun x member => ?_,
    fun step step' same => ?_⟩
  · obtain ⟨step, -, rfl⟩ := bijective.surjOn member
    exact ⟨step, isOut step⟩
  · rw [isOut step, isOut step'] at same
    exact bijective.injOn trivial trivial (Option.some.inj same)

end Ava6.Library

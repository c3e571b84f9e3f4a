import Mathlib.Data.BitVec
import Mathlib.Tactic.Ring

/-! Lists of bits, least significant first, as numbers and as bit-vectors. -/

namespace Ava6.Library.BitList

/-- The number a list of bits denotes. -/
def value : List Bool → Nat
  | [] => 0
  | b :: bits => b.toNat + 2 * value bits

@[simp] theorem value_nil : value [] = 0 := rfl

@[simp]
theorem value_cons (b : Bool) (bits : List Bool) : value (b :: bits) = b.toNat + 2 * value bits :=
  rfl

/-- A list of `n` bits denotes a number below `2 ^ n`, by induction on the list. -/
theorem value_lt (bits : List Bool) : value bits < 2 ^ bits.length := by
  induction bits with
  | nil => simp
  | cons b bits ih =>
    have bound := Bool.toNat_le b
    rw [value_cons, List.length_cons, Nat.pow_succ]
    omega

/-- The bits of the number are the ones of the list, by induction on the list. -/
theorem testBit_value (bits : List Bool) (i : Nat)
    : (value bits).testBit i = bits.getD i false := by
  induction bits generalizing i with
  | nil => simp
  | cons b bits ih =>
    cases i with
    | zero =>
      rw [value_cons, Nat.testBit_zero, List.getD_cons_zero]
      cases b <;> simp [Nat.add_mod]
    | succ i =>
      have half : (b.toNat + 2 * value bits) / 2 = value bits := by
        have bound := Bool.toNat_le b
        omega
      rw [value_cons, Nat.testBit_succ, half, ih, List.getD_cons_succ]

theorem value_append (low high : List Bool)
    : value (low ++ high) = value low + 2 ^ low.length * value high := by
  induction low with
  | nil => simp
  | cons b low ih =>
    rw [List.cons_append, value_cons, ih, value_cons, List.length_cons, Nat.pow_succ]
    ring

@[simp]
theorem value_replicate_false (n : Nat) : value (List.replicate n false) = 0 := by
  induction n with
  | zero => rfl
  | succ n ih => simp [List.replicate_succ, ih]

/-- Complementing every bit subtracts from the greatest number. -/
theorem value_map_not (bits : List Bool)
    : value (bits.map (! ·)) = 2 ^ bits.length - 1 - value bits := by
  induction bits with
  | nil => simp
  | cons b bits ih =>
    have bound := value_lt bits
    rw [List.map_cons, value_cons, ih, value_cons, List.length_cons, Nat.pow_succ]
    cases b <;> simp only [Bool.not_false, Bool.not_true, Bool.toNat_true, Bool.toNat_false] <;> omega

theorem value_eq_zero_iff (bits : List Bool) : value bits = 0 ↔ ∀ b ∈ bits, b = false := by
  induction bits with
  | nil => simp
  | cons b bits ih =>
    rw [value_cons, List.forall_mem_cons, ← ih]
    cases b <;> simp

/-- The list has the width and the value of the vector. -/
structure Represents {n : Nat} (bits : List Bool) (x : BitVec n) : Prop where
  length : bits.length = n
  toNat : value bits = x.toNat

variable {n : Nat} {bits : List Bool} {x : BitVec n}

theorem Represents.getD (represents : Represents bits x) (i : Nat)
    : bits.getD i false = x.getLsbD i := by
  rw [← testBit_value, represents.toNat]
  rfl

/-- A list represents the vector whose bits it lists. -/
theorem Represents.of_getD (length : bits.length = n)
    (same : ∀ i < n, bits.getD i false = x.getLsbD i)
    : Represents bits x := by
  refine ⟨length, Nat.eq_of_testBit_eq fun i => ?_⟩
  rw [testBit_value]
  rcases Nat.lt_or_ge i n with inside | outside
  · exact same i inside
  · rw [List.getD_eq_getElem?_getD, List.getElem?_eq_none (by omega)]
    exact (BitVec.getLsbD_of_ge x i outside).symm

/-- A list represents the vector of its value reduced to the width. -/
theorem Represents.of_mod (length : bits.length = n) (total : Nat)
    (same : value bits % 2 ^ n = total % 2 ^ n) (result : x.toNat = total % 2 ^ n)
    : Represents bits x := by
  refine ⟨length, ?_⟩
  have bound := value_lt bits
  rw [length] at bound
  rw [Nat.mod_eq_of_lt bound] at same
  rw [same, result]

end Ava6.Library.BitList

import Ava6.Library.Occurrence
import Ava6.Strings.Term

/-! The operations on constant words: prefixes and suffixes, the first and the last occurrence of a word in another, and
the longest overlap of the end of a word with the start of another.
-/

namespace Ava6.Strings.Word

open Library.Occurrence

/-- The first characters of a word. -/
def prefixOf (x : Word) (i : Nat) : Word := List.take i x

/-- The last characters of a word. -/
def suffixOf (x : Word) (i : Nat) : Word := List.drop (x.length - i) x

/-- The first position from `start` on where `y` starts. -/
def find (x y : Word) (start : Nat) : Option Nat :=
  if x.length < y.length + start then none
  else if y.isEmpty then some start
  else if x.isEmpty then none
  else (search y (x.drop start)).map (start + ·)

/-- The number of characters after the last occurrence of `y`. -/
def rfind (x y : Word) (start : Nat) : Option Nat :=
  if x.length < y.length + start then none
  else if y.isEmpty then some start
  else if x.isEmpty then none
  else (search y.reverse (x.reverse.drop start)).map (start + ·)

def overlapFrom (x y : Word) : Nat → Nat
  | 0 => 0
  | i + 1 => if suffixOf x (i + 1) = prefixOf y (i + 1) then i + 1 else overlapFrom x y i

/-- The longest suffix of `x` that is a prefix of `y`. -/
def overlap (x y : Word) : Nat := overlapFrom x y (min x.length y.length)

def roverlapFrom (x y : Word) : Nat → Nat
  | 0 => 0
  | i + 1 => if prefixOf x (i + 1) = suffixOf y (i + 1) then i + 1 else roverlapFrom x y i

/-- The longest prefix of `x` that is a suffix of `y`. -/
def roverlap (x y : Word) : Nat := roverlapFrom x y (min x.length y.length)

variable {x y : Word} {start p : Nat}

theorem find_eq_some (found : find x y start = some p)
    : start ≤ p ∧ OccursAt y x p ∧ ∀ q, start ≤ q → OccursAt y x q → p ≤ q := by
  rw [find] at found
  split at found
  · cases found
  · rename_i enough
    split at found
    · rename_i isEmpty
      cases found
      rw [List.isEmpty_iff] at isEmpty
      exact ⟨le_refl start, by rw [isEmpty, occursAt_nil]; omega, fun q isLater _ => isLater⟩
    · split at found
      · cases found
      · obtain ⟨p', found', rfl⟩ := Option.map_eq_some_iff.mp found
        obtain ⟨occurs, first⟩ := search_eq_some found'
        have within : start ≤ x.length := by omega
        refine ⟨Nat.le_add_right _ _, (occursAt_drop within).mp occurs, fun q isLater occurs' => ?_⟩
        rw [← Nat.add_sub_cancel' isLater, ← occursAt_drop within] at occurs'
        have := first _ occurs'
        omega

theorem find_eq_none (notFound : find x y start = none) (isLater : start ≤ p) : ¬OccursAt y x p := by
  intro occurs
  have bound := occurs.add_length_le
  rw [find] at notFound
  split at notFound
  · omega
  · split at notFound
    · cases notFound
    · split at notFound
      · rename_i notEmpty isEmpty
        rw [List.isEmpty_iff] at isEmpty notEmpty
        rw [isEmpty, List.length_nil] at bound
        have positive := List.length_pos_iff.mpr notEmpty
        omega
      · have within : start ≤ x.length := by omega
        rw [← Nat.add_sub_cancel' isLater, ← occursAt_drop within] at occurs
        exact search_eq_none (Option.map_eq_none_iff.mp notFound) occurs

/-- Searching from the end is searching in reversed words. -/
theorem rfind_eq_find_reverse : rfind x y start = find x.reverse y.reverse start := by
  simp only [rfind, find, List.length_reverse, List.isEmpty_reverse]

theorem overlapFrom_le (n : Nat) : overlapFrom x y n ≤ n := by
  induction n with
  | zero => exact le_refl 0
  | succ n ih =>
      rw [overlapFrom]
      split
      · exact le_refl _
      · exact Nat.le_succ_of_le ih

theorem le_overlapFrom {i n : Nat} (isLess : i ≤ n) (isOverlap : suffixOf x i = prefixOf y i) : i ≤ overlapFrom x y n := by
  induction n with
  | zero => exact isLess
  | succ n ih =>
      rw [overlapFrom]
      split
      · exact isLess
      · rename_i notOverlap
        refine ih (Nat.le_of_lt_succ (lt_of_le_of_ne isLess ?_))
        rintro rfl
        exact notOverlap isOverlap

theorem overlap_le_left : overlap x y ≤ x.length := le_trans (overlapFrom_le _) (min_le_left _ _)

/-- The overlap is at least as long as any. -/
theorem le_overlap {i : Nat} (inX : i ≤ x.length) (inY : i ≤ y.length) (isOverlap : suffixOf x i = prefixOf y i)
    : i ≤ overlap x y :=
  le_overlapFrom (le_min inX inY) isOverlap

theorem roverlapFrom_eq (n : Nat) : roverlapFrom x y n = overlapFrom y x n := by
  induction n with
  | zero => rfl
  | succ n ih => simp only [roverlapFrom, overlapFrom, ih, eq_comm]

theorem roverlap_eq : roverlap x y = overlap y x := by
  rw [roverlap, overlap, roverlapFrom_eq, min_comm]

theorem suffixOf_reverse (i : Nat) : suffixOf x.reverse i = (prefixOf x i).reverse := by
  rw [suffixOf, prefixOf, List.length_reverse, List.drop_reverse, List.reverse_inj]
  rcases le_total i x.length with within | beyond
  · rw [Nat.sub_sub_self within]
  · rw [Nat.sub_eq_zero_of_le beyond, Nat.sub_zero, List.take_of_length_le (le_refl _), List.take_of_length_le beyond]

theorem prefixOf_reverse (i : Nat) : prefixOf x.reverse i = (suffixOf x i).reverse := by
  rw [prefixOf, suffixOf, List.take_reverse]

theorem overlapFrom_reverse (n : Nat) : overlapFrom x.reverse y.reverse n = overlapFrom y x n := by
  induction n with
  | zero => rfl
  | succ n ih =>
      rw [overlapFrom, overlapFrom, ih]
      refine if_congr ?_ rfl rfl
      rw [suffixOf_reverse, prefixOf_reverse, List.reverse_inj, eq_comm]

theorem overlap_reverse : overlap x.reverse y.reverse = overlap y x := by
  rw [overlap, overlap, overlapFrom_reverse, List.length_reverse, List.length_reverse, min_comm]

theorem substr_isInfix (w : Word) (start length : Int) : w.substr start length <:+: w := by
  rw [substr]
  split
  · exact (List.take_prefix _ _).isInfix.trans (List.drop_suffix _ _).isInfix
  · exact List.nil_infix

/-- A substring that ends where the word does, or later. -/
theorem substr_isSuffix {w : Word} {start length : Int} (reaches : (w.length : Int) ≤ start + length)
    : w.substr start length <:+ w := by
  rw [substr]
  split
  · rw [List.take_of_length_le (by rw [List.length_drop]; omega)]
    exact List.drop_suffix _ _
  · exact List.nil_suffix

theorem substr_zero_isPrefix (w : Word) (length : Int) : w.substr 0 length <+: w := by
  rw [substr]
  split
  · exact List.take_prefix _ _
  · exact List.nil_prefix

/-- A word in the replaced one and in the replacement is in the result. -/
theorem isInfix_replace {w t replacement part : Word} (inWord : part <:+: w) (inReplacement : part <:+: replacement)
    : part <:+: w.replace t replacement := by
  rw [replace]
  split
  · rename_i i _
    exact inReplacement.trans (List.infix_append (w.take i) replacement _)
  · exact inWord

open Util.InternalString (isDigit)

theorem isDigit_of_mem_fromInt {n : Int} {c : Nat} (member : c ∈ fromInt n) : isDigit c = true := by
  rw [fromInt] at member
  split at member
  · cases member
  · split at member
    · obtain rfl := List.mem_singleton.mp member
      rfl
    · obtain ⟨digit, isDigitOf, rfl⟩ := List.mem_map.mp member
      have := Nat.digits_lt_base (by decide) (List.mem_reverse.mp isDigitOf)
      rw [isDigit, decide_eq_true_eq]
      omega

theorem fromInt_ne_nil {n : Int} (isNonNegative : 0 ≤ n) : fromInt n ≠ [] := by
  rw [fromInt, if_neg (not_lt.mpr isNonNegative)]
  split
  · exact List.cons_ne_nil _ _
  · rename_i isNonZero
    rw [ne_eq, List.map_eq_nil_iff, List.reverse_eq_nil_iff, Nat.digits_eq_nil_iff_eq_zero]
    omega

end Ava6.Strings.Word

import Ava6.Strings.Word

/-! How many characters a variable before a constant must at least have, where the concatenation of the two is equal to one
that starts with another constant.
-/

namespace Ava6.Strings

open Library.Occurrence

namespace Word

/-- Some characters of `c` that a word before `d` must start with, if it is not empty; from the end if `isRev`. -/
def getSufficientNonEmptyOverlap (c d : Word) (isRev : Bool) : Nat :=
  let cLen := c.length
  -- since non-empty, we start with character 1
  let c1 := if isRev then prefixOf c (cLen - 1) else c.drop 1
  let p := cLen - (if isRev then roverlap c1 d else overlap c1 d)
  match if isRev then rfind c1 d 0 else find c1 d 0 with
  | none => p
  | some p2 => if p > p2 + 1 then p2 + 1 else p

variable {c d z : Word}

/-- The other direction is the same on reversed words. -/
theorem getSufficientNonEmptyOverlap_reverse (c d : Word)
    : getSufficientNonEmptyOverlap c d true = getSufficientNonEmptyOverlap c.reverse d.reverse false := by
  have isDrop : c.reverse.drop 1 = (prefixOf c (c.length - 1)).reverse := by
    rw [List.drop_reverse, prefixOf]
  simp only [getSufficientNonEmptyOverlap, if_true, isDrop, rfind_eq_find_reverse, roverlap_eq, overlap_reverse,
    List.length_reverse, Bool.false_eq_true, if_false]

theorem getSufficientNonEmptyOverlap_bounds (isNonEmpty : c ≠ [])
    : 1 ≤ getSufficientNonEmptyOverlap c d false ∧ getSufficientNonEmptyOverlap c d false ≤ c.length := by
  have positive := List.length_pos_iff.mpr isNonEmpty
  have bound : overlap (c.drop 1) d ≤ c.length - 1 := by
    rw [← List.length_drop]
    exact overlap_le_left
  simp only [getSufficientNonEmptyOverlap, Bool.false_eq_true, if_false]
  split
  · omega
  · split <;> omega

/-- A position of `d` after the first character is no less than the number that is computed. -/
theorem getSufficientNonEmptyOverlap_le {n : Nat} {w : Word} (positive : 0 < n) (within : n ≤ c.length)
    (occurs : OccursAt d (c ++ w) n)
    : getSufficientNonEmptyOverlap c d false ≤ n := by
  have occurs1 : OccursAt d (c.drop 1 ++ w) (n - 1) := by
    rw [← List.drop_append_of_le_length (by omega), occursAt_drop (by rw [List.length_append]; omega)]
    rwa [Nat.add_sub_cancel' positive]
  have length1 : (c.drop 1).length = c.length - 1 := List.length_drop
  simp only [getSufficientNonEmptyOverlap, Bool.false_eq_true, if_false]
  rcases le_total (n - 1 + d.length) (c.drop 1).length with ends | straddles
  · -- all of `d` is in `c`: the first occurrence is not later
    have occurs2 := occurs1.of_append ends
    cases isFound : find (c.drop 1) d 0 with
    | none => exact absurd occurs2 (find_eq_none isFound (Nat.zero_le _))
    | some p2 =>
        have isFirst := (find_eq_some isFound).2.2 (n - 1) (Nat.zero_le _) occurs2
        simp only
        split <;> omega
  · -- `d` starts in `c`: the rest of `c` is an overlap
    have isOverlap : suffixOf (c.drop 1) (c.length - n) = prefixOf d (c.length - n) := by
      have cut := occurs1.overlap (by omega) straddles
      rw [length1, show c.length - 1 - (n - 1) = c.length - n by omega] at cut
      rwa [suffixOf, prefixOf, length1, show c.length - 1 - (c.length - n) = n - 1 by omega]
    have := le_overlap (by omega) (by omega) isOverlap
    split <;> (try split) <;> omega

/-- A shorter prefix would let the constants overlap, and the least overlap that is possible is the
sufficient one.
-/
theorem prefix_of_sufficient {w w' : Word} (isNonEmptyZ : z ≠ []) (same : z ++ d ++ w = c ++ w')
    : prefixOf c (getSufficientNonEmptyOverlap c d false) <+: z := by
  have isPrefixC : prefixOf c (getSufficientNonEmptyOverlap c d false) <+: c ++ w' :=
    (List.take_prefix _ _).trans (List.prefix_append _ _)
  have isPrefixZ : z <+: c ++ w' := by
    rw [← same, List.append_assoc]
    exact List.prefix_append _ _
  refine List.prefix_of_prefix_length_le isPrefixC isPrefixZ ?_
  rw [prefixOf, List.length_take]
  rcases le_total c.length z.length with isLonger | within
  · exact le_trans (min_le_right _ _) isLonger
  · have occurs : OccursAt d (c ++ w') z.length := ⟨z, w, same.symm, rfl⟩
    have isLess := getSufficientNonEmptyOverlap_le (List.length_pos_iff.mpr isNonEmptyZ) within occurs
    exact le_trans (min_le_left _ _) isLess

/-- The characters are a prefix of what is before `d`, or a suffix of what is after it, and there is at least one. -/
theorem getSufficientNonEmptyOverlap_sufficient (c d z w w' : Word) (isNonEmpty : c ≠ []) (isNonEmptyZ : z ≠ [])
    : (z ++ d ++ w = c ++ w' → prefixOf c (getSufficientNonEmptyOverlap c d false) <+: z)
      ∧ (w ++ d ++ z = w' ++ c → suffixOf c (getSufficientNonEmptyOverlap c d true) <:+ z)
      ∧ ∀ isRev, 1 ≤ getSufficientNonEmptyOverlap c d isRev ∧ getSufficientNonEmptyOverlap c d isRev ≤ c.length := by
  refine ⟨prefix_of_sufficient isNonEmptyZ, fun same => ?_, fun isRev => ?_⟩
  · have reversed : z.reverse ++ d.reverse ++ w.reverse = c.reverse ++ w'.reverse := by
      rw [← List.reverse_append, ← List.reverse_append, ← List.reverse_append, ← same, List.append_assoc]
    have isPrefix := prefix_of_sufficient (List.reverse_ne_nil_iff.mpr isNonEmptyZ) reversed
    rwa [← getSufficientNonEmptyOverlap_reverse, prefixOf_reverse, List.reverse_prefix] at isPrefix
  · cases isRev with
    | false => exact getSufficientNonEmptyOverlap_bounds isNonEmpty
    | true =>
        rw [getSufficientNonEmptyOverlap_reverse, ← List.length_reverse]
        exact getSufficientNonEmptyOverlap_bounds (List.reverse_ne_nil_iff.mpr isNonEmpty)

/-- In `"abab"`, `"ba"` occurs after the first character. -/
theorem getSufficientNonEmptyOverlap_sufficient_periodic
    : getSufficientNonEmptyOverlap [97, 98, 97, 98] [98, 97] false = 1
      ∧ prefixOf [97, 98, 97, 98] 1 <+: [97, 98, 97]
      ∧ getSufficientNonEmptyOverlap [97, 98, 97, 98] [98, 97] true = 1
      ∧ suffixOf [97, 98, 97, 98] 1 <:+ [98] :=
  ⟨rfl,
    (getSufficientNonEmptyOverlap_sufficient [97, 98, 97, 98] [98, 97] [97, 98, 97] [] [97]
      (by decide) (by decide)).1 rfl,
    rfl,
    (getSufficientNonEmptyOverlap_sufficient [97, 98, 97, 98] [98, 97] [98] [97] []
      (by decide) (by decide)).2.1 rfl⟩

end Word

end Ava6.Strings

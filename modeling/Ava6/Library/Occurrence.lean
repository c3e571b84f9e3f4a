import Mathlib.Data.List.Infix

/-! Where one word occurs in another, and the search for its first occurrence.
-/

namespace Ava6.Library.Occurrence

variable {α : Type*}

/-- A word starts at a position of another one. -/
def OccursAt (t w : List α) (p : Nat) : Prop := ∃ u v, w = u ++ t ++ v ∧ u.length = p

variable {s t u v w : List α} {p k : Nat}

theorem isInfix_iff : t <:+: w ↔ ∃ p, OccursAt t w p := by
  constructor
  · rintro ⟨u, v, rfl⟩
    exact ⟨u.length, u, v, rfl, rfl⟩
  · rintro ⟨p, u, v, rfl, -⟩
    exact ⟨u, v, rfl⟩

theorem OccursAt.isInfix (occurs : OccursAt t w p) : t <:+: w := isInfix_iff.mpr ⟨p, occurs⟩

theorem OccursAt.add_length_le (occurs : OccursAt t w p) : p + t.length ≤ w.length := by
  obtain ⟨u, v, rfl, rfl⟩ := occurs
  simp only [List.length_append]
  omega

theorem occursAt_iff : OccursAt t w p ↔ p ≤ w.length ∧ t <+: w.drop p := by
  constructor
  · rintro ⟨u, v, rfl, rfl⟩
    refine ⟨by simp only [List.length_append]; omega, v, ?_⟩
    rw [List.append_assoc, List.drop_left]
  · rintro ⟨within, v, isDrop⟩
    refine ⟨w.take p, v, ?_, List.length_take_of_le within⟩
    rw [List.append_assoc, isDrop, List.take_append_drop]

theorem occursAt_zero_iff : OccursAt t w 0 ↔ t <+: w := by
  rw [occursAt_iff, List.drop_zero]
  exact and_iff_right (Nat.zero_le _)

theorem occursAt_nil : OccursAt [] w p ↔ p ≤ w.length := by
  rw [occursAt_iff]
  exact and_iff_left List.nil_prefix

theorem occursAt_cons_succ {c : α} : OccursAt t (c :: w) (p + 1) ↔ OccursAt t w p := by
  rw [occursAt_iff, occursAt_iff, List.length_cons, List.drop_succ_cons, Nat.add_le_add_iff_right]

theorem OccursAt.left (occurs : OccursAt (t ++ v) w p) : OccursAt t w p := by
  obtain ⟨before, after, rfl, isP⟩ := occurs
  exact ⟨before, v ++ after, by simp only [List.append_assoc], isP⟩

theorem OccursAt.right (occurs : OccursAt (t ++ v) w p) : OccursAt v w (p + t.length) := by
  obtain ⟨before, after, rfl, rfl⟩ := occurs
  exact ⟨before ++ t, after, by simp only [List.append_assoc], List.length_append⟩

theorem occursAt_drop (within : k ≤ w.length) : OccursAt t (w.drop k) p ↔ OccursAt t w (k + p) := by
  rw [occursAt_iff, occursAt_iff, List.drop_drop, List.length_drop]
  exact and_congr_left fun _ => by omega

/-- An occurrence that ends within the first of two words is one in it. -/
theorem OccursAt.of_append (occurs : OccursAt t (s ++ u) p) (ends : p + t.length ≤ s.length) : OccursAt t s p := by
  rw [occursAt_iff] at occurs ⊢
  refine ⟨by omega, ?_⟩
  have isPrefix := occurs.2
  rw [List.drop_append_of_le_length (by omega)] at isPrefix
  exact List.prefix_of_prefix_length_le isPrefix (List.prefix_append _ _) (by rw [List.length_drop]; omega)

/-- An occurrence that starts in the first of two words and does not end there overlaps with its end. -/
theorem OccursAt.overlap (occurs : OccursAt t (s ++ u) p) (starts : p ≤ s.length) (ends : s.length ≤ p + t.length)
    : s.drop p = t.take (s.length - p) := by
  obtain ⟨-, v, isDrop⟩ := occursAt_iff.mp occurs
  rw [List.drop_append_of_le_length starts] at isDrop
  have taken := congrArg (List.take (s.length - p)) isDrop
  rw [List.take_append_of_le_length (by omega), List.take_left' (by rw [List.length_drop])] at taken
  exact taken.symm

/-- What comes before every occurrence can be dropped. -/
theorem isInfix_drop_iff (within : k ≤ w.length) (after : ∀ p, OccursAt t w p → k ≤ p)
    : t <:+: w.drop k ↔ t <:+: w := by
  rw [isInfix_iff, isInfix_iff]
  constructor
  · rintro ⟨p, occurs⟩
    exact ⟨k + p, (occursAt_drop within).mp occurs⟩
  · rintro ⟨p, occurs⟩
    refine ⟨p - k, (occursAt_drop within).mpr ?_⟩
    rwa [Nat.add_sub_cancel' (after p occurs)]

variable [DecidableEq α]

/-- The first position where a word starts. -/
def search (t : List α) : List α → Option Nat
  | [] => if t = [] then some 0 else none
  | c :: w => if t.isPrefixOf (c :: w) then some 0 else (search t w).map (· + 1)

theorem search_eq_some (found : search t w = some p) : OccursAt t w p ∧ ∀ q, OccursAt t w q → p ≤ q := by
  induction w generalizing p with
  | nil =>
      rw [search] at found
      split at found
      · rename_i isNil
        cases found
        exact ⟨by rw [isNil, occursAt_nil]; exact le_refl 0, fun q _ => Nat.zero_le q⟩
      · cases found
  | cons c w ih =>
      rw [search] at found
      split at found
      · rename_i isPrefix
        cases found
        exact ⟨occursAt_zero_iff.mpr (List.isPrefixOf_iff_prefix.mp isPrefix), fun q _ => Nat.zero_le q⟩
      · rename_i notPrefix
        obtain ⟨p', found', rfl⟩ := Option.map_eq_some_iff.mp found
        obtain ⟨occurs, first⟩ := ih found'
        refine ⟨occursAt_cons_succ.mpr occurs, fun q occurs' => ?_⟩
        cases q with
        | zero => exact absurd (List.isPrefixOf_iff_prefix.mpr (occursAt_zero_iff.mp occurs')) notPrefix
        | succ q => exact Nat.succ_le_succ (first q (occursAt_cons_succ.mp occurs'))

theorem search_eq_none (notFound : search t w = none) : ¬OccursAt t w p := by
  induction w generalizing p with
  | nil =>
      rw [search] at notFound
      split at notFound
      · cases notFound
      · rename_i notNil
        intro occurs
        have bound := occurs.add_length_le
        have positive := List.length_pos_iff.mpr notNil
        rw [List.length_nil] at bound
        omega
  | cons c w ih =>
      rw [search] at notFound
      split at notFound
      · cases notFound
      · rename_i notPrefix
        intro occurs
        cases p with
        | zero => exact notPrefix (List.isPrefixOf_iff_prefix.mpr (occursAt_zero_iff.mp occurs))
        | succ p => exact ih (Option.map_eq_none_iff.mp notFound) (occursAt_cons_succ.mp occurs)

end Ava6.Library.Occurrence

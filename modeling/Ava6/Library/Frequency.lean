import Mathlib

/-! Most frequent values, the least one among equally frequent ones. -/

namespace Ava6.Library.Frequency

variable {V : Type*} [LinearOrder V] {count count' : V → Nat}

/-- The value is more frequent than every other one, or as frequent and less. -/
def Dominant (count : V → Nat) (d : V) : Prop :=
  ∀ u, u ≠ d → count u < count d ∨ count u = count d ∧ d < u

theorem Dominant.unique {d d' : V} (first : Dominant count d) (second : Dominant count d')
    : d = d' := by
  by_contra differs
  rcases first d' (Ne.symm differs) with less | ⟨same, less⟩
  · rcases second d differs with less' | ⟨same', -⟩
    · exact absurd less (Nat.lt_asymm less')
    · exact absurd less (by simp [same'])
  · rcases second d differs with less' | ⟨-, less'⟩
    · exact absurd less' (by simp [same])
    · exact absurd less (lt_asymm less')

/-- No value occurs more than `max` times, and the given value is at most those that occur so
often. The given value itself may occur less often.
-/
structure Dominates (count : V → Nat) (value : Option V) (max : Nat) : Prop where
  bound (u : V) : count u ≤ max
  least (positive : 0 < max) : ∃ m, value = some m ∧ ∀ u, count u = max → m ≤ u

/-- The given value occurs `max` times. -/
def Attains (count : V → Nat) (value : Option V) (max : Nat) : Prop :=
  0 < max → ∃ m, value = some m ∧ count m = max

/-- The test for a new most frequent value. -/
def Exceeds (value : Option V) (max : Nat) (v : V) (n : Nat) : Prop :=
  n > max ∨ (n = max ∧ value.any (v < ·) = true)

instance (value : Option V) (max : Nat) (v : V) (n : Nat) : Decidable (Exceeds value max v n) :=
  inferInstanceAs (Decidable (_ ∨ _))

/-- The value `v` occurs `n` times now and no other one more often than before. -/
theorem Dominates.update {value : Option V} {max n : Nat} {v : V}
    (dominates : Dominates count value max) (written : count' v = n) (positive : 0 < n)
    (others : ∀ u, u ≠ v → count' u ≤ count u)
    : Dominates count' (if Exceeds value max v n then some v else value)
        (if Exceeds value max v n then n else max) := by
  by_cases exceeds : Exceeds value max v n
  · rw [if_pos exceeds, if_pos exceeds]
    have grown : max ≤ n := by
      rcases exceeds with more | ⟨same, -⟩
      · exact Nat.le_of_lt more
      · exact Nat.le_of_eq same.symm
    constructor
    · intro u
      by_cases isNew : u = v
      · exact Nat.le_of_eq (isNew ▸ written)
      · exact Nat.le_trans (others u isNew) (Nat.le_trans (dominates.bound u) grown)
    · intro _
      refine ⟨v, rfl, fun u often => ?_⟩
      by_cases isNew : u = v
      · exact le_of_eq isNew.symm
      · have old := others u isNew
        have bound := dominates.bound u
        rcases exceeds with more | ⟨same, less⟩
        · exact absurd often (by omega)
        · obtain ⟨m, isSome, atMost⟩ := dominates.least (by omega)
          rw [isSome] at less
          exact le_of_lt (lt_of_lt_of_le (by simpa using less) (atMost u (by omega)))
  · rw [if_neg exceeds, if_neg exceeds]
    simp only [Exceeds, not_or, not_and, Nat.not_lt] at exceeds
    constructor
    · intro u
      by_cases isNew : u = v
      · rw [isNew, written]
        exact exceeds.1
      · exact Nat.le_trans (others u isNew) (dominates.bound u)
    · intro maxPositive
      obtain ⟨m, isSome, atMost⟩ := dominates.least maxPositive
      refine ⟨m, isSome, fun u often => ?_⟩
      by_cases isNew : u = v
      · rw [isNew, written] at often
        have notLess := exceeds.2 often
        rw [isSome] at notLess
        rw [isNew]
        simpa using notLess
      · exact atMost u (Nat.le_antisymm (dominates.bound u) (often ▸ others u isNew))

/-- With exact counts of the others the given value stays attained. -/
theorem Attains.update {value : Option V} {max n : Nat} {v : V}
    (attains : Attains count value max) (written : count' v = n)
    (others : ∀ u, u ≠ v → count' u = count u) (grown : count v ≤ n)
    : Attains count' (if Exceeds value max v n then some v else value)
        (if Exceeds value max v n then n else max) := by
  by_cases exceeds : Exceeds value max v n
  · rw [if_pos exceeds, if_pos exceeds]
    exact fun _ => ⟨v, rfl, written⟩
  · rw [if_neg exceeds, if_neg exceeds]
    simp only [Exceeds, not_or, not_and, Nat.not_lt] at exceeds
    intro positive
    obtain ⟨m, isSome, often⟩ := attains positive
    refine ⟨m, isSome, ?_⟩
    by_cases isNew : m = v
    · subst isNew
      rw [written]
      exact Nat.le_antisymm exceeds.1 (often ▸ grown)
    · rw [others m isNew, often]

end Ava6.Library.Frequency

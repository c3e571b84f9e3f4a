import Mathlib.Algebra.BigOperators.Ring.List
import Mathlib.Data.List.Sort
import Mathlib.Tactic.Ring

/-! Sums of monomials as maps from variables to coefficients, over any variables with identifiers. The constant has no
variable, a coefficient that is not there is one, and the entries are in the order of their identifiers.
-/

namespace Ava6.Library

abbrev MonomialSum (α : Type*) := List (Option α × Option Int)

namespace MonomialSum

variable {α : Type*} (id : α → Nat) (value : α → Int)

/-- The constant comes first. -/
def keyId : Option α → Nat
  | none => 0
  | some v => id v + 1

def monomialValue (m : Option α × Option Int) : Int := m.2.getD 1 * (m.1.map value).getD 1

def sumValue (msum : MonomialSum α) : Int := (msum.map (monomialValue value)).sum

variable [DecidableEq α]

/-- Nothing where two monomials have the same variable. -/
def ofMonomials (monomials : List (Option α × Option Int)) : Option (MonomialSum α) :=
  if (monomials.map Prod.fst).Nodup then some (monomials.insertionSort fun m m' => keyId id m.1 ≤ keyId id m'.1) else none

/-- The coefficient of a variable that has one already. -/
def setCoefficient (key : Option α) (c : Int) : MonomialSum α → MonomialSum α
  | [] => []
  | m :: rest => if m.1 = key then (key, some c) :: rest else m :: setCoefficient key c rest

/-- The monomial of the other side of an equality is subtracted. -/
def subtractMonomial (msum : MonomialSum α) (m : Option α × Option Int) : MonomialSum α :=
  match msum.lookup m.1 with
  | some c => setCoefficient m.1 (c.getD 1 - m.2.getD 1) msum
  | none => msum.orderedInsert (fun m m' => keyId id m.1 ≤ keyId id m'.1) (m.1, some (-m.2.getD 1))

variable {id value} {monomials msum : MonomialSum α}

theorem ofMonomials_perm (found : ofMonomials id monomials = some msum) : msum.Perm monomials := by
  rw [ofMonomials] at found
  split at found
  · cases found
    exact List.perm_insertionSort _ _
  · cases found

theorem nodup_ofMonomials (found : ofMonomials id monomials = some msum)
    : (msum.map Prod.fst).Nodup := by
  rw [((ofMonomials_perm found).map Prod.fst).nodup_iff]
  rw [ofMonomials] at found
  split at found
  · next nodup => exact nodup
  · cases found

theorem sumValue_ofMonomials (found : ofMonomials id monomials = some msum)
    : sumValue value msum = sumValue value monomials :=
  ((ofMonomials_perm found).map _).sum_eq

theorem sumValue_setCoefficient {key : Option α} {c' : Option Int} (c : Int)
    (found : msum.lookup key = some c')
    : sumValue value (setCoefficient key c msum)
      = sumValue value msum + monomialValue value (key, some (c - c'.getD 1)) := by
  induction msum with
  | nil => cases found
  | cons m rest ih =>
      obtain ⟨key', c''⟩ := m
      rw [setCoefficient]
      split
      · next isKey =>
          simp only at isKey
          subst isKey
          rw [List.lookup_cons_self, Option.some_inj] at found
          subst found
          simp only [sumValue, List.map_cons, List.sum_cons, monomialValue, Option.getD_some]
          ring
      · next notKey =>
          have found' : rest.lookup key = some c' := by
            rw [List.lookup_cons, beq_eq_false_iff_ne.mpr (Ne.symm notKey)] at found
            exact found
          have ih := ih found'
          simp only [sumValue, List.map_cons, List.sum_cons] at ih ⊢
          rw [ih]
          ring

theorem keys_setCoefficient (key : Option α) (c : Int) (msum : MonomialSum α)
    : (setCoefficient key c msum).map Prod.fst = msum.map Prod.fst := by
  induction msum with
  | nil => rfl
  | cons m rest ih =>
      rw [setCoefficient]
      split
      · next isKey => rw [List.map_cons, List.map_cons, isKey]
      · rw [List.map_cons, List.map_cons, ih]

theorem sumValue_subtractMonomial (msum : MonomialSum α) (m : Option α × Option Int)
    : sumValue value (subtractMonomial id msum m) = sumValue value msum - monomialValue value m := by
  rw [subtractMonomial]
  split
  · next c found =>
      rw [sumValue_setCoefficient _ found]
      simp only [monomialValue, Option.getD_some]
      ring
  · rw [sumValue, ((List.perm_orderedInsert _ _ _).map _).sum_eq, List.map_cons, List.sum_cons]
    simp only [monomialValue, Option.getD_some, sumValue]
    ring

theorem nodup_subtractMonomial (nodup : (msum.map Prod.fst).Nodup) (m : Option α × Option Int)
    : ((subtractMonomial id msum m).map Prod.fst).Nodup := by
  rw [subtractMonomial]
  split
  · rw [keys_setCoefficient]
    exact nodup
  · next notFound =>
      rw [((List.perm_orderedInsert _ _ _).map _).nodup_iff, List.map_cons, List.nodup_cons]
      refine ⟨fun isMem => ?_, nodup⟩
      obtain ⟨entry, isEntry, isKey⟩ := List.mem_map.mp isMem
      have notKey := List.lookup_eq_none_iff.mp notFound entry isEntry
      simp [isKey] at notKey

theorem sumValue_subtractAll (msum second : MonomialSum α)
    : sumValue value (second.foldl (subtractMonomial id) msum) = sumValue value msum - sumValue value second := by
  induction second generalizing msum with
  | nil => exact (sub_zero _).symm
  | cons m rest ih =>
      rw [List.foldl_cons, ih, sumValue_subtractMonomial, sumValue, sumValue, sumValue, List.map_cons, List.sum_cons]
      ring

theorem nodup_subtractAll (nodup : (msum.map Prod.fst).Nodup) (second : MonomialSum α)
    : ((second.foldl (subtractMonomial id) msum).map Prod.fst).Nodup := by
  induction second generalizing msum with
  | nil => exact nodup
  | cons m rest ih => exact ih (nodup_subtractMonomial nodup m)

/-- A sum is the monomial of a variable and the others. -/
theorem sumValue_split {v : α} {c : Option Int} (nodup : (msum.map Prod.fst).Nodup)
    (found : msum.lookup (some v) = some c)
    : sumValue value msum = c.getD 1 * value v + sumValue value (msum.filter fun m => m.1 ≠ some v) := by
  induction msum with
  | nil => cases found
  | cons m rest ih =>
      obtain ⟨key, c'⟩ := m
      rw [List.map_cons, List.nodup_cons] at nodup
      by_cases isKey : key = some v
      · subst isKey
        rw [List.lookup_cons_self, Option.some_inj] at found
        subst found
        have others : rest.filter (fun m => m.1 ≠ some v) = rest := by
          refine List.filter_eq_self.mpr fun m isMem => decide_eq_true fun isKey => nodup.1 ?_
          exact List.mem_map.mpr ⟨m, isMem, isKey⟩
        rw [List.filter_cons_of_neg (by simp), others]
        rfl
      · rw [List.lookup_cons, beq_eq_false_iff_ne.mpr (Ne.symm isKey)] at found
        rw [List.filter_cons_of_pos (by simpa using isKey), sumValue, List.map_cons, List.sum_cons]
        have ih := ih nodup.2 found
        rw [sumValue] at ih
        rw [ih, sumValue, sumValue, List.map_cons, List.sum_cons]
        ring

end MonomialSum

end Ava6.Library

import Mathlib.Algebra.Field.Rat
import Mathlib.Algebra.Algebra.Rat
import Mathlib.Tactic.Ring
import Ava6.Library.OrderedMap

/-! Linear forms: ordered maps from keys to rational coefficients that are not zero. A form is determined by its
coefficients, and has a value for all values of the keys.
-/

namespace Ava6.Library

structure LinearForm (K : Type*) [LinearOrder K] where
  monomials : OrderedMap K ℚ
  nonzero : ∀ m ∈ monomials.entries, m.2 ≠ 0

namespace LinearForm

variable {K : Type*} [LinearOrder K] {f g : LinearForm K} {key other : K} {c : ℚ}

def empty : LinearForm K := ⟨.empty, nofun⟩

def entries (f : LinearForm K) : List (K × ℚ) := f.monomials.entries

def erase (f : LinearForm K) (key : K) : LinearForm K :=
  ⟨f.monomials.erase key, fun m member => f.nonzero m (List.mem_of_mem_filter member)⟩

/-- Sets a coefficient, or erases the key. -/
def assign (f : LinearForm K) (key : K) (c : ℚ) : LinearForm K :=
  if differs : c ≠ 0 then
    ⟨f.monomials.set key c, fun m member =>
      (OrderedMap.mem_setEntries member).elim (fun isNew => isNew ▸ differs) (f.nonzero m)⟩
  else f.erase key

/-- The coefficient of a key, zero if it is not there. -/
def coefficient (f : LinearForm K) (key : K) : ℚ := (f.monomials.find? key).getD 0

/-- Adds a multiple of a key. -/
def addMonomial (f : LinearForm K) (key : K) (c : ℚ) : LinearForm K := f.assign key (f.coefficient key + c)

/-- Multiplies all coefficients. -/
def scale (f : LinearForm K) (c : ℚ) : LinearForm K :=
  if differs : c ≠ 0 then
    ⟨f.monomials.mapValues (· * c), fun m member => by
      obtain ⟨old, isOld, rfl⟩ := List.mem_map.mp member
      exact mul_ne_zero (f.nonzero old isOld) differs⟩
  else empty

theorem find?_eq (f : LinearForm K) (key : K)
    : f.monomials.find? key = if f.coefficient key = 0 then none else some (f.coefficient key) := by
  rw [coefficient]
  cases found : f.monomials.find? key with
  | none => simp
  | some c =>
      have differs : c ≠ 0 := f.nonzero (key, c) (OrderedMap.find?_eq_some.mp found)
      simp [differs]

theorem mem_entries : (key, c) ∈ f.entries ↔ f.coefficient key = c ∧ c ≠ 0 := by
  rw [entries, ← OrderedMap.find?_eq_some, find?_eq]
  split
  · next isZero => simp [isZero, eq_comm]
  · next differs =>
      rw [Option.some.injEq]
      exact ⟨fun same => ⟨same, same ▸ differs⟩, And.left⟩

/-- Forms with the same coefficients are the same. -/
theorem ext (same : ∀ key, f.coefficient key = g.coefficient key) : f = g := by
  have sameMembers (m : K × ℚ) : m ∈ f.entries ↔ m ∈ g.entries := by
    obtain ⟨key, c⟩ := m
    rw [mem_entries, mem_entries, same]
  have perm : f.entries.Perm g.entries :=
    (List.perm_ext_iff_of_nodup f.monomials.entries_nodup g.monomials.entries_nodup).mpr sameMembers
  have sameEntries : f.monomials.entries = g.monomials.entries :=
    perm.eq_of_pairwise (fun _ _ _ _ less more => absurd more (lt_asymm less)) f.monomials.sorted g.monomials.sorted
  obtain ⟨monomials, nonzero⟩ := f
  obtain ⟨monomials', nonzero'⟩ := g
  obtain rfl := OrderedMap.ext sameEntries
  rfl

theorem coefficient_eq_iff (f g : LinearForm K)
    : f.coefficient key = g.coefficient key ↔ ∀ c, (key, c) ∈ f.entries ↔ (key, c) ∈ g.entries := by
  constructor
  · intro same c
    rw [mem_entries, mem_entries, same]
  · intro sameMembers
    by_cases isZero : f.coefficient key = 0
    · by_contra differs
      have member : (key, g.coefficient key) ∈ g.entries :=
        mem_entries.mpr ⟨rfl, fun isZero' => differs (isZero.trans isZero'.symm)⟩
      exact differs (mem_entries.mp ((sameMembers _).mpr member)).1
    · have member := (sameMembers _).mp (mem_entries.mpr ⟨rfl, isZero⟩)
      exact (mem_entries.mp member).1.symm

@[simp]
theorem coefficient_empty (key : K) : (empty : LinearForm K).coefficient key = 0 := rfl

theorem coefficient_of_mem (member : (key, c) ∈ f.entries) : f.coefficient key = c := (mem_entries.mp member).1

theorem mem_entries_erase {m : K × ℚ} : m ∈ (f.erase key).entries ↔ m ∈ f.entries ∧ m.1 ≠ key := by
  simp [entries, erase, OrderedMap.erase, OrderedMap.filter, List.mem_filter]

theorem coefficient_erase (f : LinearForm K) (key other : K)
    : (f.erase key).coefficient other = if other = key then 0 else f.coefficient other := by
  split
  · next same =>
      by_contra differs
      exact (mem_entries_erase.mp (mem_entries.mpr ⟨rfl, differs⟩)).2 same
  · next differs =>
      refine (coefficient_eq_iff _ _).mpr (fun c => ?_)
      rw [mem_entries_erase, and_iff_left differs]

theorem coefficient_assign (f : LinearForm K) (key : K) (c : ℚ) (other : K)
    : (f.assign key c).coefficient other = if other = key then c else f.coefficient other := by
  rw [assign]
  split
  · rw [coefficient, OrderedMap.find?_set]
    split
    · rfl
    · rfl
  · next isZero => rw [coefficient_erase, not_not.mp isZero]

theorem coefficient_addMonomial (f : LinearForm K) (key : K) (c : ℚ) (other : K)
    : (f.addMonomial key c).coefficient other = f.coefficient other + if other = key then c else 0 := by
  rw [addMonomial, coefficient_assign]
  split
  · next same => rw [same]
  · rw [add_zero]

theorem entries_scale (f : LinearForm K) (differs : c ≠ 0)
    : (f.scale c).entries = f.entries.map (fun m => (m.1, m.2 * c)) := by
  rw [scale, dif_pos differs]
  rfl

theorem coefficient_scale (f : LinearForm K) (c : ℚ) (key : K)
    : (f.scale c).coefficient key = f.coefficient key * c := by
  by_cases isZero : c = 0
  · rw [scale, dif_neg (not_not.mpr isZero), isZero, mul_zero]
    rfl
  · have mem (c' : ℚ) : (key, c') ∈ (f.scale c).entries ↔ ∃ old, (key, old) ∈ f.entries ∧ old * c = c' := by
      rw [entries_scale f isZero, List.mem_map]
      constructor
      · rintro ⟨m, isOld, same⟩
        obtain ⟨rfl, rfl⟩ := Prod.mk.inj same
        exact ⟨m.2, isOld, rfl⟩
      · rintro ⟨old, isOld, rfl⟩
        exact ⟨(key, old), isOld, rfl⟩
    by_cases missing : f.coefficient key = 0
    · rw [missing, zero_mul]
      by_contra differs
      obtain ⟨old, isOld, -⟩ := (mem _).mp (mem_entries.mpr ⟨rfl, differs⟩)
      exact (mem_entries.mp isOld).2 ((coefficient_of_mem isOld).symm.trans missing)
    · exact coefficient_of_mem ((mem _).mpr ⟨_, mem_entries.mpr ⟨rfl, missing⟩, rfl⟩)

theorem scale_scale (f : LinearForm K) (c d : ℚ) : (f.scale c).scale d = f.scale (c * d) := by
  refine ext (fun key => ?_)
  rw [coefficient_scale, coefficient_scale, coefficient_scale, mul_assoc]

@[simp]
theorem scale_one (f : LinearForm K) : f.scale 1 = f := by
  refine ext (fun key => ?_)
  rw [coefficient_scale, mul_one]

theorem erase_scale (f : LinearForm K) (key : K) (c : ℚ) : (f.scale c).erase key = (f.erase key).scale c := by
  refine ext (fun other => ?_)
  rw [coefficient_erase, coefficient_scale, coefficient_scale, coefficient_erase]
  split
  · rw [zero_mul]
  · rfl

section Values

variable {R : Type*} [CommRing R] [Algebra ℚ R] (v : K → R)

/-- The value of a form for values of the keys. -/
def eval (f : LinearForm K) : R := f.monomials.total (fun key c => algebraMap ℚ R c * v key)

@[simp]
theorem eval_empty : (empty : LinearForm K).eval v = 0 := rfl

theorem eval_eq_sum (f : LinearForm K) : f.eval v = (f.entries.map (fun m => algebraMap ℚ R m.2 * v m.1)).sum := rfl

/-- A form is one monomial and the others. -/
theorem eval_erase (f : LinearForm K) (key : K)
    : f.eval v = algebraMap ℚ R (f.coefficient key) * v key + (f.erase key).eval v := by
  by_cases missing : f.coefficient key = 0
  · have notThere : f.monomials.find? key = none := by rw [find?_eq, if_pos missing]
    have unchanged : (f.erase key).eval v = f.eval v :=
      congrArg (OrderedMap.total _) (OrderedMap.erase_of_absent notThere)
    rw [missing, map_zero, zero_mul, zero_add, unchanged]
  · have found : f.monomials.find? key = some (f.coefficient key) := by rw [find?_eq, if_neg missing]
    exact OrderedMap.total_erase found

theorem eval_addMonomial (f : LinearForm K) (key : K) (c : ℚ)
    : (f.addMonomial key c).eval v = f.eval v + algebraMap ℚ R c * v key := by
  have sameRest : (f.addMonomial key c).erase key = f.erase key := by
    refine ext (fun other => ?_)
    rw [coefficient_erase, coefficient_erase, coefficient_addMonomial]
    split
    · rfl
    · rw [add_zero]
  rw [eval_erase v _ key, sameRest, coefficient_addMonomial, if_pos rfl, eval_erase v f key, map_add]
  ring

theorem eval_scale (f : LinearForm K) (c : ℚ) : (f.scale c).eval v = f.eval v * algebraMap ℚ R c := by
  by_cases isZero : c = 0
  · rw [scale, dif_neg (not_not.mpr isZero), isZero, map_zero, mul_zero, eval_empty]
  · rw [eval_eq_sum, entries_scale f isZero, eval_eq_sum, List.map_map]
    generalize f.entries = entries
    induction entries with
    | nil => simp
    | cons m rest ih =>
        rw [List.map_cons, List.sum_cons, ih, List.map_cons, List.sum_cons, Function.comp_apply, map_mul]
        ring

/-- The coefficients are read off the list of monomials. -/
theorem coefficient_eq_sum (f : LinearForm K) (key : K)
    : f.coefficient key = (f.entries.map (fun m => if key = m.1 then m.2 else 0)).sum := by
  let indicator (other : K) : ℚ := if key = other then 1 else 0
  have others : (f.erase key).eval indicator = 0 := by
    rw [eval_eq_sum]
    refine List.sum_eq_zero (fun x member => ?_)
    obtain ⟨m, isOther, rfl⟩ := List.mem_map.mp member
    have differs : ¬key = m.1 := fun same => (mem_entries_erase.mp isOther).2 same.symm
    rw [show indicator m.1 = 0 from if_neg differs, mul_zero]
  have split := eval_erase indicator f key
  rw [others, add_zero, show indicator key = 1 from if_pos rfl, mul_one, eval_eq_sum] at split
  refine split.symm.trans (congrArg List.sum (List.map_congr_left (fun m _ => ?_)))
  simp [indicator]

end Values

end LinearForm

end Ava6.Library

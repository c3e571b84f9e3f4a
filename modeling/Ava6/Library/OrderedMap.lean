import Mathlib

/-! Finite maps with ordered keys, as lists of entries, and sums over their entries. -/

namespace Ava6.Library

/-- The entries have distinct keys, in order. -/
structure OrderedMap (K V : Type*) [LinearOrder K] where
  entries : List (K × V)
  sorted : entries.Pairwise (fun first second => first.1 < second.1)

namespace OrderedMap

variable {K V : Type*} [LinearOrder K] {map : OrderedMap K V} {key : K} {value old : V}

@[ext]
theorem ext {map map' : OrderedMap K V} (same : map.entries = map'.entries) : map = map' := by
  cases map
  cases map'
  cases same
  rfl

def empty : OrderedMap K V := ⟨[], List.Pairwise.nil⟩

def find? (map : OrderedMap K V) (key : K) : Option V :=
  (map.entries.find? (·.1 = key)).map Prod.snd

/-- Inserts the value, or overwrites the one at the key. -/
def setEntries (key : K) (value : V) : List (K × V) → List (K × V)
  | [] => [(key, value)]
  | entry :: rest =>
      if key < entry.1 then (key, value) :: entry :: rest
      else if key = entry.1 then (key, value) :: rest
      else entry :: setEntries key value rest

theorem mem_setEntries {entries : List (K × V)} {entry : K × V}
    (member : entry ∈ setEntries key value entries)
    : entry = (key, value) ∨ entry ∈ entries := by
  induction entries with
  | nil => exact Or.inl (List.mem_singleton.mp member)
  | cons first rest ih =>
      rw [setEntries] at member
      split at member
      · exact List.mem_cons.mp member
      · split at member
        · exact (List.mem_cons.mp member).imp id (List.mem_cons_of_mem first)
        · rcases List.mem_cons.mp member with isFirst | inRest
          · exact Or.inr (isFirst ▸ List.mem_cons_self)
          · exact (ih inRest).imp id (List.mem_cons_of_mem first)

theorem sorted_setEntries {entries : List (K × V)}
    (sorted : entries.Pairwise (fun first second => first.1 < second.1))
    : (setEntries key value entries).Pairwise (fun first second => first.1 < second.1) := by
  induction entries with
  | nil => exact List.pairwise_singleton _ _
  | cons first rest ih =>
      obtain ⟨less, sortedRest⟩ := List.pairwise_cons.mp sorted
      rw [setEntries]
      split
      · next before =>
          refine List.pairwise_cons.mpr ⟨fun entry member => ?_, sorted⟩
          rcases List.mem_cons.mp member with isFirst | inRest
          · rw [isFirst]
            exact before
          · exact lt_trans before (less entry inRest)
      · next notBefore =>
          split
          · next same => exact List.pairwise_cons.mpr ⟨same ▸ less, sortedRest⟩
          · next differs =>
              refine List.pairwise_cons.mpr ⟨fun entry member => ?_, ih sortedRest⟩
              rcases mem_setEntries member with isNew | inRest
              · rw [isNew]
                exact lt_of_le_of_ne (not_lt.mp notBefore) (Ne.symm differs)
              · exact less entry inRest

def set (map : OrderedMap K V) (key : K) (value : V) : OrderedMap K V :=
  ⟨setEntries key value map.entries, sorted_setEntries map.sorted⟩

def filter (map : OrderedMap K V) (p : K × V → Bool) : OrderedMap K V :=
  ⟨map.entries.filter p, map.sorted.filter p⟩

def erase (map : OrderedMap K V) (key : K) : OrderedMap K V := map.filter (·.1 ≠ key)

def mapValues {W : Type*} (map : OrderedMap K V) (f : V → W) : OrderedMap K W :=
  ⟨map.entries.map (fun entry => (entry.1, f entry.2)), by simpa [List.pairwise_map] using map.sorted⟩

theorem keys_nodup (map : OrderedMap K V) : (map.entries.map Prod.fst).Nodup :=
  List.Pairwise.map Prod.fst (fun _ _ less => ne_of_lt less) map.sorted

theorem entries_nodup (map : OrderedMap K V) : map.entries.Nodup := map.keys_nodup.of_map

theorem find?_eq_some : map.find? key = some value ↔ (key, value) ∈ map.entries := by
  rw [find?, Option.map_eq_some_iff]
  constructor
  · rintro ⟨entry, found, rfl⟩
    obtain rfl : entry.1 = key := by simpa using List.find?_some found
    exact List.mem_of_find?_eq_some found
  · intro member
    refine ⟨(key, value), ?_, rfl⟩
    have found : (map.entries.find? (·.1 = key)).isSome := by
      rw [List.find?_isSome]
      exact ⟨_, member, by simp⟩
    obtain ⟨entry, isSome⟩ := Option.isSome_iff_exists.mp found
    have same : entry.1 = key := by simpa using List.find?_some isSome
    have inEntries := List.mem_of_find?_eq_some isSome
    rw [isSome, List.inj_on_of_nodup_map map.keys_nodup inEntries member same]

theorem find?_eq_none : map.find? key = none ↔ ∀ value, (key, value) ∉ map.entries := by
  constructor
  · intro missing value member
    rw [find?_eq_some.mpr member] at missing
    exact absurd missing (by simp)
  · intro absent
    cases found : map.find? key with
    | none => rfl
    | some value => exact absurd (find?_eq_some.mp found) (absent value)

theorem filter_of_absent {entries : List (K × V)} (absent : ∀ value, (key, value) ∉ entries)
    : entries.filter (·.1 ≠ key) = entries := by
  refine List.filter_eq_self.mpr (fun entry member => ?_)
  have differs : entry.1 ≠ key := fun same => absent entry.2 (same ▸ member)
  simpa using differs

theorem setEntries_perm {entries : List (K × V)}
    (sorted : entries.Pairwise (fun first second => first.1 < second.1))
    : (setEntries key value entries).Perm ((key, value) :: entries.filter (·.1 ≠ key)) := by
  induction entries with
  | nil => exact List.Perm.refl _
  | cons first rest ih =>
      obtain ⟨less, sortedRest⟩ := List.pairwise_cons.mp sorted
      have above (least : key ≤ first.1) : rest.filter (·.1 ≠ key) = rest := by
        refine filter_of_absent (fun v member => ?_)
        exact absurd (less (key, v) member) (not_lt.mpr least)
      rw [setEntries]
      split
      · next before =>
          have kept : decide (first.1 ≠ key) = true := by simpa using ne_of_gt before
          rw [List.filter_cons, if_pos kept, above (le_of_lt before)]
      · split
        · next same =>
            have dropped : ¬decide (first.1 ≠ key) = true := by simp [same]
            rw [List.filter_cons, if_neg dropped, above (le_of_eq same)]
        · next differs =>
            have kept : decide (first.1 ≠ key) = true := by simpa using Ne.symm differs
            rw [List.filter_cons, if_pos kept]
            exact ((ih sortedRest).cons first).trans (List.Perm.swap _ _ _)

theorem set_perm (map : OrderedMap K V) (key : K) (value : V)
    : (map.set key value).entries.Perm ((key, value) :: (map.erase key).entries) :=
  setEntries_perm map.sorted

theorem mem_set {entry : K × V}
    : entry ∈ (map.set key value).entries ↔ entry = (key, value) ∨ entry ∈ map.entries ∧ entry.1 ≠ key := by
  rw [(map.set_perm key value).mem_iff, List.mem_cons, erase, filter, List.mem_filter, decide_eq_true_eq]

theorem find?_set (map : OrderedMap K V) (key : K) (value : V) (other : K)
    : (map.set key value).find? other = if other = key then some value else map.find? other := by
  split
  · next same => exact find?_eq_some.mpr (mem_set.mpr (Or.inl (by rw [same])))
  · next differs =>
      refine Option.ext (fun found => ?_)
      rw [find?_eq_some, find?_eq_some, mem_set, Prod.mk.injEq]
      constructor
      · rintro (⟨same, -⟩ | ⟨member, -⟩)
        · exact absurd same differs
        · exact member
      · exact fun member => Or.inr ⟨member, differs⟩

theorem erase_perm (found : map.find? key = some value)
    : map.entries.Perm ((key, value) :: (map.erase key).entries) := by
  have member := find?_eq_some.mp found
  refine (List.perm_ext_iff_of_nodup map.entries_nodup ?_).mpr (fun entry => ?_)
  · refine List.nodup_cons.mpr ⟨by simp [erase, filter], ?_⟩
    exact (map.erase key).entries_nodup
  · rw [List.mem_cons, erase, filter, List.mem_filter]
    constructor
    · intro inEntries
      by_cases same : entry.1 = key
      · exact Or.inl (List.inj_on_of_nodup_map map.keys_nodup inEntries member same)
      · exact Or.inr ⟨inEntries, by simpa using same⟩
    · rintro (rfl | ⟨inEntries, -⟩)
      · exact member
      · exact inEntries

theorem erase_of_absent (missing : map.find? key = none) : map.erase key = map :=
  ext (filter_of_absent (find?_eq_none.mp missing))

/-- Maps of the same size are equal if one has the entries of the other. -/
theorem perm_of_subset {map map' : OrderedMap K V}
    (size : map.entries.length = map'.entries.length)
    (subset : ∀ entry ∈ map.entries, map'.find? entry.1 = some entry.2)
    : map.entries.Perm map'.entries := by
  refine (List.subperm_of_subset map.entries_nodup (fun entry member => ?_)).perm_of_length_le
    (Nat.le_of_eq size.symm)
  exact find?_eq_some.mp (subset entry member)

section Totals

variable {M : Type*} [AddCommMonoid M]

/-- The sum over the entries. -/
def total (f : K → V → M) (map : OrderedMap K V) : M :=
  (map.entries.map (fun entry => f entry.1 entry.2)).sum

variable {f : K → V → M}

theorem total_congr {map map' : OrderedMap K V} (perm : map.entries.Perm map'.entries)
    : map.total f = map'.total f :=
  (perm.map _).sum_eq

theorem total_erase (found : map.find? key = some value)
    : map.total f = f key value + (map.erase key).total f := by
  have sums := ((erase_perm found).map (fun entry => f entry.1 entry.2)).sum_eq
  rwa [List.map_cons, List.sum_cons] at sums

theorem total_set (map : OrderedMap K V) (key : K) (value : V)
    : (map.set key value).total f = f key value + (map.erase key).total f := by
  have sums := ((map.set_perm key value).map (fun entry => f entry.1 entry.2)).sum_eq
  rwa [List.map_cons, List.sum_cons] at sums

end Totals

end OrderedMap

end Ava6.Library

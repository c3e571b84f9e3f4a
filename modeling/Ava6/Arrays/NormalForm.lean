import Mathlib
import Ava6.Arrays.ConstantArray
import Ava6.Library.Frequency

/-! Normal forms of constant arrays: the stores are ordered by index, none writes the default value,
and with a finite index sort the default value is the most frequent one. Each function has at
most one normal form, and `computeIsConst` recognises normal forms.
-/

namespace Ava6.Arrays

open Library.Frequency

variable {I V : Type} [LinearOrder I] [LinearOrder V]

/-- The index sorts: infinite ones, and finite ones with their enumeration. -/
inductive IndexSort (I : Type) : Option Nat → List I → Prop
  | infinite [Infinite I] (enumeration : List I) : IndexSort I none enumeration
  | finite (enumeration : List I) (distinct : enumeration.Nodup) (complete : ∀ i, i ∈ enumeration)
    (positive : 0 < enumeration.length) (bound : enumeration.length ≤ 2 ^ 31)
    : IndexSort I (some enumeration.length) enumeration

namespace ArrayNode

variable {n m : ArrayNode I V} {i : I} {u : V}

-- Entries

/-- The value at an index, from the stores outermost first. -/
def valueAt (defaultValue : V) (entries : List (I × V)) (i : I) : V :=
  ((entries.find? (·.1 = i)).map Prod.snd).getD defaultValue

omit [LinearOrder V] in
theorem denote_eq_valueAt (n : ArrayNode I V) (i : I)
    : n.denote i = valueAt n.defaultValue n.entries i := by
  induction n with
  | storeAll value => rfl
  | store array index value ih =>
      by_cases here : i = index
      · simp [denote, valueAt, entries, here]
      · have differs : ¬index = i := fun same => here same.symm
        simp [denote, valueAt, entries, here, differs, ih, defaultValue]

omit [LinearOrder I] [LinearOrder V] in
theorem ext_entries (sameDefault : n.defaultValue = m.defaultValue)
    (sameEntries : n.entries = m.entries)
    : n = m := by
  induction n generalizing m with
  | storeAll value =>
      cases m with
      | storeAll value' => exact congrArg storeAll sameDefault
      | store array index value' => simp [entries] at sameEntries
  | store array index value ih =>
      cases m with
      | storeAll value' => simp [entries] at sameEntries
      | store array' index' value' =>
          simp only [entries, List.cons.injEq, Prod.mk.injEq] at sameEntries
          obtain ⟨⟨rfl, rfl⟩, rest⟩ := sameEntries
          have below : array.defaultValue = array'.defaultValue := sameDefault
          rw [ih below rest]

/-- The stores are ordered by index, the greatest one outermost. -/
def Sorted (n : ArrayNode I V) : Prop := n.entries.Pairwise (fun above below => below.1 < above.1)

/-- No store writes the default value. -/
def Proper (n : ArrayNode I V) : Prop := ∀ entry ∈ n.entries, entry.2 ≠ n.defaultValue

/-- How often a value is written. -/
def writes (n : ArrayNode I V) (u : V) : Nat := n.entries.countP (·.2 = u)

omit [LinearOrder V] in
theorem find?_of_mem {entries : List (I × V)}
    (sorted : entries.Pairwise (fun above below => below.1 < above.1)) (member : (i, u) ∈ entries)
    : entries.find? (·.1 = i) = some (i, u) := by
  induction entries with
  | nil => simp at member
  | cons first rest ih =>
      obtain ⟨less, sorted⟩ := List.pairwise_cons.mp sorted
      rcases List.mem_cons.mp member with same | inRest
      · rw [← same]
        simp
      · have differs : ¬first.1 = i := ne_of_gt (less (i, u) inRest)
        rw [List.find?_cons_of_neg (by simpa using differs)]
        exact ih sorted inRest

omit [LinearOrder V] in
theorem denote_of_mem (sorted : n.Sorted) (member : (i, u) ∈ n.entries) : n.denote i = u := by
  rw [denote_eq_valueAt, valueAt, find?_of_mem sorted member]
  rfl

omit [LinearOrder V] in
theorem denote_of_not_mem (absent : ∀ v, (i, v) ∉ n.entries) : n.denote i = n.defaultValue := by
  have missing : n.entries.find? (·.1 = i) = none := by
    refine List.find?_eq_none.mpr (fun entry member here => ?_)
    obtain rfl : entry.1 = i := by simpa using here
    exact absent entry.2 member
  rw [denote_eq_valueAt, valueAt, missing]
  rfl

omit [LinearOrder V] in
/-- Another value than the default one is stored. -/
theorem denote_eq_iff (sorted : n.Sorted) (differs : u ≠ n.defaultValue)
    : n.denote i = u ↔ (i, u) ∈ n.entries := by
  constructor
  · intro denotes
    by_contra absent
    by_cases stored : ∃ v, (i, v) ∈ n.entries
    · obtain ⟨v, member⟩ := stored
      rw [denote_of_mem sorted member] at denotes
      exact absent (denotes ▸ member)
    · rw [denote_of_not_mem (not_exists.mp stored)] at denotes
      exact differs denotes.symm
  · exact denote_of_mem sorted

omit [LinearOrder V] in
theorem denote_eq_default_iff (sorted : n.Sorted) (proper : n.Proper)
    : n.denote i = n.defaultValue ↔ i ∉ n.entries.map Prod.fst := by
  constructor
  · intro denotes inKeys
    obtain ⟨entry, member, rfl⟩ := List.mem_map.mp inKeys
    exact proper entry member ((denote_of_mem sorted member).symm.trans denotes)
  · intro notIn
    exact denote_of_not_mem (fun v member => notIn (List.mem_map.mpr ⟨(i, v), member, rfl⟩))

omit [LinearOrder V] in
theorem Sorted.keys_nodup (sorted : n.Sorted) : (n.entries.map Prod.fst).Nodup := by
  refine List.Pairwise.map Prod.fst (fun above below less => ?_) sorted
  exact ne_of_gt less

section Frequencies

variable {enumeration : List I}

/-- How often a function takes a value. -/
def frequency (enumeration : List I) (f : I → V) (u : V) : Nat :=
  enumeration.countP (f · = u)

/-- A value other than the default one is taken as often as it is written. -/
theorem frequency_eq_writes (distinct : enumeration.Nodup) (complete : ∀ i, i ∈ enumeration)
    (sorted : n.Sorted) (differs : u ≠ n.defaultValue)
    : frequency enumeration n.denote u = n.writes u := by
  have sameIndices : (enumeration.filter (n.denote · = u)).Perm
      ((n.entries.filter (·.2 = u)).map Prod.fst) := by
    refine (List.perm_ext_iff_of_nodup (distinct.filter _) ?_).mpr (fun i => ?_)
    · exact sorted.keys_nodup.sublist (List.filter_sublist.map _)
    · rw [List.mem_filter, List.mem_map]
      constructor
      · rintro ⟨-, denotes⟩
        have member := (denote_eq_iff sorted differs).mp (by simpa using denotes)
        exact ⟨(i, u), List.mem_filter.mpr ⟨member, by simp⟩, rfl⟩
      · rintro ⟨entry, member, rfl⟩
        obtain ⟨inEntries, written⟩ := List.mem_filter.mp member
        obtain rfl : entry.2 = u := by simpa using written
        exact ⟨complete entry.1, by simpa using denote_of_mem sorted inEntries⟩
  have lengths := sameIndices.length_eq
  rw [List.length_map] at lengths
  rw [frequency, writes, List.countP_eq_length_filter, List.countP_eq_length_filter, lengths]

/-- The default value is taken at the indices that are not stored to. -/
theorem frequency_default (distinct : enumeration.Nodup) (complete : ∀ i, i ∈ enumeration)
    (sorted : n.Sorted) (proper : n.Proper)
    : frequency enumeration n.denote n.defaultValue + n.entries.length = enumeration.length := by
  have stored : (enumeration.filter (fun i => ¬n.denote i = n.defaultValue)).Perm
      (n.entries.map Prod.fst) := by
    refine (List.perm_ext_iff_of_nodup (distinct.filter _) sorted.keys_nodup).mpr (fun i => ?_)
    rw [List.mem_filter]
    simp only [complete, true_and, denote_eq_default_iff sorted proper, not_not,
      decide_eq_true_eq]
  have lengths := stored.length_eq
  rw [List.length_map] at lengths
  have split := List.length_eq_countP_add_countP (l := enumeration)
    (fun i => decide (n.denote i = n.defaultValue))
  rw [frequency, split, ← lengths, ← List.countP_eq_length_filter]
  simp

end Frequencies

-- Normal forms

/-- The normal form. With an infinite index sort the frequencies do not matter. -/
structure Normal (indexCard : Option Nat) (enumeration : List I) (n : ArrayNode I V) : Prop where
  sorted : n.Sorted
  proper : n.Proper
  dominant (finite : indexCard ≠ none)
    : Dominant (frequency enumeration n.denote) n.defaultValue

/-- A function has at most one normal form. -/
theorem Normal.unique {indexCard : Option Nat} {enumeration : List I}
    (sort : IndexSort I indexCard enumeration) (first : n.Normal indexCard enumeration)
    (second : m.Normal indexCard enumeration) (same : n.denote = m.denote)
    : n = m := by
  have sameDefault : n.defaultValue = m.defaultValue := by
    cases sort with
    | infinite =>
        -- Some index is stored to by neither.
        obtain ⟨i, fresh⟩ := Infinite.exists_notMem_finset
          (n.entries.map Prod.fst ++ m.entries.map Prod.fst).toFinset
        simp only [List.mem_toFinset, List.mem_append, not_or] at fresh
        rw [← (denote_eq_default_iff first.sorted first.proper).mpr fresh.1,
          ← (denote_eq_default_iff second.sorted second.proper).mpr fresh.2, same]
    | finite =>
        have dominant := second.dominant (by simp)
        rw [← same] at dominant
        exact (first.dominant (by simp)).unique dominant
  refine ext_entries sameDefault ?_
  have sameMembers (entry : I × V) : entry ∈ n.entries ↔ entry ∈ m.entries := by
    constructor
    · intro member
      have differs := first.proper entry member
      have denotes := denote_of_mem first.sorted (i := entry.1) (u := entry.2) member
      rw [same] at denotes
      exact (denote_eq_iff second.sorted (sameDefault ▸ differs)).mp denotes
    · intro member
      have differs := second.proper entry member
      have denotes := denote_of_mem second.sorted (i := entry.1) (u := entry.2) member
      rw [← same] at denotes
      exact (denote_eq_iff first.sorted (sameDefault ▸ differs)).mp denotes
  have nodup {k : ArrayNode I V} (sorted : k.Sorted) : k.entries.Nodup :=
    sorted.keys_nodup.of_map
  refine List.Perm.eq_of_pairwise ?_ first.sorted second.sorted
    ((List.perm_ext_iff_of_nodup (nodup first.sorted) (nodup second.sorted)).mpr sameMembers)
  intro above below _ _ less greater
  exact absurd less (lt_asymm greater)

/-- With a finite index sort, each value written leaves the default value more frequent, or as
frequent and less.
-/
def Outweighed (card : Nat) (n : ArrayNode I V) : Prop :=
  ∀ u, 0 < n.writes u → n.writes u + n.entries.length < card
    ∨ n.writes u + n.entries.length = card ∧ n.defaultValue < u

omit [LinearOrder I] in
theorem writes_pos (u : V) : 0 < n.writes u ↔ ∃ entry ∈ n.entries, entry.2 = u := by
  simp [writes, List.countP_pos_iff]

/-- The default value is the most frequent one just if it outweighs the values of the entries, by counting
the indices without an entry.
-/
theorem dominant_iff {enumeration : List I} (distinct : enumeration.Nodup)
    (complete : ∀ i, i ∈ enumeration) (positive : 0 < enumeration.length) (sorted : n.Sorted)
    (proper : n.Proper)
    : Dominant (frequency enumeration n.denote) n.defaultValue
      ↔ n.Outweighed enumeration.length := by
  have ofDefault := frequency_default distinct complete sorted proper
  have ofOther {u : V} (differs : u ≠ n.defaultValue) :=
    frequency_eq_writes distinct complete sorted differs
  constructor
  · intro dominant u written
    obtain ⟨entry, member, rfl⟩ := (writes_pos u).mp written
    have differs := proper entry member
    have outweighs := dominant entry.2 differs
    rw [ofOther differs] at outweighs
    rcases outweighs with less | ⟨same, less⟩
    · exact Or.inl (by omega)
    · exact Or.inr ⟨by omega, less⟩
  · intro outweighed u differs
    rw [ofOther differs]
    by_cases written : 0 < n.writes u
    · rcases outweighed u written with less | ⟨same, less⟩
      · exact Or.inl (by omega)
      · exact Or.inr ⟨by omega, less⟩
    · -- The default value occurs, since it outweighs what is written.
      left
      have defaultOccurs : 0 < frequency enumeration n.denote n.defaultValue := by
        cases stored : n.entries with
        | nil =>
            rw [stored, List.length_nil] at ofDefault
            omega
        | cons entry rest =>
            have inEntries : entry ∈ n.entries := by simp [stored]
            have occurs := (writes_pos entry.2).mpr ⟨entry, inEntries, rfl⟩
            have bound := outweighed entry.2 occurs
            omega
      omega

omit [LinearOrder I] in
theorem writes_store (array : ArrayNode I V) (index : I) (value u : V)
    : (store array index value).writes u = array.writes u + if value = u then 1 else 0 := by
  simp [writes, entries, List.countP_cons]

omit [LinearOrder I] in
/-- Fewer stores leave the default value even more frequent. -/
theorem Outweighed.of_fewer {card : Nat} (outweighed : m.Outweighed card)
    (fewer : n.entries.Sublist m.entries) (shorter : n.entries.length < m.entries.length)
    : n.Outweighed card := by
  intro u written
  have more : n.writes u ≤ m.writes u := fewer.countP_le
  have bound := outweighed u (by omega)
  left
  omega

omit [LinearOrder I] in
/-- A bound on the values written, compared with the default value. -/
theorem outweighed_of_dominates {card count : Nat} {value : Option V}
    (dominates : Dominates n.writes value count)
    (stays : count + n.entries.length < card
      ∨ (count + n.entries.length = card ∧ value.any (n.defaultValue < ·)))
    : n.Outweighed card := by
  intro u written
  have bound := dominates.bound u
  obtain ⟨m, isSome, atMost⟩ := dominates.least (by omega)
  rw [isSome] at stays
  simp only [Option.any_some, decide_eq_true_eq] at stays
  by_cases tie : n.writes u = count ∧ count + n.entries.length = card
  · refine Or.inr ⟨by omega, lt_of_lt_of_le ?_ (atMost u tie.1)⟩
    rcases stays with less | ⟨-, less⟩
    · exact absurd less (by omega)
    · exact less
  · exact Or.inl (by omega)

omit [LinearOrder V] in
theorem sorted_store {array : ArrayNode I V} {index : I} {value : V}
    : (store array index value).Sorted
      ↔ (∀ entry ∈ array.entries, entry.1 < index) ∧ array.Sorted :=
  List.pairwise_cons

omit [LinearOrder I] [LinearOrder V] in
theorem proper_store {array : ArrayNode I V} {index : I} {value : V}
    : (store array index value).Proper ↔ value ≠ array.defaultValue ∧ array.Proper := by
  simp [Proper, entries, defaultValue]

end ArrayNode

-- Recognising normal forms

open ArrayNode

omit [LinearOrder I] in
theorem countStores_eq (value : V) (n : ArrayNode I V) (depth valCount : Nat)
    : countStores value n depth valCount
      = (depth + n.entries.length, valCount + n.writes value) := by
  induction n generalizing depth valCount with
  | storeAll d => simp [countStores, entries, writes]
  | store array i v ih =>
      rw [countStores, ih, writes_store]
      have length : (store array i v).entries.length = array.entries.length + 1 := rfl
      rw [length]
      by_cases same : value = v
      · simp [same]
        omega
      · simp [same, Ne.symm same]
        omega

omit [LinearOrder I] in
theorem mostFrequent_update (old : MostFrequent V) (value : V) (valCount : Nat)
    : old.update value valCount
      = ⟨if Exceeds old.value old.count value valCount then some value else old.value,
          if Exceeds old.value old.count value valCount then valCount else old.count⟩ := by
  by_cases exceeds : Exceeds old.value old.count value valCount
  · rw [if_pos exceeds, if_pos exceeds]
    exact if_pos exceeds
  · rw [if_neg exceeds, if_neg exceeds]
    exact if_neg exceeds

/-- The attributes of a node are exact. -/
def Exact (n : ArrayNode I V) (attributes : MostFrequent V) : Prop :=
  Dominates n.writes attributes.value attributes.count
    ∧ Attains n.writes attributes.value attributes.count

variable {array : ArrayNode I V} {attributes : MostFrequent V}

omit [LinearOrder I] in
theorem Exact.store
    (exact : Exact array attributes) (index : I) (value : V)
    : Exact (.store array index value)
        (attributes.update value ((ArrayNode.store array index value).writes value)) := by
  have others (u : V) (differs : u ≠ value)
      : (ArrayNode.store array index value).writes u = array.writes u := by
    rw [writes_store, if_neg (Ne.symm differs), Nat.add_zero]
  have grown := writes_store array index value value
  rw [if_pos rfl] at grown
  rw [mostFrequent_update]
  exact ⟨exact.1.update rfl (by omega) (fun u differs => Nat.le_of_eq (others u differs)),
    exact.2.update rfl others (by omega)⟩

variable {card : Nat}

omit [LinearOrder I] in
/-- The sum of the counters of an outweighed node and one more store fits into 32 bits. -/
theorem Exact.sum_bound
    (exact : Exact array attributes) (outweighed : array.Outweighed card)
    : attributes.count + array.entries.length ≤ card := by
  by_cases positive : 0 < attributes.count
  · obtain ⟨m, -, attained⟩ := exact.2 positive
    have bound := outweighed m (by omega)
    omega
  · cases stored : array.entries with
    | nil => simp; omega
    | cons entry rest =>
        have inEntries : entry ∈ array.entries := by simp [stored]
        have occurs := (writes_pos entry.2).mpr ⟨entry, inEntries, rfl⟩
        have bound := exact.1.bound entry.2
        omega

/-- The test of `computeIsConst` on the counters of a store. -/
def Frequent (card : Nat) (array : ArrayNode I V) (mostFrequent : MostFrequent V) : Prop :=
  card < sum32 mostFrequent.count (1 + array.entries.length)
    ∨ (card = sum32 mostFrequent.count (1 + array.entries.length)
      ∧ ¬mostFrequent.value.any (array.defaultValue < ·))

instance (card : Nat) (array : ArrayNode I V) (mostFrequent : MostFrequent V)
    : Decidable (Frequent card array mostFrequent) :=
  inferInstanceAs (Decidable (_ ∨ _))

/-- The attributes a store gets from those of the array below. -/
def storeAttributes (indexCard : Option Nat) (array : ArrayNode I V) (value : V)
    : MostFrequent V :=
  (getMostFrequentValue indexCard array).update value (1 + array.writes value)

omit [LinearOrder V] in
/-- Only the outermost store below is compared with the index. -/
theorem inOrder_iff (array : ArrayNode I V) (index : I)
    : (match array with
        | .store _ below _ => decide (below < index)
        | .storeAll _ => true) = true
      ↔ ∀ below ∈ array.entries.head?, below.1 < index := by
  cases array with
  | storeAll d => simp [entries]
  | store array below v => simp [entries]

theorem isConst_store_infinite (array : ArrayNode I V) (index : I) (value : V)
    : isConst none (.store array index value) = true
      ↔ (isConst none array = true ∧ (∀ below ∈ array.entries.head?, below.1 < index))
        ∧ value ≠ array.defaultValue := by
  have unfolded : computeIsConst none (.store array index value)
      = if isConst none array && (match array with
            | .store _ below _ => decide (below < index)
            | .storeAll _ => true) && value ≠ array.defaultValue
        then (true, ⟨none, 0⟩) else (false, ⟨none, 0⟩) := by
    simp only [computeIsConst]
    rfl
  have condition {c : Bool} {attributes : MostFrequent V}
      : (if c then (true, attributes) else (false, attributes)).1 = c := by
    cases c <;> rfl
  rw [isConst, unfolded, condition, Bool.and_eq_true, Bool.and_eq_true, inOrder_iff,
    decide_eq_true_eq]

theorem computeIsConst_store (card : Nat) (array : ArrayNode I V) (index : I) (value : V)
    : computeIsConst (some card) (.store array index value)
      = if (isConst (some card) array = true ∧ (∀ below ∈ array.entries.head?, below.1 < index))
            ∧ value ≠ array.defaultValue
        then if Frequent card array (storeAttributes (some card) array value)
          then (false, ⟨none, 0⟩) else (true, storeAttributes (some card) array value)
        else (false, ⟨none, 0⟩) := by
  have unfolded : computeIsConst (some card) (.store array index value)
      = if isConst (some card) array && (match array with
            | .store _ below _ => decide (below < index)
            | .storeAll _ => true) && value ≠ array.defaultValue
        then if Frequent card array (storeAttributes (some card) array value)
          then (false, ⟨none, 0⟩) else (true, storeAttributes (some card) array value)
        else (false, ⟨none, 0⟩) := by
    simp only [computeIsConst, countStores_eq]
    rfl
  rw [unfolded]
  refine if_congr ?_ rfl rfl
  rw [Bool.and_eq_true, Bool.and_eq_true, inOrder_iff, decide_eq_true_eq]

omit [LinearOrder V] in
/-- In a sorted array the outermost store has the greatest index. -/
theorem sorted_store_of_head {index : I} (value : V)
    (sorted : array.Sorted) (inOrder : ∀ below ∈ array.entries.head?, below.1 < index)
    : (ArrayNode.store array index value).Sorted := by
  refine sorted_store.mpr ⟨fun entry member => ?_, sorted⟩
  rw [ArrayNode.Sorted] at sorted
  cases stored : array.entries with
  | nil =>
      rw [stored] at member
      simp at member
  | cons first rest =>
      rw [stored] at member sorted inOrder
      have isLess := inOrder first rfl
      rcases List.mem_cons.mp member with same | inRest
      · rw [same]
        exact isLess
      · exact lt_trans ((List.pairwise_cons.mp sorted).1 entry inRest) isLess

omit [LinearOrder V] in
theorem head_of_sorted_store {index : I} {value : V}
    (sorted : (ArrayNode.store array index value).Sorted)
    : ∀ below ∈ array.entries.head?, below.1 < index :=
  fun below isHead => (sorted_store.mp sorted).1 below (List.mem_of_mem_head? isHead)

omit [LinearOrder I] in
/-- What an exact count says about the test of `computeIsConst`. -/
theorem not_frequent_iff
    (exact : Exact array attributes) (outweighed : array.Outweighed card) (small : card ≤ 2 ^ 31)
    (index : I) (value : V)
    : ¬Frequent card array (attributes.update value (1 + array.writes value))
      ↔ (ArrayNode.store array index value).Outweighed card := by
  have stored := exact.store index value
  have written := writes_store array index value value
  rw [if_pos rfl, Nat.add_comm] at written
  rw [written] at stored
  have length : (ArrayNode.store array index value).entries.length = array.entries.length + 1 :=
    rfl
  have fits : sum32 (attributes.update value (1 + array.writes value)).count
      (1 + array.entries.length)
      = (attributes.update value (1 + array.writes value)).count + (1 + array.entries.length) := by
    have bound := exact.sum_bound outweighed
    have grown : (attributes.update value (1 + array.writes value)).count
        ≤ attributes.count + 1 := by
      have old := exact.1.bound value
      rw [mostFrequent_update]
      dsimp only
      split <;> omega
    exact Nat.mod_eq_of_lt (by omega)
  rw [Frequent, fits]
  generalize attributes.update value (1 + array.writes value) = mostFrequent at stored ⊢
  have positive : 0 < mostFrequent.count := by
    have bound := stored.1.bound value
    omega
  constructor
  · intro rare
    refine outweighed_of_dominates stored.1 ?_
    simp only [not_or, not_and, not_not, Nat.not_lt] at rare
    by_cases tie : card = mostFrequent.count + (1 + array.entries.length)
    · exact Or.inr ⟨by omega, rare.2 tie⟩
    · exact Or.inl (by omega)
  · intro outweighs frequent
    obtain ⟨m, isSome, attained⟩ := stored.2 positive
    rw [isSome] at frequent
    simp only [Option.any_some, decide_eq_true_eq] at frequent
    rcases outweighs m (by omega) with less | ⟨same, less⟩
    · omega
    · have notLess : ¬array.defaultValue < m := by
        rcases frequent with more | ⟨-, notLess⟩
        · exact absurd more (by omega)
        · exact notLess
      exact notLess less

/-- `computeIsConst` answers true exactly on normal forms, and sets exact attributes there. -/
theorem computeIsConst_spec (small : card ≤ 2 ^ 31) (n : ArrayNode I V)
    : (isConst (some card) n = true ↔ n.Sorted ∧ n.Proper ∧ n.Outweighed card)
      ∧ (isConst (some card) n = true → Exact n (getMostFrequentValue (some card) n)) := by
  induction n with
  | storeAll d =>
      refine ⟨iff_of_true rfl ⟨List.Pairwise.nil, ?_, ?_⟩, fun _ => ⟨⟨?_, ?_⟩, ?_⟩⟩
      · intro entry member
        simp [entries] at member
      · intro u written
        simp [writes, entries] at written
      · intro u
        simp [writes, entries]
      · intro impossible
        simp [getMostFrequentValue, computeIsConst] at impossible
      · intro impossible
        simp [getMostFrequentValue, computeIsConst] at impossible
  | store array index value ih =>
      obtain ⟨ofArray, exact⟩ := ih
      have step := computeIsConst_store card array index value
      by_cases accepted : (isConst (some card) array = true
          ∧ (∀ below ∈ array.entries.head?, below.1 < index)) ∧ value ≠ array.defaultValue
      · rw [if_pos accepted] at step
        obtain ⟨⟨below, inOrder⟩, differs⟩ := accepted
        obtain ⟨sorted, proper, outweighed⟩ := ofArray.mp below
        have test := not_frequent_iff (exact below) outweighed small index value
        have isSorted := sorted_store_of_head value sorted inOrder
        have isProper : (ArrayNode.store array index value).Proper :=
          proper_store.mpr ⟨differs, proper⟩
        by_cases frequent : Frequent card array (storeAttributes (some card) array value)
        · rw [if_pos frequent] at step
          have rejected : isConst (some card) (.store array index value) = false := by
            rw [isConst, step]
          rw [rejected]
          refine ⟨iff_of_false (by simp) (fun normal => ?_), fun impossible => by simp at impossible⟩
          exact test.mpr normal.2.2 frequent
        · rw [if_neg frequent] at step
          rw [isConst, getMostFrequentValue, step]
          refine ⟨iff_of_true rfl ⟨isSorted, isProper, test.mp frequent⟩, fun _ => ?_⟩
          have stored := (exact below).store index value
          rw [writes_store, if_pos rfl, Nat.add_comm] at stored
          exact stored
      · rw [if_neg accepted] at step
        have rejected : isConst (some card) (.store array index value) = false := by
          rw [isConst, step]
        rw [rejected]
        refine ⟨iff_of_false (by simp) ?_, fun impossible => by simp at impossible⟩
        rintro ⟨sorted, proper, outweighed⟩
        refine accepted ⟨⟨ofArray.mpr ⟨?_, ?_, ?_⟩, head_of_sorted_store sorted⟩, ?_⟩
        · exact (sorted_store.mp sorted).2
        · exact (proper_store.mp proper).2
        · exact outweighed.of_fewer (List.sublist_cons_self _ _) (Nat.lt_succ_self _)
        · exact (proper_store.mp proper).1

theorem isConst_infinite_iff (n : ArrayNode I V)
    : isConst none n = true ↔ n.Sorted ∧ n.Proper := by
  induction n with
  | storeAll d => exact iff_of_true rfl ⟨List.Pairwise.nil, by simp [Proper, entries]⟩
  | store array index value ih =>
      rw [isConst_store_infinite, ih, proper_store]
      constructor
      · rintro ⟨⟨⟨sorted, proper⟩, inOrder⟩, differs⟩
        exact ⟨sorted_store_of_head value sorted inOrder, differs, proper⟩
      · rintro ⟨sorted, differs, proper⟩
        exact ⟨⟨⟨(sorted_store.mp sorted).2, proper⟩, head_of_sorted_store sorted⟩, differs⟩

/-- `computeIsConst` answers true exactly on normal forms. -/
theorem isConst_iff_normal {indexCard : Option Nat} {enumeration : List I}
    (sort : IndexSort I indexCard enumeration) (n : ArrayNode I V)
    : isConst indexCard n = true ↔ n.Normal indexCard enumeration := by
  cases sort with
  | infinite =>
      rw [isConst_infinite_iff]
      exact ⟨fun ⟨sorted, proper⟩ => ⟨sorted, proper, fun finite => absurd rfl finite⟩,
        fun normal => ⟨normal.sorted, normal.proper⟩⟩
  | finite _ distinct complete positive small =>
      rw [(computeIsConst_spec small n).1]
      constructor
      · rintro ⟨sorted, proper, outweighed⟩
        exact ⟨sorted, proper,
          fun _ => (dominant_iff distinct complete positive sorted proper).mpr outweighed⟩
      · intro normal
        exact ⟨normal.sorted, normal.proper, (dominant_iff distinct complete positive
          normal.sorted normal.proper).mp (normal.dominant (by simp))⟩

end Ava6.Arrays

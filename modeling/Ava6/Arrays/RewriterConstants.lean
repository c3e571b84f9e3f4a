import Ava6.Arrays.NormalizeConstant
import Ava6.Arrays.Rewriter

/-! Constant arrays among the nodes: a store to a constant array is normalised to a node with the same value,
whatever else the sorts of the indices contain.
-/

namespace Ava6.Arrays

open Library.Frequency ArrayNode

section Denoting

variable {I V : Type} [LinearOrder I] [LinearOrder V] {n array : ArrayNode I V} {indexCard : Option Nat}
  {enumeration : List I}

/-- A constant array is sorted, whatever the cardinality of the index sort. -/
theorem sorted_of_isConst (n : ArrayNode I V) (accepted : isConst indexCard n = true) : n.Sorted := by
  induction n with
  | storeAll value => exact List.Pairwise.nil
  | store array index value ih =>
      have conditions : isConst indexCard array = true ∧ ∀ below ∈ array.entries.head?, below.1 < index := by
        cases indexCard with
        | none => exact ((isConst_store_infinite array index value).mp accepted).1
        | some card =>
            rw [isConst, computeIsConst_store] at accepted
            split at accepted
            · next all => exact all.1
            · cases accepted
      exact sorted_store_of_head value (ih conditions.1) conditions.2

/-- The stores of a result are to old indices, to the index, or to enumerated ones, and only known values are
stored. -/
structure Known (array : ArrayNode I V) (index : I) (value : V) (enumeration : List I) (r : ArrayNode I V)
    : Prop where
  indices : ∀ entry ∈ r.entries, entry.1 ∈ index :: array.entries.map Prod.fst ++ enumeration
  values : ∀ entry ∈ r.entries, entry.2 ∈ value :: array.defaultValue :: array.entries.map Prod.snd
  defaultValue : r.defaultValue ∈ value :: array.defaultValue :: array.entries.map Prod.snd

variable {index : I} {value : V}

omit [LinearOrder I] [LinearOrder V] in
theorem known_of_entries {r : ArrayNode I V} (sameDefault : r.defaultValue = array.defaultValue)
    (entries : ∀ entry ∈ r.entries, entry = (index, value) ∨ entry ∈ array.entries)
    : Known array index value enumeration r := by
  refine ⟨fun entry member => ?_, fun entry member => ?_, by simp [sameDefault]⟩
  · rcases entries entry member with rfl | old
    · simp
    · simp [List.mem_map_of_mem old]
  · rcases entries entry member with rfl | old
    · simp
    · simp [List.mem_map_of_mem old]

/-- `chooseDefault` keeps the function at the enumerated indices, whatever the counts are. -/
theorem chooseDefault_denotes (distinct : enumeration.Nodup) (sorted : n.Sorted)
    (written : 0 < n.entries.length) (depth : Nat) (mostFrequent : MostFrequent V)
    : ∃ r, chooseDefault enumeration.length enumeration n n.defaultValue depth mostFrequent = some r
      ∧ r.Sorted ∧ (∀ i ∈ enumeration, r.denote i = n.denote i)
      ∧ (∀ entry ∈ r.entries, (entry.1 ∈ n.entries.map Prod.fst ∨ entry.1 ∈ enumeration)
          ∧ (entry.2 ∈ n.entries.map Prod.snd ∨ entry.2 = n.defaultValue))
      ∧ (r.defaultValue ∈ n.entries.map Prod.snd ∨ r.defaultValue = n.defaultValue) := by
  have unchanged : n.Sorted ∧ (∀ i ∈ enumeration, n.denote i = n.denote i)
      ∧ (∀ entry ∈ n.entries, (entry.1 ∈ n.entries.map Prod.fst ∨ entry.1 ∈ enumeration)
          ∧ (entry.2 ∈ n.entries.map Prod.snd ∨ entry.2 = n.defaultValue))
      ∧ (n.defaultValue ∈ n.entries.map Prod.snd ∨ n.defaultValue = n.defaultValue) :=
    ⟨sorted, fun _ _ => rfl,
      fun entry member => ⟨Or.inl (List.mem_map_of_mem member), Or.inl (List.mem_map_of_mem member)⟩, Or.inr rfl⟩
  rw [chooseDefault]
  split
  · exact ⟨n, rfl, unchanged⟩
  · obtain ⟨isReversed, recounted⟩ := recount_exact n
    dsimp only
    rw [isReversed]
    generalize recount n ⟨[], fun _ => 0, 0, none⟩ = counts at recounted ⊢
    have maxPositive : 0 < counts.max :=
      Nat.lt_of_lt_of_le ((writes_pos _).mpr ⟨_, List.getElem_mem written, rfl⟩) (recounted.1.bound _)
    obtain ⟨maxValue, isSome, attained⟩ := recounted.2 maxPositive
    dsimp only at isSome attained
    have isWritten : maxValue ∈ n.entries.map Prod.snd := by
      obtain ⟨entry, member, isMax⟩ := (writes_pos maxValue).mp (attained ▸ maxPositive)
      exact List.mem_map.mpr ⟨entry, member, isMax⟩
    rw [isSome]
    split
    · exact ⟨n, rfl, unchanged⟩
    · obtain ⟨newsSorted, mem⟩ := newIndices_mem distinct (n.entries.reverse.map Prod.fst)
      obtain ⟨swapped, isSwapped, rest⟩ := swapDefault_spec n.defaultValue maxValue (.storeAll maxValue)
        (newIndices enumeration.length enumeration (n.entries.reverse.map Prod.fst)) n.entries.reverse {
          sorted := List.Pairwise.nil
          newsSorted := newsSorted
          oldsSorted := List.pairwise_reverse.mpr sorted
          belowNews := by simp [ArrayNode.entries]
          belowOlds := by simp [ArrayNode.entries]
          disjoint := fun new isNew old isOld same =>
            ((mem new).mp isNew).2 (List.mem_map.mpr ⟨old, isOld, same.symm⟩) }
      refine ⟨swapped, isSwapped, rest.sorted, fun i enumerated => ?_, fun entry member => ?_, Or.inl ?_⟩
      · refine rest.denote_at sorted ?_
        rw [mem, List.map_reverse, List.mem_reverse]
        exact and_iff_right enumerated
      · rcases (rest.entries entry).mp member with none | ⟨isNew, isDefault⟩ | ⟨isOld, -⟩
        · simp [ArrayNode.entries] at none
        · exact ⟨Or.inr ((mem entry.1).mp isNew).1, Or.inr isDefault⟩
        · have old := List.mem_reverse.mp isOld
          exact ⟨Or.inl (List.mem_map_of_mem old), Or.inl (List.mem_map_of_mem old)⟩
      · have isDefault : swapped.defaultValue = maxValue := rest.sameDefault
        rwa [isDefault]

/-- A store to a sorted array is normalised to a sorted array that denotes the same function: everywhere if the index
sort is infinite, and else at the enumerated indices. -/
theorem normalizeStore_denotes (finite : ∀ card, indexCard = some card → card = enumeration.length)
    (distinct : indexCard ≠ none → enumeration.Nodup) (sorted : array.Sorted) (index : I) (value : V)
    : ∃ r, normalizeStore indexCard enumeration array index value = some r
      ∧ r.Sorted ∧ (∀ i, indexCard = none ∨ i ∈ enumeration → r.denote i = Function.update array.denote index value i)
      ∧ (indexCard = none → r.defaultValue = array.defaultValue)
      ∧ Known array index value enumeration r := by
  obtain ⟨passed, splits, aboves, -, -⟩ := descend_spec sorted index value [] 1 1
  unfold normalizeStore
  dsimp only
  generalize descend index value array [] 1 1 = descent at splits aboves ⊢
  have rebuilt (below : ArrayNode I V)
      : (rebuild below descent.above).entries = passed ++ below.entries := by
    rw [rebuild_entries, aboves, List.append_nil, List.reverse_reverse]
  have isPassed {entry : I × V} (member : entry ∈ passed) : entry ∈ array.entries := by
    rw [splits.entries]
    exact List.mem_append_left _ member
  have isBelow {entry : I × V} (member : entry ∈ descent.below.entries) : entry ∈ array.entries := by
    rw [splits.entries]
    exact List.mem_append_right _ (List.mem_append_right _ member)
  rw [splits.defaultValue]
  split
  · next isDefault =>
      rw [isDefault]
      split
      · next missing =>
          have noneInserted : array.entries = passed ++ (replaced index none ++ descent.below.entries) := by
            rw [splits.entries, Option.isNone_iff_eq_none.mp missing]
          have denotes := splits.denote sorted noneInserted rfl
          exact ⟨array, rfl, sorted, fun i _ => congrFun denotes i, fun _ => rfl,
            known_of_entries rfl (fun entry member => Or.inr member)⟩
      · have noneInserted : (rebuild descent.below descent.above).entries
            = passed ++ (replaced index none ++ descent.below.entries) := rebuilt descent.below
        have sameDefault : (rebuild descent.below descent.above).defaultValue = array.defaultValue := by
          rw [rebuild_defaultValue, splits.defaultValue]
        have denotes := splits.denote sorted noneInserted sameDefault
        refine ⟨_, rfl, splits.sorted sorted noneInserted, fun i _ => congrFun denotes i, fun _ => sameDefault,
          known_of_entries sameDefault (fun entry member => Or.inr ?_)⟩
        rw [rebuilt] at member
        exact (List.mem_append.mp member).elim isPassed isBelow
  · have sameDefault : (rebuild (.store descent.below index value) descent.above).defaultValue
        = array.defaultValue := by
      rw [rebuild_defaultValue]
      exact splits.defaultValue
    have inserted : (rebuild (.store descent.below index value) descent.above).entries
        = passed ++ (replaced index (some value) ++ descent.below.entries) :=
      rebuilt (.store descent.below index value)
    have denotes := splits.denote sorted inserted sameDefault
    have entries (entry : I × V)
        (member : entry ∈ (rebuild (.store descent.below index value) descent.above).entries)
        : entry = (index, value) ∨ entry ∈ array.entries := by
      rw [inserted, List.mem_append, List.mem_append] at member
      rcases member with passes | isNew | below
      · exact Or.inr (isPassed passes)
      · obtain ⟨isIndex, isValue⟩ := mem_replaced.mp isNew
        exact Or.inl (Prod.ext isIndex (Option.some.inj isValue).symm)
      · exact Or.inr (isBelow below)
    have isSorted := splits.sorted sorted inserted
    have written : 0 < (rebuild (.store descent.below index value) descent.above).entries.length := by
      have member : (index, value) ∈ passed ++ (replaced index (some value) ++ descent.below.entries) := by
        simp [replaced]
      rw [inserted]
      exact List.length_pos_of_mem member
    generalize rebuild (.store descent.below index value) descent.above = n at *
    cases indexCard with
    | none =>
        exact ⟨n, rfl, isSorted, fun i _ => congrFun denotes i, fun _ => sameDefault,
          known_of_entries sameDefault entries⟩
    | some card =>
        obtain rfl := finite card rfl
        obtain ⟨r, isChosen, rSorted, same, isKnown, isDefault⟩ := chooseDefault_denotes (distinct (by simp))
          isSorted written
          (countStores value descent.below descent.depth descent.valCount).1
          ((getMostFrequentValue (some enumeration.length) array).update value
            (countStores value descent.below descent.depth descent.valCount).2)
        rw [sameDefault] at isChosen isKnown isDefault
        have values (v : V) (either : v ∈ n.entries.map Prod.snd ∨ v = array.defaultValue)
            : v ∈ value :: array.defaultValue :: array.entries.map Prod.snd := by
          rcases either with stored | rfl
          · obtain ⟨entry, member, rfl⟩ := List.mem_map.mp stored
            rcases entries entry member with rfl | old
            · simp
            · simp [List.mem_map_of_mem old]
          · simp
        refine ⟨r, isChosen, rSorted, fun i either => ?_, by simp, fun entry member => ?_, fun entry member => ?_, ?_⟩
        · rw [same i (either.resolve_left (by simp))]
          exact congrFun denotes i
        · rcases (isKnown entry member).1 with stored | enumerated
          · obtain ⟨old, inEntries, isIndex⟩ := List.mem_map.mp stored
            rw [← isIndex]
            rcases entries old inEntries with rfl | isOld
            · simp
            · simp [List.mem_map_of_mem isOld]
          · simp [enumerated]
        · exact values entry.2 (isKnown entry member).2
        · exact values r.defaultValue isDefault

/-- The same for `normalizeConstant`, which leaves a constant as it is. -/
theorem normalizeConstant_denotes (finite : ∀ card, indexCard = some card → card = enumeration.length)
    (distinct : indexCard ≠ none → enumeration.Nodup) (sorted : array.Sorted) (index : I) (value : V)
    : ∃ r, normalizeConstant indexCard enumeration (.store array index value) = some r
      ∧ r.Sorted ∧ (∀ i, indexCard = none ∨ i ∈ enumeration → r.denote i = Function.update array.denote index value i)
      ∧ (indexCard = none → r.defaultValue = array.defaultValue)
      ∧ Known array index value enumeration r := by
  rw [normalizeConstant]
  split
  · next accepted =>
      refine ⟨_, rfl, sorted_of_isConst _ accepted, fun _ _ => rfl, fun _ => rfl,
        known_of_entries rfl (fun entry member => ?_)⟩
      exact List.mem_cons.mp member
  · exact normalizeStore_denotes finite distinct sorted index value

end Denoting

end Ava6.Arrays

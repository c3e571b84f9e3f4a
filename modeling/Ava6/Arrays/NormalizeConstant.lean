import Mathlib
import Ava6.Arrays.NormalForm

/-! The rewriting of constant arrays: `normalizeConstant` turns a store to a normal form into the
normal form of the updated function, so that rewriting decides the equality of constant arrays.
-/

namespace Ava6.Arrays

open Library.Frequency ArrayNode

variable {I V : Type} [LinearOrder I] [LinearOrder V] {n m array : ArrayNode I V} {index : I}
  {value : V}

-- Inserting a store

/-- The entry of the replaced store. -/
def replaced (index : I) (value : Option V) : List (I × V) :=
  (value.map (index, ·)).toList

/-- How the stores are split where the index is inserted. -/
structure Descent.Splits (descent : Descent I V) (array : ArrayNode I V) (index : I)
    (passed : List (I × V)) : Prop where
  entries : array.entries
    = passed ++ (replaced index descent.replacedValue ++ descent.below.entries)
  defaultValue : descent.below.defaultValue = array.defaultValue
  above : ∀ entry ∈ passed, index < entry.1
  below : ∀ entry ∈ descent.below.entries, entry.1 < index

theorem descend_spec (sorted : array.Sorted) (index : I) (value : V) (above : List (I × V))
    (depth valCount : Nat)
    : ∃ passed, (descend index value array above depth valCount).Splits array index passed
        ∧ (descend index value array above depth valCount).above = passed.reverse ++ above
        ∧ (descend index value array above depth valCount).depth = depth + passed.length
        ∧ (descend index value array above depth valCount).valCount
          = valCount + passed.countP (·.2 = value) := by
  induction array generalizing above depth valCount with
  | storeAll d => exact ⟨[], ⟨rfl, rfl, by simp, by simp [descend, entries]⟩, rfl, rfl, rfl⟩
  | store array i v ih =>
      obtain ⟨less, sorted⟩ := sorted_store.mp sorted
      by_cases same : index = i
      · rw [descend, if_pos same]
        refine ⟨[], ⟨?_, rfl, by simp, ?_⟩, rfl, rfl, rfl⟩
        · simp [replaced, entries, same]
        · rw [same]
          exact less
      · by_cases passes : i ≤ index
        · rw [descend, if_neg same, if_pos passes]
          refine ⟨[], ⟨rfl, rfl, by simp, ?_⟩, rfl, rfl, rfl⟩
          have isLess : i < index := lt_of_le_of_ne passes (Ne.symm same)
          intro entry member
          rcases List.mem_cons.mp member with isFirst | inRest
          · rw [isFirst]
            exact isLess
          · exact lt_trans (less entry inRest) isLess
        · rw [descend, if_neg same, if_neg passes]
          obtain ⟨passed, splits, aboves, depths, counts⟩ := ih sorted ((i, v) :: above) (depth + 1)
            (if value = v then valCount + 1 else valCount)
          refine ⟨(i, v) :: passed, ⟨?_, splits.defaultValue, ?_, splits.below⟩, ?_, ?_, ?_⟩
          · exact congrArg ((i, v) :: ·) splits.entries
          · intro entry member
            rcases List.mem_cons.mp member with isFirst | inRest
            · rw [isFirst]
              exact lt_of_not_ge passes
            · exact splits.above entry inRest
          · rw [aboves, List.reverse_cons, List.append_assoc, List.singleton_append]
          · rw [depths, List.length_cons]
            omega
          · rw [counts, List.countP_cons]
            by_cases isValue : value = v
            · simp [isValue]
              omega
            · simp [isValue, Ne.symm isValue]

omit [LinearOrder I] [LinearOrder V] in
theorem rebuild_entries (n : ArrayNode I V) (above : List (I × V))
    : (rebuild n above).entries = above.reverse ++ n.entries := by
  induction above generalizing n with
  | nil => rfl
  | cons entry rest ih =>
      have step : rebuild n (entry :: rest) = rebuild (.store n entry.1 entry.2) rest := rfl
      rw [step, ih, List.reverse_cons, List.append_assoc]
      rfl

omit [LinearOrder I] [LinearOrder V] in
theorem rebuild_defaultValue (n : ArrayNode I V) (above : List (I × V))
    : (rebuild n above).defaultValue = n.defaultValue := by
  induction above generalizing n with
  | nil => rfl
  | cons entry rest ih => exact ih (.store n entry.1 entry.2)

omit [LinearOrder V] in
/-- Sorted arrays with the same default value and the same stores to an index agree there. -/
theorem denote_congr {i : I} (sorted : n.Sorted) (sorted' : m.Sorted)
    (sameDefault : n.defaultValue = m.defaultValue)
    (same : ∀ u, (i, u) ∈ n.entries ↔ (i, u) ∈ m.entries)
    : n.denote i = m.denote i := by
  by_cases stored : ∃ u, (i, u) ∈ n.entries
  · obtain ⟨u, member⟩ := stored
    rw [denote_of_mem sorted member, denote_of_mem sorted' ((same u).mp member)]
  · have absent := not_exists.mp stored
    rw [denote_of_not_mem absent, denote_of_not_mem (fun u member => absent u ((same u).mpr member)),
      sameDefault]

section Inserting

variable {descent : Descent I V} {passed : List (I × V)} {new : Option V}

omit [LinearOrder I] [LinearOrder V] in
theorem mem_replaced {entry : I × V}
    : entry ∈ replaced index new ↔ entry.1 = index ∧ new = some entry.2 := by
  cases new with
  | none => simp [replaced]
  | some v => simp [replaced, Prod.ext_iff, eq_comm]

omit [LinearOrder V] in
/-- The entries stay sorted where the new one is put between those passed and those below. -/
theorem Descent.Splits.sorted (splits : descent.Splits array index passed) (sorted : array.Sorted)
    (inserted : n.entries = passed ++ (replaced index new ++ descent.below.entries))
    : n.Sorted := by
  rw [ArrayNode.Sorted, splits.entries] at sorted
  obtain ⟨sortedAbove, rest, -⟩ := List.pairwise_append.mp sorted
  have sortedBelow := (List.pairwise_append.mp rest).2.1
  rw [ArrayNode.Sorted, inserted]
  refine List.pairwise_append.mpr ⟨sortedAbove, List.pairwise_append.mpr ⟨?_, sortedBelow, ?_⟩, ?_⟩
  · cases new <;> simp [replaced]
  · intro entry isReplaced below member
    rw [(mem_replaced.mp isReplaced).1]
    exact splits.below below member
  · intro above isPassed entry member
    rcases List.mem_append.mp member with isReplaced | isBelow
    · rw [(mem_replaced.mp isReplaced).1]
      exact splits.above above isPassed
    · exact lt_trans (splits.below entry isBelow) (splits.above above isPassed)

omit [LinearOrder V] in
/-- Inserting a store, or deleting one, changes the function at the index. -/
theorem Descent.Splits.denote (splits : descent.Splits array index passed) (sorted : array.Sorted)
    (inserted : n.entries = passed ++ (replaced index new ++ descent.below.entries))
    (sameDefault : n.defaultValue = array.defaultValue)
    : n.denote = Function.update array.denote index (new.getD array.defaultValue) := by
  have isSorted := splits.sorted sorted inserted
  have mem (entry : I × V) : entry ∈ n.entries
      ↔ entry ∈ passed ∨ (entry.1 = index ∧ new = some entry.2) ∨ entry ∈ descent.below.entries := by
    rw [inserted, List.mem_append, List.mem_append, mem_replaced]
  funext i
  by_cases here : i = index
  · rw [here, Function.update_self]
    cases new with
    | some v => exact denote_of_mem isSorted ((mem (index, v)).mpr (Or.inr (Or.inl ⟨rfl, rfl⟩)))
    | none =>
        rw [denote_of_not_mem, sameDefault, Option.getD_none]
        intro v member
        rcases (mem (index, v)).mp member with isPassed | ⟨-, isSome⟩ | isBelow
        · exact lt_irrefl index (splits.above _ isPassed)
        · simp at isSome
        · exact lt_irrefl index (splits.below _ isBelow)
  · rw [Function.update_of_ne here]
    refine denote_congr isSorted sorted sameDefault (fun u => ?_)
    rw [mem, splits.entries, List.mem_append, List.mem_append, mem_replaced]
    simp [here]

end Inserting

omit [LinearOrder I] in
/-- The counts stay exact from store to store. -/
theorem recount_spec (n : ArrayNode I V) (counts : Recount I V)
    (dominates : Dominates counts.elementsMap counts.maxValue counts.max)
    (attains : Attains counts.elementsMap counts.maxValue counts.max)
    : (recount n counts).entries = n.entries.reverse ++ counts.entries
      ∧ (recount n counts).elementsMap = (fun u => counts.elementsMap u + n.writes u)
      ∧ Dominates (recount n counts).elementsMap (recount n counts).maxValue (recount n counts).max
      ∧ Attains (recount n counts).elementsMap (recount n counts).maxValue
          (recount n counts).max := by
  induction n generalizing counts with
  | storeAll d => exact ⟨rfl, rfl, dominates, attains⟩
  | store array i v ih =>
      have others (u : V) (differs : u ≠ v)
          : Function.update counts.elementsMap v (counts.elementsMap v + 1) u
            = counts.elementsMap u :=
        Function.update_of_ne differs _ _
      obtain ⟨isReversed, isSum, dominates, attains⟩ := ih {
          entries := (i, v) :: counts.entries
          elementsMap := Function.update counts.elementsMap v (counts.elementsMap v + 1)
          max := if Exceeds counts.maxValue counts.max v (counts.elementsMap v + 1)
            then counts.elementsMap v + 1 else counts.max
          maxValue := if Exceeds counts.maxValue counts.max v (counts.elementsMap v + 1)
            then some v else counts.maxValue }
        (dominates.update (Function.update_self ..) (Nat.succ_pos _)
          (fun u differs => Nat.le_of_eq (others u differs)))
        (attains.update (Function.update_self ..) others (Nat.le_succ _))
      refine ⟨?_, ?_, dominates, attains⟩
      · refine isReversed.trans ?_
        rw [entries, List.reverse_cons, List.append_assoc, List.singleton_append]
      · refine isSum.trans (funext fun u => ?_)
        rw [writes_store]
        dsimp only
        by_cases same : v = u
        · subst same
          rw [Function.update_self, if_pos rfl]
          omega
        · rw [others u (Ne.symm same), if_neg same, Nat.add_zero]

omit [LinearOrder I] in
theorem recount_exact (n : ArrayNode I V)
    : (recount n ⟨[], fun _ => 0, 0, none⟩).entries = n.entries.reverse
      ∧ Exact n ⟨(recount n ⟨[], fun _ => 0, 0, none⟩).maxValue,
          (recount n ⟨[], fun _ => 0, 0, none⟩).max⟩ := by
  have nothing : Dominates (fun _ : V => 0) none 0 := ⟨fun _ => Nat.le_refl 0, fun h => by simp at h⟩
  obtain ⟨isReversed, isSum, dominates, attains⟩ :=
    recount_spec n ⟨[], fun _ => 0, 0, none⟩ nothing (fun h => by simp at h)
  have isWrites : (recount n ⟨[], fun _ => 0, 0, none⟩).elementsMap = n.writes := by
    rw [isSum]
    exact funext fun u => Nat.zero_add _
  rw [isWrites] at dominates attains
  exact ⟨isReversed.trans (List.append_nil _), dominates, attains⟩

-- Switching the default value

theorem needToSort_eq_false {indices : List I} (inOrder : needToSort indices = false)
    : indices.Pairwise (· < ·) := by
  induction indices using needToSort.induct with
  | case1 first second rest ih =>
      simp only [needToSort, Bool.or_eq_false_iff, Bool.not_eq_false', decide_eq_true_eq] at inOrder
      have sorted := ih inOrder.2
      refine List.pairwise_cons.mpr ⟨fun i member => ?_, sorted⟩
      rcases List.mem_cons.mp member with same | inRest
      · rw [same]
        exact inOrder.1
      · exact lt_trans inOrder.1 ((List.pairwise_cons.mp sorted).1 i inRest)
  | case2 indices short =>
      match indices with
      | [] => exact List.Pairwise.nil
      | [first] => exact List.pairwise_singleton _ _
      | first :: second :: rest => exact absurd rfl (short first second rest)

theorem newIndices_mem {enumeration : List I} (distinct : enumeration.Nodup) (indexSet : List I)
    : (newIndices enumeration.length enumeration indexSet).Pairwise (· < ·)
      ∧ ∀ i, i ∈ newIndices enumeration.length enumeration indexSet ↔ i ∈ enumeration ∧ i ∉ indexSet := by
  simp only [newIndices, List.take_length]
  have mem (i : I) : i ∈ enumeration.filter (· ∉ indexSet) ↔ i ∈ enumeration ∧ i ∉ indexSet := by
    simp
  split
  case isTrue unsorted =>
    have nodup : ((enumeration.filter (· ∉ indexSet)).insertionSort (· ≤ ·)).Nodup :=
      (List.perm_insertionSort _ _).nodup_iff.mpr (distinct.filter _)
    refine ⟨?_, fun i => ?_⟩
    · refine ((List.pairwise_insertionSort (· ≤ ·) _).and nodup).imp ?_
      intro first second both
      exact lt_of_le_of_ne both.1 both.2
    · rw [List.mem_insertionSort]
      exact mem i
  case isFalse sorted => exact ⟨needToSort_eq_false (by simpa using sorted), mem⟩

theorem newIndices_spec {enumeration : List I} (distinct : enumeration.Nodup)
    (complete : ∀ i, i ∈ enumeration) (indexSet : List I)
    : (newIndices enumeration.length enumeration indexSet).Pairwise (· < ·)
      ∧ ∀ i, i ∈ newIndices enumeration.length enumeration indexSet ↔ i ∉ indexSet := by
  obtain ⟨sorted, mem⟩ := newIndices_mem distinct indexSet
  exact ⟨sorted, fun i => (mem i).trans (and_iff_right (complete i))⟩

/-- The stores so far and those to come are in order. -/
structure Pending (n : ArrayNode I V) (news : List I) (olds : List (I × V)) : Prop where
  sorted : n.Sorted
  newsSorted : news.Pairwise (· < ·)
  oldsSorted : olds.Pairwise (fun first second => first.1 < second.1)
  belowNews : ∀ entry ∈ n.entries, ∀ new ∈ news, entry.1 < new
  belowOlds : ∀ entry ∈ n.entries, ∀ old ∈ olds, entry.1 < old.1
  disjoint : ∀ new ∈ news, ∀ old ∈ olds, new ≠ old.1

section Swapping

variable {news : List I} {olds : List (I × V)} {new : I} {old : I × V}

omit [LinearOrder V] in
theorem Pending.storeNew (pending : Pending n (new :: news) olds)
    (least : ∀ entry ∈ olds, new < entry.1) (value : V)
    : Pending (.store n new value) news olds where
  sorted := sorted_store.mpr
    ⟨fun entry member => pending.belowNews entry member new List.mem_cons_self, pending.sorted⟩
  newsSorted := pending.newsSorted.of_cons
  oldsSorted := pending.oldsSorted
  belowNews entry member next isNew := by
    rcases List.mem_cons.mp member with same | before
    · rw [same]
      exact List.rel_of_pairwise_cons pending.newsSorted isNew
    · exact pending.belowNews entry before next (List.mem_cons_of_mem _ isNew)
  belowOlds entry member next isOld := by
    rcases List.mem_cons.mp member with same | before
    · rw [same]
      exact least next isOld
    · exact pending.belowOlds entry before next isOld
  disjoint next isNew := pending.disjoint next (List.mem_cons_of_mem _ isNew)

omit [LinearOrder V] in
theorem Pending.skipOld (pending : Pending n news (old :: olds)) : Pending n news olds where
  sorted := pending.sorted
  newsSorted := pending.newsSorted
  oldsSorted := pending.oldsSorted.of_cons
  belowNews := pending.belowNews
  belowOlds entry member next isOld :=
    pending.belowOlds entry member next (List.mem_cons_of_mem _ isOld)
  disjoint next isNew entry isOld := pending.disjoint next isNew entry (List.mem_cons_of_mem _ isOld)

/-- An old store is kept unless it writes the new default value. -/
theorem Pending.storeOld (pending : Pending n news (old :: olds))
    (least : ∀ next ∈ news, old.1 < next) (maxValue : V)
    : Pending (if old.2 ≠ maxValue then .store n old.1 old.2 else n) news olds := by
  split
  case isFalse => exact pending.skipOld
  case isTrue =>
    refine { pending.skipOld with sorted := ?_, belowNews := ?_, belowOlds := ?_ }
    · exact sorted_store.mpr ⟨fun entry member => pending.belowOlds entry member old
        List.mem_cons_self, pending.sorted⟩
    · intro entry member next isNew
      rcases List.mem_cons.mp member with same | before
      · rw [same]
        exact least next isNew
      · exact pending.belowNews entry before next isNew
    · intro entry member next isOld
      rcases List.mem_cons.mp member with same | before
      · rw [same]
        exact List.rel_of_pairwise_cons pending.oldsSorted isOld
      · exact pending.belowOlds entry before next (List.mem_cons_of_mem _ isOld)

/-- The stores after switching the default value. -/
structure Swapped (defaultValue maxValue : V) (n : ArrayNode I V) (news : List I)
    (olds : List (I × V)) (swapped : ArrayNode I V) : Prop where
  sorted : swapped.Sorted
  sameDefault : swapped.defaultValue = n.defaultValue
  entries (entry : I × V)
    : entry ∈ swapped.entries ↔ entry ∈ n.entries ∨ (entry.1 ∈ news ∧ entry.2 = defaultValue)
      ∨ (entry ∈ olds ∧ entry.2 ≠ maxValue)

variable {defaultValue maxValue : V} {swapped : ArrayNode I V}

omit [LinearOrder V] in
theorem Swapped.ofNew
    (rest : Swapped defaultValue maxValue (.store n new defaultValue) news olds swapped)
    : Swapped defaultValue maxValue n (new :: news) olds swapped where
  sorted := rest.sorted
  sameDefault := rest.sameDefault
  entries entry := by
    rw [rest.entries, ArrayNode.entries, List.mem_cons, List.mem_cons, Prod.ext_iff]
    tauto

theorem Swapped.ofOld
    (rest : Swapped defaultValue maxValue
      (if old.2 ≠ maxValue then .store n old.1 old.2 else n) news olds swapped)
    : Swapped defaultValue maxValue n news (old :: olds) swapped := by
  split at rest
  case isTrue differs =>
    refine ⟨rest.sorted, rest.sameDefault, fun entry => ?_⟩
    rw [rest.entries, ArrayNode.entries, List.mem_cons, List.mem_cons]
    by_cases same : entry = old
    · simp [same, differs]
    · simp [same]
  case isFalse same =>
    refine ⟨rest.sorted, rest.sameDefault, fun entry => ?_⟩
    rw [rest.entries, List.mem_cons]
    by_cases isOld : entry = old
    · simp [isOld, not_not.mp same]
    · simp [isOld]

/-- `swapDefault` passes every index, since none is in both lists. -/
theorem swapDefault_spec (defaultValue maxValue : V) (n : ArrayNode I V) (news : List I)
    (olds : List (I × V)) (pending : Pending n news olds)
    : ∃ swapped, swapDefault defaultValue maxValue n news olds = some swapped
        ∧ Swapped defaultValue maxValue n news olds swapped := by
  fun_induction swapDefault defaultValue maxValue n news olds with
  | case1 n => exact ⟨n, rfl, pending.sorted, rfl, fun entry => by simp⟩
  | case2 n new news ih =>
      obtain ⟨swapped, isSome, rest⟩ := ih (pending.storeNew (by simp) defaultValue)
      exact ⟨swapped, isSome, rest.ofNew⟩
  | case3 n old olds ih =>
      simp only [dite_eq_ite] at ih
      obtain ⟨swapped, isSome, rest⟩ := ih (pending.storeOld (by simp) maxValue)
      exact ⟨swapped, isSome, rest.ofOld⟩
  | case4 n new news old olds less ih =>
      have least (entry : I × V) (isOld : entry ∈ old :: olds) : new < entry.1 := by
        rcases List.mem_cons.mp isOld with same | inRest
        · rw [same]
          exact less
        · exact lt_trans less (List.rel_of_pairwise_cons pending.oldsSorted inRest)
      obtain ⟨swapped, isSome, rest⟩ := ih (pending.storeNew least defaultValue)
      exact ⟨swapped, isSome, rest.ofNew⟩
  | case5 n new news old olds notLess less ih =>
      have least (next : I) (isNew : next ∈ new :: news) : old.1 < next := by
        rcases List.mem_cons.mp isNew with same | inRest
        · rw [same]
          exact less
        · exact lt_trans less (List.rel_of_pairwise_cons pending.newsSorted inRest)
      simp only [dite_eq_ite] at ih
      obtain ⟨swapped, isSome, rest⟩ := ih (pending.storeOld least maxValue)
      exact ⟨swapped, isSome, rest.ofOld⟩
  | case6 n new news old olds notLess notGreater =>
      have differs := pending.disjoint new List.mem_cons_self old List.mem_cons_self
      exact absurd (le_antisymm (not_lt.mp notGreater) (not_lt.mp notLess)) differs

/-- Switching the default value keeps the function where the old one is stored. -/
theorem Swapped.denote_at {i : I} (sorted : n.Sorted)
    (rest : Swapped n.defaultValue maxValue (.storeAll maxValue) news n.entries.reverse swapped)
    (isNew : i ∈ news ↔ i ∉ n.entries.map Prod.fst)
    : swapped.denote i = n.denote i := by
  have isDefault : swapped.defaultValue = maxValue := rest.sameDefault
  have mem (entry : I × V) : entry ∈ swapped.entries ↔ (entry.1 ∈ news ∧ entry.2 = n.defaultValue)
      ∨ (entry ∈ n.entries ∧ entry.2 ≠ maxValue) := by
    rw [rest.entries, ArrayNode.entries, List.mem_reverse]
    simp
  by_cases stored : i ∈ n.entries.map Prod.fst
  · obtain ⟨entry, member, rfl⟩ := List.mem_map.mp stored
    have denotes : n.denote entry.1 = entry.2 := denote_of_mem sorted member
    rw [denotes]
    by_cases isMax : entry.2 = maxValue
    · rw [denote_of_not_mem, isDefault, isMax]
      intro u inSwapped
      rcases (mem (entry.1, u)).mp inSwapped with ⟨fresh, -⟩ | ⟨inEntries, differs⟩
      · exact isNew.mp fresh stored
      · have same : n.denote entry.1 = u := denote_of_mem sorted inEntries
        exact differs (same.symm.trans (denotes.trans isMax))
    · exact denote_of_mem rest.sorted ((mem entry).mpr (Or.inr ⟨member, isMax⟩))
  · have denotes : n.denote i = n.defaultValue :=
      denote_of_not_mem (fun v member => stored (List.mem_map.mpr ⟨(i, v), member, rfl⟩))
    rw [denotes]
    exact denote_of_mem rest.sorted
      ((mem (i, n.defaultValue)).mpr (Or.inl ⟨isNew.mpr stored, rfl⟩))

/-- Swapping the default value keeps the function: indices without an entry get the old default, and entries
with the new default are dropped.
-/
theorem Swapped.denote (sorted : n.Sorted)
    (rest : Swapped n.defaultValue maxValue (.storeAll maxValue) news n.entries.reverse swapped)
    (isNew : ∀ i, i ∈ news ↔ i ∉ n.entries.map Prod.fst)
    : swapped.denote = n.denote :=
  funext fun i => rest.denote_at sorted (isNew i)

omit [LinearOrder V] in
theorem Swapped.proper
    (rest : Swapped defaultValue maxValue (.storeAll maxValue) news olds swapped)
    (differs : defaultValue ≠ maxValue)
    : swapped.Proper := by
  have isDefault : swapped.defaultValue = maxValue := rest.sameDefault
  intro entry member
  rw [isDefault]
  rcases (rest.entries entry).mp member with none | ⟨-, isOldDefault⟩ | ⟨-, isOther⟩
  · simp [ArrayNode.entries] at none
  · rw [isOldDefault]
    exact differs
  · exact isOther

end Swapping

section Finite

variable {enumeration : List I}

variable {count : Nat}

/-- A value written more often than the default value is left is the most frequent one. -/
theorem dominant_of_not_stays {card : Nat} {maxValue : V} (distinct : enumeration.Nodup)
    (complete : ∀ i, i ∈ enumeration) (isCard : card = enumeration.length) (sorted : n.Sorted)
    (proper : n.Proper) (exact : Exact n ⟨some maxValue, count⟩) (positive : 0 < count)
    (leaves : ¬defaultStays card (count + n.entries.length) n.defaultValue (some maxValue))
    : maxValue ≠ n.defaultValue ∧ Dominant (frequency enumeration n.denote) maxValue := by
  obtain ⟨m, isSome, attained⟩ := exact.2 positive
  obtain rfl : maxValue = m := Option.some.inj isSome
  replace attained : n.writes maxValue = count := attained
  have differs : maxValue ≠ n.defaultValue := by
    obtain ⟨entry, member, rfl⟩ := (writes_pos (n := n) maxValue).mp (attained ▸ positive)
    exact proper entry member
  have ofDefault := frequency_default distinct complete sorted proper
  simp only [defaultStays, Option.any_some, Bool.or_eq_true, Bool.and_eq_true, decide_eq_true_eq,
    beq_iff_eq, not_or, not_and, Nat.not_lt] at leaves
  refine ⟨differs, fun u isOther => ?_⟩
  rw [frequency_eq_writes distinct complete sorted differs]
  by_cases isDefault : u = n.defaultValue
  · rw [isDefault]
    by_cases tie : count + n.entries.length = card
    · exact Or.inr ⟨by omega, lt_of_le_of_ne (not_lt.mp (leaves.2 tie)) differs⟩
    · exact Or.inl (by omega)
  · rw [frequency_eq_writes distinct complete sorted isDefault]
    have bound : n.writes u ≤ count := exact.1.bound u
    by_cases tie : n.writes u = count
    · obtain ⟨m, isSome, atMost⟩ := exact.1.least positive
      obtain rfl : maxValue = m := Option.some.inj isSome
      exact Or.inr ⟨by omega, lt_of_le_of_ne (atMost u tie) (Ne.symm isOther)⟩
    · exact Or.inl (by omega)

omit [LinearOrder I] in
/-- The sum of a count and the number of stores after one store to a normal form fits into 32 bits,
so the test of `normalizeStore` keeps only outweighed arrays.
-/
theorem outweighed_of_defaultStays {card : Nat} {value : Option V}
    (dominates : Dominates n.writes value count) (fits : count + n.entries.length < 2 ^ 32)
    (stays : defaultStays card (sum32 count n.entries.length) n.defaultValue value)
    : n.Outweighed card := by
  refine outweighed_of_dominates dominates ?_
  rw [sum32, Nat.mod_eq_of_lt fits] at stays
  simpa [defaultStays] using stays

/-- The bad case of `normalizeStore`. -/
theorem swapDefault_normal {maxValue : V} (distinct : enumeration.Nodup)
    (complete : ∀ i, i ∈ enumeration) (sorted : n.Sorted) (proper : n.Proper)
    (exact : Exact n ⟨some maxValue, count⟩) (positive : 0 < count)
    (leaves : ¬defaultStays enumeration.length (count + n.entries.length) n.defaultValue
      (some maxValue))
    : ∃ swapped, swapDefault n.defaultValue maxValue (.storeAll maxValue)
          (newIndices enumeration.length enumeration (n.entries.reverse.map Prod.fst))
          n.entries.reverse = some swapped
        ∧ swapped.Normal (some enumeration.length) enumeration ∧ swapped.denote = n.denote := by
  obtain ⟨differs, dominant⟩ :=
    dominant_of_not_stays distinct complete rfl sorted proper exact positive leaves
  obtain ⟨newsSorted, mem⟩ := newIndices_spec distinct complete (n.entries.reverse.map Prod.fst)
  obtain ⟨swapped, isSome, rest⟩ := swapDefault_spec n.defaultValue maxValue (.storeAll maxValue)
    (newIndices enumeration.length enumeration (n.entries.reverse.map Prod.fst)) n.entries.reverse {
      sorted := List.Pairwise.nil
      newsSorted := newsSorted
      oldsSorted := List.pairwise_reverse.mpr sorted
      belowNews := by simp [ArrayNode.entries]
      belowOlds := by simp [ArrayNode.entries]
      disjoint := fun new isNew old isOld same =>
        (mem new).mp isNew (List.mem_map.mpr ⟨old, isOld, same.symm⟩) }
  have denotes := rest.denote sorted (fun i => by rw [mem, List.map_reverse, List.mem_reverse])
  refine ⟨swapped, isSome, ⟨rest.sorted, rest.proper differs.symm, fun _ => ?_⟩, denotes⟩
  have isDefault : swapped.defaultValue = maxValue := rest.sameDefault
  rw [denotes, isDefault]
  exact dominant

/-- `chooseDefault` gives a normal form, from counts that may be too high. -/
theorem chooseDefault_spec {mostFrequent : MostFrequent V} (distinct : enumeration.Nodup)
    (complete : ∀ i, i ∈ enumeration) (positive : 0 < enumeration.length) (sorted : n.Sorted)
    (proper : n.Proper) (written : 0 < n.entries.length)
    (dominates : Dominates n.writes mostFrequent.value mostFrequent.count)
    (fits : mostFrequent.count + n.entries.length < 2 ^ 32)
    : ∃ r, chooseDefault enumeration.length enumeration n n.defaultValue n.entries.length
          mostFrequent = some r
        ∧ r.Normal (some enumeration.length) enumeration ∧ r.denote = n.denote := by
  have ofOutweighed (outweighs : n.Outweighed enumeration.length)
      : n.Normal (some enumeration.length) enumeration :=
    ⟨sorted, proper,
      fun _ => (dominant_iff distinct complete positive sorted proper).mpr outweighs⟩
  rw [chooseDefault]
  split
  case isTrue stays =>
    exact ⟨n, rfl, ofOutweighed (outweighed_of_defaultStays dominates fits stays), rfl⟩
  case isFalse =>
    obtain ⟨isReversed, recounted⟩ := recount_exact n
    dsimp only
    rw [isReversed]
    generalize recount n ⟨[], fun _ => 0, 0, none⟩ = counts at recounted ⊢
    have maxPositive : 0 < counts.max := by
      have member := List.getElem_mem written
      exact Nat.lt_of_lt_of_le ((writes_pos _).mpr ⟨_, member, rfl⟩) (recounted.1.bound _)
    obtain ⟨maxValue, isSome, attained⟩ := recounted.2 maxPositive
    dsimp only at isSome attained
    -- The counts in the attributes are not lower than the exact ones.
    have maxBound := dominates.bound maxValue
    have maxFits : counts.max + n.entries.length < 2 ^ 32 := by omega
    rw [isSome] at recounted ⊢
    split
    case isTrue stays =>
      exact ⟨n, rfl, ofOutweighed (outweighed_of_defaultStays recounted.1 maxFits stays), rfl⟩
    case isFalse leaves =>
      rw [sum32, Nat.mod_eq_of_lt maxFits] at leaves
      exact swapDefault_normal distinct complete sorted proper recounted maxPositive leaves

end Finite

-- normalizeConstant

section Normalizing

variable {indexCard : Option Nat} {enumeration : List I} {descent : Descent I V}
  {passed : List (I × V)}

/-- The written value replaces at most one other. -/
theorem Descent.Splits.writes_le (splits : descent.Splits array index passed)
    (inserted : n.entries = passed ++ (replaced index (some value) ++ descent.below.entries))
    {u : V} (differs : u ≠ value)
    : n.writes u ≤ array.writes u := by
  have notCounted : (replaced index (some value)).countP (·.2 = u) = 0 := by
    simp [replaced, differs.symm]
  simp only [writes, inserted, splits.entries, List.countP_append, notCounted]
  omega

theorem Descent.Splits.writes_grown (splits : descent.Splits array index passed)
    (inserted : n.entries = passed ++ (replaced index (some value) ++ descent.below.entries))
    : n.writes value ≤ array.writes value + 1 := by
  have countedOnce : (replaced index (some value)).countP (·.2 = value) = 1 := by
    simp [replaced]
  simp only [writes, inserted, splits.entries, List.countP_append, countedOnce]
  omega

omit [LinearOrder V] in
theorem Descent.Splits.length_le (splits : descent.Splits array index passed)
    (inserted : n.entries = passed ++ (replaced index (some value) ++ descent.below.entries))
    : n.entries.length ≤ array.entries.length + 1 := by
  simp only [inserted, splits.entries, List.length_append, replaced, Option.map_some,
    Option.toList_some, List.length_singleton]
  omega

/-- Deleting a store keeps the default value. -/
theorem deleteStore_spec (sort : IndexSort I indexCard enumeration)
    (normal : array.Normal indexCard enumeration) (splits : descent.Splits array index passed)
    (found : ¬descent.replacedValue.isNone = true)
    (deleted : n.entries = passed ++ descent.below.entries)
    (sameDefault : n.defaultValue = array.defaultValue)
    : ∃ r, some n = some r ∧ r.Normal indexCard enumeration
        ∧ r.denote = Function.update array.denote index array.defaultValue := by
  have noneInserted : n.entries = passed ++ (replaced index none ++ descent.below.entries) := deleted
  have sorted := splits.sorted normal.sorted noneInserted
  have fewer : n.entries.Sublist array.entries := by
    rw [deleted, splits.entries]
    exact (List.sublist_append_right _ _).append_left _
  have proper : n.Proper := by
    intro entry member
    rw [sameDefault]
    exact normal.proper entry (fewer.subset member)
  refine ⟨n, rfl, ⟨sorted, proper, ?_⟩, splits.denote normal.sorted noneInserted sameDefault⟩
  intro finite
  cases sort with
  | infinite => exact absurd rfl finite
  | finite _ distinct complete positive small =>
      have outweighed :=
        (dominant_iff distinct complete positive normal.sorted normal.proper).mp (normal.dominant finite)
      refine (dominant_iff distinct complete positive sorted proper).mpr (outweighed.of_fewer fewer ?_)
      obtain ⟨old, isSome⟩ := Option.ne_none_iff_exists'.mp (mt Option.isNone_iff_eq_none.mpr found)
      rw [deleted, splits.entries, isSome]
      simp [replaced]

/-- Inserting a store may switch the default value. -/
theorem insertStore_spec (sort : IndexSort I indexCard enumeration)
    (normal : array.Normal indexCard enumeration) (splits : descent.Splits array index passed)
    (inserted : n.entries = passed ++ (replaced index (some value) ++ descent.below.entries))
    (sameDefault : n.defaultValue = array.defaultValue) (differs : value ≠ array.defaultValue)
    : ∃ r, (match indexCard with
          | none => some n
          | some card => chooseDefault card enumeration n n.defaultValue n.entries.length
              ((getMostFrequentValue indexCard array).update value (n.writes value))) = some r
        ∧ r.Normal indexCard enumeration
        ∧ r.denote = Function.update array.denote index value := by
  have sorted := splits.sorted normal.sorted inserted
  have denotes : n.denote = Function.update array.denote index value :=
    splits.denote normal.sorted inserted sameDefault
  have proper : n.Proper := by
    intro entry member
    rw [inserted, List.mem_append, List.mem_append, mem_replaced] at member
    rw [sameDefault]
    rcases member with isPassed | ⟨-, isValue⟩ | isBelow
    · exact normal.proper entry (by simp [splits.entries, isPassed])
    · rw [← Option.some.inj isValue]
      exact differs
    · exact normal.proper entry (by simp [splits.entries, isBelow])
  have accepted := (isConst_iff_normal sort array).mpr normal
  rw [← denotes]
  cases sort with
  | infinite => exact ⟨n, rfl, ⟨sorted, proper, fun finite => absurd rfl finite⟩, rfl⟩
  | finite _ distinct complete positive small =>
      obtain ⟨isNormal, isExact⟩ := computeIsConst_spec small array
      have exact := isExact accepted
      have sumBound := exact.sum_bound (isNormal.mp accepted).2.2
      have oldBound := exact.1.bound value
      have isStored : (index, value) ∈ n.entries := by
        rw [inserted, List.mem_append, List.mem_append, mem_replaced]
        exact Or.inr (Or.inl ⟨rfl, rfl⟩)
      have written : 0 < n.writes value := (writes_pos value).mpr ⟨_, isStored, rfl⟩
      have grown := splits.writes_grown inserted
      have length := splits.length_le inserted
      refine chooseDefault_spec distinct complete positive sorted proper
        (List.length_pos_of_mem isStored) ?_ ?_
      · rw [mostFrequent_update]
        exact exact.1.update rfl written (fun u isOther => splits.writes_le inserted isOther)
      · rw [mostFrequent_update]
        dsimp only
        split <;> omega

/-- `normalizeConstant` on a store to a normal form. -/
theorem normalizeStore_spec (sort : IndexSort I indexCard enumeration)
    (normal : array.Normal indexCard enumeration) (index : I) (value : V)
    : ∃ r, normalizeStore indexCard enumeration array index value = some r
        ∧ r.Normal indexCard enumeration ∧ r.denote = Function.update array.denote index value := by
  obtain ⟨passed, splits, aboves, depths, counts⟩ := descend_spec normal.sorted index value [] 1 1
  simp only [normalizeStore, countStores_eq]
  generalize descend index value array [] 1 1 = descent at splits aboves depths counts ⊢
  have rebuilt (below : ArrayNode I V)
      : (rebuild below descent.above).entries = passed ++ below.entries := by
    rw [rebuild_entries, aboves, List.append_nil, List.reverse_reverse]
  rw [splits.defaultValue]
  split
  case isTrue isDefault =>
    rw [isDefault]
    split
    case isTrue missing =>
      have noneInserted : array.entries = passed ++ (replaced index none ++ descent.below.entries) := by
        rw [splits.entries, Option.isNone_iff_eq_none.mp missing]
      have unchanged := splits.denote normal.sorted noneInserted rfl
      exact ⟨array, rfl, normal, unchanged⟩
    case isFalse found =>
      exact deleteStore_spec sort normal splits found (rebuilt descent.below)
        (by rw [rebuild_defaultValue, splits.defaultValue])
  case isFalse differs =>
    have inserted := rebuilt (.store descent.below index value)
    have sameDefault : (rebuild (.store descent.below index value) descent.above).defaultValue
        = array.defaultValue := by
      rw [rebuild_defaultValue]
      exact splits.defaultValue
    have length : descent.depth + descent.below.entries.length
        = (rebuild (.store descent.below index value) descent.above).entries.length := by
      rw [inserted, depths, List.length_append, entries, List.length_cons]
      omega
    have count : descent.valCount + descent.below.writes value
        = (rebuild (.store descent.below index value) descent.above).writes value := by
      rw [writes, writes, inserted, counts, entries, List.countP_append, List.countP_cons]
      simp
      omega
    rw [length, count, ← sameDefault]
    exact insertStore_spec sort normal splits inserted sameDefault differs

theorem normalizeConstant_spec (sort : IndexSort I indexCard enumeration)
    (normal : array.Normal indexCard enumeration) (index : I) (value : V)
    : ∃ r, normalizeConstant indexCard enumeration (.store array index value) = some r
        ∧ r.Normal indexCard enumeration ∧ r.denote = Function.update array.denote index value := by
  rw [normalizeConstant]
  split
  case isTrue accepted => exact ⟨_, rfl, (isConst_iff_normal sort _).mp accepted, rfl⟩
  case isFalse => exact normalizeStore_spec sort normal index value

/-- Rewriting a chain from the inside out gives the normal form of its function. -/
theorem rewriteChain_spec (sort : IndexSort I indexCard enumeration) (n : ArrayNode I V)
    : ∃ r, rewriteChain indexCard enumeration n = some r
        ∧ r.Normal indexCard enumeration ∧ r.denote = n.denote := by
  induction n with
  | storeAll d => exact ⟨_, rfl, (isConst_iff_normal sort _).mp rfl, rfl⟩
  | store array index value ih =>
      obtain ⟨below, isSome, normal, denotes⟩ := ih
      obtain ⟨r, isRewritten, isNormal, isUpdate⟩ :=
        normalizeConstant_spec sort normal index value
      refine ⟨r, ?_, isNormal, ?_⟩
      · rw [rewriteChain, isSome]
        exact isRewritten
      · rw [isUpdate, denotes]
        rfl

/-- Constant arrays have unique normal forms: a chain is rewritten to a constant that denotes the
same function, two chains denote the same function if and only if they are rewritten to the same
node, and an equality is only rewritten to false if the functions differ.
-/
theorem rewriteChain_unique (sort : IndexSort I indexCard enumeration) (a b : ArrayNode I V)
    : ∃ r s, rewriteChain indexCard enumeration a = some r
        ∧ rewriteChain indexCard enumeration b = some s
        ∧ isConst indexCard r = true ∧ isConst indexCard s = true
        ∧ r.denote = a.denote ∧ s.denote = b.denote
        ∧ (a.denote = b.denote ↔ r = s)
        ∧ (postRewriteEqual indexCard r s = some true ↔ a.denote = b.denote)
        ∧ (postRewriteEqual indexCard r s = some false ↔ a.denote ≠ b.denote)
        ∧ (postRewriteEqual indexCard a b = some false → a.denote ≠ b.denote) := by
  obtain ⟨r, rewritten, normal, denotes⟩ := rewriteChain_spec sort a
  obtain ⟨s, rewritten', normal', denotes'⟩ := rewriteChain_spec sort b
  have accepted := (isConst_iff_normal sort r).mpr normal
  have accepted' := (isConst_iff_normal sort s).mpr normal'
  have same : a.denote = b.denote ↔ r = s := by
    rw [← denotes, ← denotes']
    exact ⟨Normal.unique sort normal normal', congrArg denote⟩
  refine ⟨r, s, rewritten, rewritten', accepted, accepted', denotes, denotes', same, ?_, ?_, ?_⟩
  · rw [same, postRewriteEqual]
    split <;> simp [*]
  · rw [ne_eq, same, postRewriteEqual]
    split <;> simp [*]
  · intro answer equal
    rw [postRewriteEqual] at answer
    split at answer
    · simp at answer
    · next differs =>
        split at answer
        · next constants =>
            obtain ⟨first, second⟩ := Bool.and_eq_true_iff.mp constants
            exact differs (Normal.unique sort ((isConst_iff_normal sort a).mp first)
              ((isConst_iff_normal sort b).mp second) equal)
        · simp at answer

/-- Two stores of the same value to an array over three indices switch the default value. -/
theorem rewriteChain_unique_switched
    : IndexSort (Fin 3) (some 3) [2, 0, 1]
      ∧ rewriteChain (some 3) [2, 0, 1]
          (.store (.store (.storeAll 0) (1 : Fin 3) (7 : Nat)) 0 7)
        = some (.store (.storeAll 7) 2 0)
      ∧ ∃ r s, rewriteChain (some 3) [2, 0, 1]
          (.store (.store (.storeAll 0) (1 : Fin 3) (7 : Nat)) 0 7) = some r
        ∧ rewriteChain (some 3) [2, 0, 1] (.store (.storeAll 7) 2 0) = some s
        ∧ r = s := by
  have sort : IndexSort (Fin 3) (some 3) [2, 0, 1] :=
    .finite [2, 0, 1] (by decide) (by decide) (by decide) (by decide)
  have switched : rewriteChain (some 3) [2, 0, 1]
      (.store (.store (.storeAll 0) (1 : Fin 3) (7 : Nat)) 0 7)
      = some (.store (.storeAll 7) 2 0) := by
    have inner : normalizeConstant (some 3) [2, 0, 1] (.store (.storeAll 0) (1 : Fin 3) (7 : Nat))
        = some (.store (.storeAll 0) 1 7) := by
      decide
    have outer : normalizeConstant (some 3) [2, 0, 1]
        (.store (.store (.storeAll 0) (1 : Fin 3) (7 : Nat)) 0 7)
        = swapDefault 0 7 (.storeAll 7) [2] [(0, 7), (1, 7)] := by
      rfl
    rw [rewriteChain, rewriteChain, rewriteChain]
    simp [inner, outer, swapDefault]
  refine ⟨sort, switched, ?_⟩
  obtain ⟨r, s, rewritten, rewritten', -, -, -, -, same, -⟩ := rewriteChain_unique sort
    (.store (.store (.storeAll 0) (1 : Fin 3) (7 : Nat)) 0 7) (.store (.storeAll 7) 2 0)
  refine ⟨r, s, rewritten, rewritten', same.mp ?_⟩
  decide

end Normalizing

end Ava6.Arrays

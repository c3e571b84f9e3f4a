import Ava6.Context.Context
import Mathlib.Data.List.Nodup

/-! What a saved copy relies on. A change of an object's data leaves what its latest copy
restores as it is, although the copy holds sizes and not contents.
-/

set_option linter.unusedSectionVars false

namespace Ava6.CD

variable {α K D I : Type} [DecidableEq K]

/-- The part of an object's data that ties elements and maps together. -/
inductive Links (K I : Type)
  | plain
  | element (key : K) (dMap : Option I)
  | map (h : CDHashMap K I)

namespace Payload

def links : Payload α K D I → Links K I
  | .cdList _ | .cdQueue _ | .cdInsertHashMap _ => .plain
  | .cdHashMap h => .map h
  | .element e => .element e.key e.dMap

/-- The sizes agree with the contents, and an element is in a map. -/
def Valid : Payload α K D I → Prop
  | .cdList l => l.dSize = l.dList.length
  | .cdQueue q => q.dSize = q.dList.length ∧ q.dIter ≤ q.dSize ∧ q.dLastsave ≤ q.dSize
  | .cdInsertHashMap m =>
      m.dSize = m.dInsertMap.dKeys.length ∧ m.dInsertMap.dHashMap.map (·.1) = m.dInsertMap.dKeys
      ∧ m.dInsertMap.dKeys.Nodup
  | .cdHashMap _ => True
  | .element e => e.dMap.isSome

/-- The data still holds what the copy restores. -/
def Guards : Payload α K D I → Saved D I → Prop
  | .cdList l, .cdList dSize => dSize ≤ l.dSize
  | .cdQueue q, .cdQueue dSize _ _ => dSize = q.dLastsave
  | .cdInsertHashMap m, .cdInsertHashMap dSize => dSize ≤ m.dSize
  | .element _, .element _ _ => True
  | _, _ => False

/-- Only an element of a map leaves it. -/
theorem links_of_leaves {p : Payload α K D I} {saved : Saved D I} {k : K} {m : I}
    (leaving : p.leaves saved = some (k, m)) : p.links = .element k (some m) := by
  match p, saved, leaving with
  | .element ⟨_, _, some _⟩, .element _ none, rfl => rfl

theorem eq_of_links {p : Payload α K D I} {h : CDHashMap K I} (map : p.links = .map h)
    : p = .cdHashMap h := by
  match p, map with
  | .cdHashMap _, rfl => rfl

end Payload

namespace InsertHashMap

variable {m m' : InsertHashMap K D} {k : K} {d : D}

theorem contains_iff (m : InsertHashMap K D) (k : K)
    : m.contains k = true ↔ k ∈ m.dHashMap.map (·.1) := by
  simp [contains, find]

/-- The last key inserted is the first one popped. -/
theorem popBack_pushBack (inserted : m.pushBack k d = some m') : m'.popBack = m := by
  unfold pushBack at inserted
  split at inserted
  · contradiction
  · next absent =>
    cases inserted
    rw [Bool.not_eq_true, ← Bool.not_eq_true, contains_iff] at absent
    have kept : m.dHashMap.filter (·.1 ≠ k) = m.dHashMap := by
      refine List.filter_eq_self.mpr fun entry member => decide_eq_true fun same => absent ?_
      exact same ▸ List.mem_map_of_mem member
    rw [popBack, List.getLast?_concat]
    simp only [List.dropLast_concat, List.filter_append, kept]
    simp

theorem length_pushBack (inserted : m.pushBack k d = some m')
    : m'.dKeys.length = m.dKeys.length + 1 := by
  unfold pushBack at inserted
  split at inserted
  · contradiction
  · cases inserted
    simp

theorem popToSize_pushBack (inserted : m.pushBack k d = some m') {s : Nat}
    (short : s ≤ m.dKeys.length) : m'.popToSize s = m.popToSize s := by
  have one_more : m'.dKeys.length - s = m.dKeys.length - s + 1 := by
    rw [length_pushBack inserted]
    omega
  rw [popToSize, one_more, Function.iterate_succ_apply, popBack_pushBack inserted, popToSize]

theorem popToSize_length (m : InsertHashMap K D) : m.popToSize m.dKeys.length = m := by
  rw [popToSize, Nat.sub_self, Function.iterate_zero, id]

end InsertHashMap

namespace Payload

variable {p p' : Payload α K D I} {saved : Saved D I}

/-- Restoring a copy right after it was made gives the object back. -/
theorem restore_save (valid : p.Valid) (copied : p.save = some (saved, p'))
    : p'.restore saved = p ∧ p'.Guards saved ∧ p'.Valid ∧ p'.links = p.links
      ∧ p'.leaves saved = none := by
  cases p with
  | cdList l =>
    cases copied
    refine ⟨?_, Nat.le_refl _, valid, rfl, rfl⟩
    simp only [restore, CDList.truncateList, Valid] at valid ⊢
    rw [valid, List.take_length, ← valid]
  | cdQueue q =>
    cases copied
    obtain ⟨size, iter, _⟩ := valid
    refine ⟨?_, rfl, ⟨size, iter, Nat.le_refl _⟩, rfl, rfl⟩
    simp only [restore, CDList.truncateList]
    rw [size, List.take_length, ← size]
  | cdInsertHashMap m =>
    cases copied
    refine ⟨?_, Nat.le_refl _, valid, rfl, rfl⟩
    simp only [restore]
    rw [valid.1, InsertHashMap.popToSize_length, ← valid.1]
  | cdHashMap h => cases copied
  | element e =>
    cases copied
    match e, valid with
    | ⟨key, data, some m⟩, _ => exact ⟨rfl, trivial, rfl, rfl, rfl⟩

end Payload

/-- A change that keeps an object valid, its links, and what its copies restore. -/
def Keeps (change : Payload α K D I → Option (Payload α K D I)) : Prop :=
  ∀ p p', change p = some p' → p.Valid
    → p'.Valid ∧ p'.links = p.links ∧ (∀ h, p.links ≠ .map h)
      ∧ ∀ saved, p.Guards saved
        → p'.Guards saved ∧ p'.leaves saved = p.leaves saved
          ∧ (p.leaves saved = none → p'.restore saved = p.restore saved)

namespace Context

theorem changeList_keeps (data : α) : Keeps (changeList (K := K) (D := D) (I := I) data) := by
  intro p p' changed valid
  match p, changed with
  | .cdList l, rfl =>
    refine ⟨?_, rfl, nofun, fun saved guards => ?_⟩
    · simp only [Payload.Valid, CDList.pushBack] at valid ⊢
      simp [valid]
    · match saved, guards with
      | .cdList dSize, small =>
        refine ⟨Nat.le_succ_of_le small, rfl, fun _ => ?_⟩
        simp only [Payload.Guards, Payload.Valid] at small valid
        simp only [Payload.restore, CDList.truncateList, CDList.pushBack]
        rw [List.take_append_of_le_length (by omega)]

theorem changeQueuePush_keeps (data : α)
    : Keeps (changeQueuePush (K := K) (D := D) (I := I) data) := by
  intro p p' changed valid
  match p, changed with
  | .cdQueue q, rfl =>
    obtain ⟨size, iter, last⟩ := valid
    refine ⟨⟨by simp [CDQueue.push, CDList.pushBack, size], ?_, ?_⟩, rfl,
      nofun, fun saved guards => ?_⟩
    · simp only [CDQueue.push, CDList.pushBack]
      omega
    · simp only [CDQueue.push, CDList.pushBack]
      omega
    · match saved, guards with
      | .cdQueue dSize dIter dLastsave, same =>
        simp only [Payload.Guards] at same
        refine ⟨same, rfl, fun _ => ?_⟩
        simp only [Payload.restore, CDList.truncateList, CDQueue.push, CDList.pushBack]
        rw [List.take_append_of_le_length (by omega)]

/-- The elements below the last save stay, since a pop cuts the list at the last save. -/
theorem changeQueuePop_keeps
    : Keeps (changeQueuePop : Payload α K D I → Option (Payload α K D I)) := by
  intro p p' changed valid
  cases p with
  | cdQueue q =>
    obtain ⟨q', popped, rfl⟩ := Option.map_eq_some_iff.mp changed
    obtain ⟨size, iter, last⟩ := valid
    unfold CDQueue.pop at popped
    split at popped
    · contradiction
    · next nonempty =>
      simp only [CDQueue.isEmpty, beq_iff_eq] at nonempty
      simp only at popped
      split at popped
      · cases popped
        refine ⟨⟨?_, Nat.le_refl _, Nat.le_refl _⟩, rfl, (fun _ isMap => by cases isMap),
          fun saved guards => ?_⟩
        · simp only [CDList.truncateList, List.length_take]
          omega
        · cases saved with
          | cdQueue dSize dIter dLastsave =>
            simp only [Payload.Guards] at guards
            refine ⟨guards, rfl, fun _ => ?_⟩
            simp only [Payload.restore, CDList.truncateList]
            rw [List.take_take, guards, Nat.min_self]
          | _ => cases guards
      · cases popped
        refine ⟨⟨size, ?_, last⟩, rfl, (fun _ isMap => by cases isMap), fun saved guards => ?_⟩
        · simp only
          omega
        · cases saved with
          | cdQueue dSize dIter dLastsave => exact ⟨guards, rfl, fun _ => rfl⟩
          | _ => cases guards
  | _ => cases changed

theorem changeInsert_keeps (k : K) (d : D)
    : Keeps (changeInsert (α := α) (I := I) k d) := by
  intro p p' changed valid
  match p, changed with
  | .cdInsertHashMap m, changed =>
    obtain ⟨m', inserted, rfl⟩ := Option.map_eq_some_iff.mp changed
    obtain ⟨keys, pushed, rfl⟩ := Option.map_eq_some_iff.mp inserted
    obtain ⟨size, table, distinct⟩ := valid
    refine ⟨⟨?_, ?_⟩, rfl, nofun, fun saved guards => ?_⟩
    · simp only [InsertHashMap.length_pushBack pushed, size]
    · unfold InsertHashMap.pushBack at pushed
      split at pushed
      · contradiction
      · next absent =>
        cases pushed
        rw [InsertHashMap.contains_iff, table] at absent
        refine ⟨by simp [table], ?_⟩
        exact List.nodup_append.mpr ⟨distinct, List.nodup_singleton k, fun a inside b only same =>
          absent (List.mem_singleton.mp only ▸ same ▸ inside)⟩
    · match saved, guards with
      | .cdInsertHashMap dSize, small =>
        simp only [Payload.Guards] at small
        refine ⟨Nat.le_succ_of_le small, rfl, fun _ => ?_⟩
        simp only [Payload.restore, InsertHashMap.popToSize_pushBack pushed (size ▸ small)]

theorem changeElement_keeps (d : D) : Keeps (changeElement (α := α) (K := K) (I := I) d) := by
  intro p p' changed valid
  match p, changed with
  | .element ⟨key, data, some m⟩, rfl =>
    refine ⟨rfl, rfl, nofun, fun saved guards => ?_⟩
    match saved, guards with
    | .element _ (some _), _ => exact ⟨trivial, rfl, fun _ => rfl⟩
    | .element _ none, _ => exact ⟨trivial, rfl, nofun⟩

end Context

end Ava6.CD

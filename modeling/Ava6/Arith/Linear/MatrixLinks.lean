import Mathlib.Data.List.Dedup
import Ava6.Arith.Linear.Matrix

/-! The row lists and the column lists of a matrix hold the same entries, and adding or removing
one entry keeps it so.
-/

namespace Ava6.Arith.Linear

open Library.LinkedList

variable {T : Type}

-- Entries and their links

namespace MatrixEntry

/-- The row or the column the entry lies in. -/
def index (isRow : Bool) (e : MatrixEntry T) : Option Nat := if isRow then e.rowIndex else e.colVar

@[simp]
theorem index_setNext (isRow side : Bool) (e : MatrixEntry T) (id : Option EntryID)
    : (e.setNext isRow id).index side = e.index side := by
  cases isRow <;> rfl

@[simp]
theorem index_setPrev (isRow side : Bool) (e : MatrixEntry T) (id : Option EntryID)
    : (e.setPrev isRow id).index side = e.index side := by
  cases isRow <;> rfl

@[simp]
theorem coefficient_setNext (isRow : Bool) (e : MatrixEntry T) (id : Option EntryID)
    : (e.setNext isRow id).coefficient = e.coefficient := by
  cases isRow <;> rfl

@[simp]
theorem coefficient_setPrev (isRow : Bool) (e : MatrixEntry T) (id : Option EntryID)
    : (e.setPrev isRow id).coefficient = e.coefficient := by
  cases isRow <;> rfl

@[simp]
theorem next_setNext (isRow side : Bool) (e : MatrixEntry T) (id : Option EntryID)
    : (e.setNext isRow id).next side = if side = isRow then id else e.next side := by
  cases isRow <;> cases side <;> rfl

@[simp]
theorem prev_setNext (isRow side : Bool) (e : MatrixEntry T) (id : Option EntryID)
    : (e.setNext isRow id).prev side = e.prev side := by
  cases isRow <;> rfl

@[simp]
theorem prev_setPrev (isRow side : Bool) (e : MatrixEntry T) (id : Option EntryID)
    : (e.setPrev isRow id).prev side = if side = isRow then id else e.prev side := by
  cases isRow <;> cases side <;> rfl

@[simp]
theorem next_setPrev (isRow side : Bool) (e : MatrixEntry T) (id : Option EntryID)
    : (e.setPrev isRow id).next side = e.next side := by
  cases isRow <;> rfl

end MatrixEntry

namespace MatrixEntryVector

def links (v : MatrixEntryVector T) (side : Bool) : Links EntryID where
  next id := (v.get id).next side
  prev id := (v.get id).prev side

theorem get_set (v : MatrixEntryVector T) (id other : EntryID) (e : MatrixEntry T)
    : (v.set id e).get other = if other = id then e else v.get other :=
  Table.get_set v.entries id other e

/-- The same entries at the same places, with other links. -/
structure Relinked (v v' : MatrixEntryVector T) : Prop where
  length : v'.entries.length = v.entries.length
  freed : v'.freedEntries = v.freedEntries
  size : v'.size = v.size
  index (side : Bool) (id : EntryID) : (v'.get id).index side = (v.get id).index side
  coefficient (id : EntryID) : (v'.get id).coefficient = (v.get id).coefficient

theorem Relinked.refl (v : MatrixEntryVector T) : Relinked v v :=
  ⟨rfl, rfl, rfl, fun _ _ => rfl, fun _ => rfl⟩

theorem Relinked.trans {u v w : MatrixEntryVector T} (first : Relinked u v)
    (second : Relinked v w)
    : Relinked u w where
  length := second.length.trans first.length
  freed := second.freed.trans first.freed
  size := second.size.trans first.size
  index side id := (second.index side id).trans (first.index side id)
  coefficient id := (second.coefficient id).trans (first.coefficient id)

theorem relinked_setNext (v : MatrixEntryVector T) (isRow : Bool) (id : EntryID)
    (next : Option EntryID)
    : Relinked v (v.set id ((v.get id).setNext isRow next)) := by
  refine ⟨rfl, rfl, rfl, ?_, ?_⟩
  · intro side other
    rw [get_set]
    split <;> simp_all
  · intro other
    rw [get_set]
    split <;> simp_all

theorem relinked_setPrev (v : MatrixEntryVector T) (isRow : Bool) (id : EntryID)
    (prev : Option EntryID)
    : Relinked v (v.set id ((v.get id).setPrev isRow prev)) := by
  refine ⟨rfl, rfl, rfl, ?_, ?_⟩
  · intro side other
    rw [get_set]
    split <;> simp_all
  · intro other
    rw [get_set]
    split <;> simp_all

end MatrixEntryVector

namespace MatrixVector

open MatrixEntryVector

theorem insert_relinked (isRow : Bool) (vec : MatrixVector) (id : EntryID)
    (es : MatrixEntryVector T)
    : Relinked es (vec.insert isRow id es).2 := by
  have linked := relinked_setNext es isRow id vec.head
  cases head : vec.head with
  | none => simpa [insert, head] using linked
  | some first =>
      rw [head] at linked
      simpa [insert, head] using linked.trans (relinked_setPrev _ isRow first (some id))

theorem remove_relinked (isRow : Bool) (vec : MatrixVector) (id : EntryID)
    (es : MatrixEntryVector T)
    : Relinked es (vec.remove isRow id es).2 := by
  cases before : (es.get id).prev isRow with
  | none =>
      cases after : (es.get id).next isRow with
      | none => simpa [remove, before, after] using Relinked.refl es
      | some next =>
          simpa [remove, before, after] using relinked_setPrev es isRow next none
  | some prev =>
      have linked := relinked_setNext es isRow prev ((es.get id).next isRow)
      cases after : (es.get id).next isRow with
      | none => simpa [remove, before, after] using linked
      | some next =>
          rw [after] at linked
          simpa [remove, before, after] using
            linked.trans (relinked_setPrev _ isRow next (some prev))

theorem insert_links (isRow : Bool) (vec : MatrixVector) (id : EntryID)
    (es : MatrixEntryVector T)
    : (vec.insert isRow id es).2.links isRow = (es.links isRow).insert vec.head id := by
  cases head : vec.head with
  | none =>
      simp only [insert, head, links, Links.insert, get_set]
      congr 1 <;> funext other <;> by_cases same : other = id <;> simp [same]
  | some first =>
      simp only [insert, head, links, Links.insert, get_set]
      congr 1 <;> funext other <;> by_cases same : other = id <;>
        by_cases isFirst : other = first <;> simp_all

theorem insert_links_other (isRow : Bool) (vec : MatrixVector) (id : EntryID)
    (es : MatrixEntryVector T)
    : (vec.insert isRow id es).2.links (!isRow) = es.links (!isRow) := by
  cases head : vec.head with
  | none =>
      simp only [insert, head, links, get_set]
      congr 1 <;> funext other <;> by_cases same : other = id <;> simp [same]
  | some first =>
      simp only [insert, head, links, get_set]
      congr 1 <;> funext other <;> by_cases same : other = id <;>
        by_cases isFirst : other = first <;> simp_all

theorem remove_links (isRow : Bool) (vec : MatrixVector) (id : EntryID)
    (es : MatrixEntryVector T)
    : (vec.remove isRow id es).2.links isRow = (es.links isRow).remove id := by
  cases before : (es.get id).prev isRow <;> cases after : (es.get id).next isRow <;>
    simp only [remove, before, after, links, Links.remove, get_set] <;>
    congr 1 <;> funext other <;>
    grind [Function.update_apply, MatrixEntry.next_setNext, MatrixEntry.next_setPrev,
      MatrixEntry.prev_setNext, MatrixEntry.prev_setPrev]

theorem remove_links_other (isRow : Bool) (vec : MatrixVector) (id : EntryID)
    (es : MatrixEntryVector T)
    : (vec.remove isRow id es).2.links (!isRow) = es.links (!isRow) := by
  cases before : (es.get id).prev isRow <;> cases after : (es.get id).next isRow <;>
    simp only [remove, before, after, links, get_set] <;>
    congr 1 <;> funext other <;>
    grind [MatrixEntry.next_setNext, MatrixEntry.next_setPrev, MatrixEntry.prev_setNext,
      MatrixEntry.prev_setPrev]

end MatrixVector

-- The lists of one side

/-- The lists of all rows, or those of all columns: each is linked and holds the entries that lie
in its row or column.
-/
structure Side (side : Bool) (es : MatrixEntryVector T) (vecs : Table MatrixVector)
    (lists : Nat → List EntryID) : Prop where
  chain (k : Nat) : Chain (es.links side) none (vecs.get k).head (lists k)
  size (k : Nat) : (vecs.get k).size = (lists k).length
  nodup (k : Nat) : (lists k).Nodup
  mem (k : Nat) (id : EntryID)
    : id ∈ lists k ↔ id < es.entries.length ∧ (es.get id).index side = some k
  bound {k : Nat} {id : EntryID} (member : id ∈ lists k) : k < vecs.length

namespace Side

variable {side : Bool} {es es' : MatrixEntryVector T} {vecs : Table MatrixVector}
  {lists : Nat → List EntryID} {k j : Nat} {id : EntryID}

/-- An entry lies in one list only. -/
theorem eq_of_mem (valid : Side side es vecs lists) (first : id ∈ lists k) (second : id ∈ lists j)
    : k = j := by
  have sameIndex := ((valid.mem k id).mp first).2.symm.trans ((valid.mem j id).mp second).2
  exact Option.some.inj sameIndex

/-- Only the links, the places and the number of the entries matter. -/
theorem congr (valid : Side side es vecs lists)
    (length : es'.entries.length = es.entries.length)
    (links : es'.links side = es.links side)
    (index : ∀ id, (es'.get id).index side = (es.get id).index side)
    : Side side es' vecs lists where
  chain k := by
    rw [links]
    exact valid.chain k
  size := valid.size
  nodup := valid.nodup
  mem k id := by
    rw [valid.mem, length, index]
  bound := valid.bound

/-- A new entry becomes the first one of its list. -/
theorem insert (valid : Side side es vecs lists)
    (fresh : ∀ j, id ∉ lists j) (inRange : k < vecs.length)
    (others : ∀ other, other ≠ id → (es'.get other).next side = (es.get other).next side
      ∧ (es'.get other).prev side = (es.get other).prev side
      ∧ (es'.get other).index side = (es.get other).index side)
    (length : ∀ other, other < es'.entries.length ↔ other < es.entries.length ∨ other = id)
    (detached : (es'.get id).prev side = none) (placed : (es'.get id).index side = some k)
    : Side side ((vecs.get k).insert side id es').2
        (vecs.set k ((vecs.get k).insert side id es').1)
        (Function.update lists k (id :: lists k)) := by
  have relinked := MatrixVector.insert_relinked side (vecs.get k) id es'
  have before (j : Nat) : Chain (es'.links side) none (vecs.get j).head (lists j) := by
    refine (valid.chain j).congr (fun other member => ?_)
    have differs : other ≠ id := fun same => fresh j (same ▸ member)
    exact ⟨(others other differs).1, (others other differs).2.1⟩
  constructor
  · intro j
    rw [MatrixVector.insert_links, Table.get_set]
    by_cases same : j = k
    · subst same
      rw [if_pos rfl, Function.update_self]
      exact (before j).insert (valid.nodup j) (fresh j) detached
    · rw [if_neg same, Function.update_of_ne same]
      refine (before j).insert_other (fresh j) ?_
      intro first isFirst inOther
      rw [(valid.chain k).head] at isFirst
      exact same (valid.eq_of_mem inOther (List.mem_of_mem_head? isFirst))
  · intro j
    rw [Table.get_set]
    by_cases same : j = k
    · subst same
      simp [MatrixVector.insert, valid.size]
    · rw [if_neg same, Function.update_of_ne same]
      exact valid.size j
  · intro j
    by_cases same : j = k
    · subst same
      rw [Function.update_self]
      exact List.nodup_cons.mpr ⟨fresh j, valid.nodup j⟩
    · rw [Function.update_of_ne same]
      exact valid.nodup j
  · intro j other
    rw [relinked.length, relinked.index, length]
    by_cases isNew : other = id
    · subst isNew
      rw [placed]
      by_cases same : j = k
      · simp [same]
      · rw [Function.update_of_ne same]
        simp [fresh j, Ne.symm same]
    · rw [(others other isNew).2.2]
      by_cases same : j = k
      · simp [same, isNew, valid.mem]
      · rw [Function.update_of_ne same]
        simp [isNew, valid.mem]
  · intro j other member
    by_cases same : j = k
    · simpa [same] using inRange
    · rw [Function.update_of_ne same] at member
      exact valid.bound member

/-- An entry is taken out of its list. -/
theorem remove (valid : Side side es vecs lists) (member : id ∈ lists k)
    {vec : MatrixVector}
    (head : vec.head =
      if (vecs.get k).head = some id then (es.get id).next side else (vecs.get k).head)
    (size : vec.size = (vecs.get k).size - 1)
    (length : es'.entries.length = es.entries.length)
    (links : es'.links side = (es.links side).remove id)
    (others : ∀ other, other ≠ id → (es'.get other).index side = (es.get other).index side)
    (blank : (es'.get id).index side = none)
    : Side side es' (vecs.set k vec) (Function.update lists k ((lists k).erase id)) := by
  obtain ⟨front, back, split⟩ := List.append_of_mem member
  have chain := valid.chain k
  have distinct := valid.nodup k
  rw [split] at chain distinct
  have absent : id ∉ front := by
    intro inFront
    exact (List.nodup_append.mp distinct).2.2 id inFront id (by simp) rfl
  have erased : (lists k).erase id = front ++ back := by
    rw [split, List.erase_append_right _ absent, List.erase_cons_head]
  constructor
  · intro j
    rw [links, Table.get_set]
    by_cases same : j = k
    · subst same
      rw [if_pos rfl, Function.update_self, erased, head]
      have newHead : (if (vecs.get j).head = some id then (es.get id).next side
          else (vecs.get j).head) = (front ++ back).head? := by
        rw [chain.head]
        cases front with
        | nil => simpa [MatrixEntryVector.links] using chain.next_eq (l := [])
        | cons first front =>
            have differs : first ≠ id := fun same => absent (by simp [same])
            simp [differs]
      rw [newHead]
      exact chain.remove distinct
    · rw [if_neg same, Function.update_of_ne same]
      -- The neighbours of the entry lie in its own list.
      refine (valid.chain j).remove_other ?_ ?_
      · intro other isPrev inOther
        have prevEq : (es.links side).prev id = front.getLast? := by simpa using chain.prev_eq
        rw [prevEq] at isPrev
        have inOwn : other ∈ lists k := by
          rw [split]
          exact List.mem_append_left _ (List.mem_of_mem_getLast? isPrev)
        exact same (valid.eq_of_mem inOther inOwn)
      · intro other isNext inOther
        rw [chain.next_eq] at isNext
        have inOwn : other ∈ lists k := by
          rw [split]
          exact List.mem_append_right _ (List.mem_cons_of_mem _ (List.mem_of_mem_head? isNext))
        exact same (valid.eq_of_mem inOther inOwn)
  · intro j
    rw [Table.get_set]
    by_cases same : j = k
    · subst same
      rw [if_pos rfl, Function.update_self, size, valid.size, List.length_erase_of_mem member]
    · rw [if_neg same, Function.update_of_ne same]
      exact valid.size j
  · intro j
    by_cases same : j = k
    · subst same
      rw [Function.update_self]
      exact (valid.nodup j).erase id
    · rw [Function.update_of_ne same]
      exact valid.nodup j
  · intro j other
    rw [length]
    by_cases removed : other = id
    · subst removed
      rw [blank]
      by_cases same : j = k
      · subst same
        simp [(valid.nodup j).mem_erase_iff]
      · rw [Function.update_of_ne same]
        simpa using fun inOther => same (valid.eq_of_mem inOther member)
    · rw [others other removed, ← valid.mem]
      by_cases same : j = k
      · subst same
        simp [(valid.nodup j).mem_erase_iff, removed]
      · rw [Function.update_of_ne same]
  · intro j other inList
    by_cases same : j = k
    · subst same
      exact valid.bound member
    · rw [Function.update_of_ne same] at inList
      exact valid.bound inList

end Side

-- The lists of a matrix

/-- The lists of the rows are `rows`, those of the columns `cols`, and they hold the same
entries, at most one for a row and a column. The other entries are freed.
-/
structure Matrix.Linked (m : Matrix T) (rows : RowIndex → List EntryID)
    (cols : ArithVar → List EntryID) : Prop where
  row : Side true m.entries m.rows rows
  col : Side false m.entries m.columns cols
  blank {id : EntryID} (inRange : id < m.entries.entries.length)
    : (m.entries.get id).rowIndex = none ↔ (m.entries.get id).colVar = none
  freed (id : EntryID)
    : id ∈ m.entries.freedEntries
      ↔ id < m.entries.entries.length ∧ (m.entries.get id).rowIndex = none
  freedNodup : m.entries.freedEntries.Nodup
  unique {r : RowIndex} {c : ArithVar} {id id' : EntryID} (first : id ∈ rows r ∧ id ∈ cols c)
    (second : id' ∈ rows r ∧ id' ∈ cols c) : id = id'
  inUse : m.entriesInUse + m.entries.freedEntries.length = m.entries.entries.length
  size : m.entries.size + m.entries.freedEntries.length = m.entries.entries.length
  poolNodup : m.pool.Nodup
  pool {r : RowIndex} (pooled : r ∈ m.pool) : r < m.rows.length ∧ rows r = []

namespace Matrix

variable {m : Matrix T} {rows : RowIndex → List EntryID} {cols : ArithVar → List EntryID}
  {r : RowIndex} {c : ArithVar} {id : EntryID}

/-- The id that `newEntry` gives out. -/
def newId (m : Matrix T) : EntryID :=
  match m.entries.freedEntries with
  | [] => m.entries.entries.length
  | id :: _ => id

theorem Linked.mem_row (linked : m.Linked rows cols)
    : id ∈ rows r ↔ id < m.entries.entries.length ∧ (m.entries.get id).rowIndex = some r :=
  linked.row.mem r id

theorem Linked.mem_col (linked : m.Linked rows cols)
    : id ∈ cols c ↔ id < m.entries.entries.length ∧ (m.entries.get id).colVar = some c :=
  linked.col.mem c id

/-- Each entry of a row lies in a column. -/
theorem Linked.col_of_row (linked : m.Linked rows cols) (member : id ∈ rows r)
    : ∃ c, id ∈ cols c ∧ (m.entries.get id).colVar = some c := by
  obtain ⟨inRange, placed⟩ := linked.mem_row.mp member
  cases column : (m.entries.get id).colVar with
  | none =>
      rw [(linked.blank inRange).mpr column] at placed
      simp at placed
  | some c => exact ⟨c, linked.mem_col.mpr ⟨inRange, column⟩, rfl⟩

theorem Linked.row_of_col (linked : m.Linked rows cols) (member : id ∈ cols c)
    : ∃ r, id ∈ rows r ∧ (m.entries.get id).rowIndex = some r := by
  obtain ⟨inRange, placed⟩ := linked.mem_col.mp member
  cases row : (m.entries.get id).rowIndex with
  | none =>
      rw [(linked.blank inRange).mp row] at placed
      simp at placed
  | some r => exact ⟨r, linked.mem_row.mpr ⟨inRange, row⟩, rfl⟩

theorem Linked.row_length (linked : m.Linked rows cols) : (rows r).length ≤ m.fuel := by
  have below : (rows r).Subset (List.range m.fuel) := by
    intro id member
    exact List.mem_range.mpr (linked.mem_row.mp member).1
  simpa using (linked.row.nodup r).length_le_of_subset below

theorem Linked.col_length (linked : m.Linked rows cols) : (cols c).length ≤ m.fuel := by
  have below : (cols c).Subset (List.range m.fuel) := by
    intro id member
    exact List.mem_range.mpr (linked.mem_col.mp member).1
  simpa using (linked.col.nodup c).length_le_of_subset below

theorem Linked.newId_fresh (linked : m.Linked rows cols)
    : (∀ r, m.newId ∉ rows r) ∧ ∀ c, m.newId ∉ cols c := by
  have notInRow (r : RowIndex) : m.newId ∉ rows r := by
    intro member
    obtain ⟨inRange, placed⟩ := linked.mem_row.mp member
    cases freed : m.entries.freedEntries with
    | nil => simp [newId, freed] at inRange
    | cons first rest =>
        simp only [newId, freed] at placed
        have blank := ((linked.freed first).mp (by simp [freed])).2
        rw [blank] at placed
        simp at placed
  refine ⟨notInRow, fun c member => ?_⟩
  obtain ⟨r, inRow, -⟩ := linked.row_of_col member
  exact notInRow r inRow

/-- The vector after `newEntry` has one more entry in use. -/
structure Allocated (v v' : MatrixEntryVector T) (id : EntryID) : Prop where
  others (other : EntryID) (differs : other ≠ id) : v'.get other = v.get other
  length (other : EntryID) : other < v'.entries.length ↔ other < v.entries.length ∨ other = id
  freed (other : EntryID) : other ∈ v'.freedEntries ↔ other ∈ v.freedEntries ∧ other ≠ id
  nodup : v'.freedEntries.Nodup
  size : v'.size = v.size + 1
  count : v'.entries.length + v.freedEntries.length
    = v.entries.length + 1 + v'.freedEntries.length

theorem Linked.newEntry [Zero T] (linked : m.Linked rows cols)
    : m.entries.newEntry.1 = m.newId
      ∧ Allocated m.entries m.entries.newEntry.2 m.newId := by
  have distinct := linked.freedNodup
  cases freed : m.entries.freedEntries with
  | nil =>
      simp only [MatrixEntryVector.newEntry, newId, freed, true_and]
      refine ⟨?_, ?_, ?_, by simp, rfl, by simp [Table.push, freed]⟩
      · intro other differs
        simp [MatrixEntryVector.get, Table.get_push, differs]
      · intro other
        exact Nat.lt_succ_iff_lt_or_eq
      · intro other
        simp [freed]
  | cons first rest =>
      rw [freed] at distinct
      simp only [MatrixEntryVector.newEntry, newId, freed, true_and]
      refine ⟨fun _ _ => rfl, ?_, ?_, (List.nodup_cons.mp distinct).2, rfl, ?_⟩
      · intro other
        have inRange := ((linked.freed first).mp (by simp [freed])).1
        constructor
        · exact Or.inl
        · rintro (below | rfl)
          · exact below
          · exact inRange
      · intro other
        have absent := (List.nodup_cons.mp distinct).1
        rw [freed, List.mem_cons]
        constructor
        · intro member
          exact ⟨Or.inr member, fun same => absent (same ▸ member)⟩
        · rintro ⟨same | member, differs⟩
          · exact absurd same differs
          · exact member
      · simp only [freed, List.length_cons]
        omega

end Matrix

end Ava6.Arith.Linear

import Ava6.Arith.Linear.MatrixLinks

/-! Adding and removing one entry of a matrix, and the coefficients that follow from it. -/

namespace Ava6.Arith.Linear

open Library.LinkedList

variable {T : Type}

namespace Matrix

/-- What an entry says, without its links. -/
def cell (m : Matrix T) (id : EntryID) : Option RowIndex × Option ArithVar × T :=
  ((m.entries.get id).rowIndex, (m.entries.get id).colVar, (m.entries.get id).coefficient)

/-- All but the entries and their lists is the same. -/
structure SameShape (m m' : Matrix T) : Prop where
  rows : m'.rows.length = m.rows.length
  columns : m'.columns.length = m.columns.length
  pool : m'.pool = m.pool
  rowInMergeBuffer : m'.rowInMergeBuffer = m.rowInMergeBuffer

theorem SameShape.refl (m : Matrix T) : SameShape m m := ⟨rfl, rfl, rfl, rfl⟩

theorem SameShape.trans {m m' m'' : Matrix T} (first : SameShape m m') (second : SameShape m' m'')
    : SameShape m m'' :=
  ⟨second.rows.trans first.rows, second.columns.trans first.columns,
    second.pool.trans first.pool, second.rowInMergeBuffer.trans first.rowInMergeBuffer⟩

variable {m : Matrix T} {rows : RowIndex → List EntryID} {cols : ArithVar → List EntryID}
  {r : RowIndex} {c : ArithVar} {id : EntryID}

-- Adding an entry

section Adding

theorem mem_update_cons {lists : Nat → List EntryID} {k j : Nat} {x y : EntryID}
    : y ∈ Function.update lists k (x :: lists k) j ↔ y ∈ lists j ∨ y = x ∧ j = k := by
  by_cases same : j = k
  · subst same
    simp [or_comm]
  · simp [same]

theorem Linked.unique_cons (linked : m.Linked rows cols) {new : EntryID}
    (freshRow : ∀ r, new ∉ rows r) (freshCol : ∀ c, new ∉ cols c)
    (vacant : ∀ id ∈ rows r, id ∉ cols c) {row : RowIndex} {col : ArithVar}
    {first second : EntryID}
    (inFirst : (first ∈ rows row ∨ first = new ∧ row = r) ∧ (first ∈ cols col ∨ first = new ∧ col = c))
    (inSecond : (second ∈ rows row ∨ second = new ∧ row = r)
      ∧ (second ∈ cols col ∨ second = new ∧ col = c))
    : first = second := by
  -- An id is new in both lists or in none.
  have placed {id : EntryID}
      (member : (id ∈ rows row ∨ id = new ∧ row = r) ∧ (id ∈ cols col ∨ id = new ∧ col = c))
      : (id ∈ rows row ∧ id ∈ cols col) ∨ (id = new ∧ row = r ∧ col = c) := by
    obtain ⟨inRow | ⟨rfl, sameRow⟩, inCol | ⟨isNew, sameCol⟩⟩ := member
    · exact Or.inl ⟨inRow, inCol⟩
    · exact absurd (isNew ▸ inRow) (freshRow row)
    · exact absurd inCol (freshCol col)
    · exact Or.inr ⟨rfl, sameRow, sameCol⟩
  rcases placed inFirst with old | ⟨rfl, rfl, rfl⟩
  · rcases placed inSecond with old' | ⟨rfl, rfl, rfl⟩
    · exact linked.unique old old'
    · exact absurd old.2 (vacant first old.1)
  · rcases placed inSecond with old' | ⟨same, -, -⟩
    · exact absurd old'.2 (vacant second old'.1)
    · exact same.symm

variable [Zero T]

/-- The entries after `newEntry`, the row insertion and the column insertion of `addEntry`. -/
theorem Linked.addEntry_stages (linked : m.Linked rows cols) (coeff : T)
    : ∃ created inRow inCol : MatrixEntryVector T,
        Allocated m.entries created m.newId
        ∧ created.get m.newId = .create r c coeff
        ∧ inRow = ((m.rows.get r).insert true m.newId created).2
        ∧ inCol = ((m.columns.get c).insert false m.newId inRow).2
        ∧ m.addEntry r c coeff = { m with
            entriesInUse := m.entriesInUse + 1
            rows := m.rows.set r ((m.rows.get r).insert true m.newId created).1
            columns := m.columns.set c ((m.columns.get c).insert false m.newId inRow).1
            entries := inCol } := by
  obtain ⟨newIdEq, allocated⟩ := linked.newEntry
  refine ⟨m.entries.newEntry.2.set m.newId (.create r c coeff), _, _, ?_, ?_, rfl, rfl, ?_⟩
  · refine { allocated with others := ?_ }
    intro other differs
    rw [MatrixEntryVector.get_set, if_neg differs, allocated.others other differs]
  · rw [MatrixEntryVector.get_set, if_pos rfl]
  · simp only [Matrix.addEntry, newIdEq]

theorem Linked.cell_addEntry (linked : m.Linked rows cols) (coeff : T)
    : (m.addEntry r c coeff).cell
      = Function.update m.cell m.newId (some r, some c, coeff) := by
  obtain ⟨created, inRow, inCol, allocated, content, rfl, rfl, added⟩ :=
    linked.addEntry_stages (r := r) (c := c) coeff
  have relinked := (MatrixVector.insert_relinked true (m.rows.get r) m.newId created).trans
    (MatrixVector.insert_relinked false (m.columns.get c) m.newId _)
  funext other
  have cellEq : (m.addEntry r c coeff).cell other
      = ((created.get other).rowIndex, (created.get other).colVar,
          (created.get other).coefficient) := by
    rw [added]
    exact congrArg₂ Prod.mk (relinked.index true other)
      (congrArg₂ Prod.mk (relinked.index false other) (relinked.coefficient other))
  rw [cellEq]
  by_cases isNew : other = m.newId
  · rw [isNew, Function.update_self, content]
    rfl
  · rw [Function.update_of_ne isNew, allocated.others other isNew]
    rfl

theorem Linked.fuel_addEntry (linked : m.Linked rows cols) (coeff : T) (other : EntryID)
    : other < (m.addEntry r c coeff).fuel ↔ other < m.fuel ∨ other = m.newId := by
  obtain ⟨created, inRow, inCol, allocated, -, rfl, rfl, added⟩ :=
    linked.addEntry_stages (r := r) (c := c) coeff
  have relinked := (MatrixVector.insert_relinked true (m.rows.get r) m.newId created).trans
    (MatrixVector.insert_relinked false (m.columns.get c) m.newId _)
  simp only [added, fuel, relinked.length, allocated.length other]

theorem sameShape_addEntry (coeff : T)
    : SameShape m (m.addEntry r c coeff)
      ∧ (m.addEntry r c coeff).mergeBuffer = m.mergeBuffer :=
  ⟨⟨rfl, rfl, rfl, rfl⟩, rfl⟩

theorem Linked.addEntry (linked : m.Linked rows cols) (rowInRange : r < m.rows.length)
    (colInRange : c < m.columns.length) (vacant : ∀ id ∈ rows r, id ∉ cols c)
    (active : r ∉ m.pool) (coeff : T)
    : (m.addEntry r c coeff).Linked (Function.update rows r (m.newId :: rows r))
        (Function.update cols c (m.newId :: cols c)) := by
  have cells := linked.cell_addEntry (r := r) (c := c) coeff
  have inRange := linked.fuel_addEntry (r := r) (c := c) coeff
  obtain ⟨freshRow, freshCol⟩ := linked.newId_fresh
  obtain ⟨created, inRow, inCol, allocated, content, rowEq, colEq, added⟩ :=
    linked.addEntry_stages (r := r) (c := c) coeff
  have rowRelinked := MatrixVector.insert_relinked true (m.rows.get r) m.newId created
  have colRelinked := MatrixVector.insert_relinked false (m.columns.get c) m.newId inRow
  rw [← rowEq] at rowRelinked
  rw [← colEq] at colRelinked
  have rowSide : Side true inRow (m.rows.set r ((m.rows.get r).insert true m.newId created).1)
      (Function.update rows r (m.newId :: rows r)) := by
    rw [rowEq]
    refine linked.row.insert freshRow rowInRange ?_ allocated.length (by rw [content]; rfl)
      (by rw [content]; rfl)
    intro other differs
    rw [allocated.others other differs]
    exact ⟨rfl, rfl, rfl⟩
  have keptLinks : inRow.links false = created.links false := by
    rw [rowEq]
    exact MatrixVector.insert_links_other true (m.rows.get r) m.newId created
  have keptNext (other : EntryID) : (inRow.get other).next false = (created.get other).next false :=
    congrFun (congrArg Links.next keptLinks) other
  have keptPrev (other : EntryID) : (inRow.get other).prev false = (created.get other).prev false :=
    congrFun (congrArg Links.prev keptLinks) other
  have colSide : Side false inCol
      (m.columns.set c ((m.columns.get c).insert false m.newId inRow).1)
      (Function.update cols c (m.newId :: cols c)) := by
    rw [colEq]
    refine linked.col.insert freshCol colInRange ?_ ?_ ?_ ?_
    · intro other differs
      rw [keptNext, keptPrev, rowRelinked.index, allocated.others other differs]
      exact ⟨rfl, rfl, rfl⟩
    · intro other
      rw [rowRelinked.length, allocated.length]
    · rw [keptPrev, content]
      rfl
    · rw [rowRelinked.index, content]
      rfl
  have rowSide' : Side true inCol
      (m.rows.set r ((m.rows.get r).insert true m.newId created).1)
      (Function.update rows r (m.newId :: rows r)) := by
    refine rowSide.congr colRelinked.length ?_ (colRelinked.index true)
    rw [colEq]
    exact MatrixVector.insert_links_other false (m.columns.get c) m.newId inRow
  have newPlaces (other : EntryID) (differs : other ≠ m.newId)
      : (inCol.get other).rowIndex = (m.entries.get other).rowIndex
        ∧ (inCol.get other).colVar = (m.entries.get other).colVar := by
    have same := congrFun cells other
    rw [Function.update_of_ne differs, added] at same
    exact ⟨congrArg Prod.fst same, congrArg (fun cell => cell.2.1) same⟩
  have newPlace : (inCol.get m.newId).rowIndex = some r ∧ (inCol.get m.newId).colVar = some c := by
    have same := congrFun cells m.newId
    rw [Function.update_self, added] at same
    exact ⟨congrArg Prod.fst same, congrArg (fun cell => cell.2.1) same⟩
  have freedEq : inCol.freedEntries = created.freedEntries := colRelinked.freed.trans rowRelinked.freed
  have lengthEq : inCol.entries.length = created.entries.length :=
    colRelinked.length.trans rowRelinked.length
  have count := allocated.count
  have inUse := linked.inUse
  have size := linked.size
  rw [added]
  constructor
  · exact rowSide'
  · exact colSide
  · intro other below
    by_cases isNew : other = m.newId
    · simp [isNew, newPlace.1, newPlace.2]
    · have wasBelow : other < m.entries.entries.length := by
        rw [added] at inRange
        exact ((inRange other).mp below).resolve_right isNew
      simp only [newPlaces other isNew]
      exact linked.blank wasBelow
  · intro other
    simp only [freedEq, lengthEq, allocated.freed, allocated.length]
    by_cases isNew : other = m.newId
    · simp [isNew, newPlace.1]
    · simp [isNew, newPlaces other isNew, linked.freed other]
  · simp only [freedEq]
    exact allocated.nodup
  · intro row col first second inFirst inSecond
    simp only [mem_update_cons] at inFirst inSecond
    exact linked.unique_cons freshRow freshCol vacant inFirst inSecond
  · simp only [freedEq, lengthEq]
    omega
  · simp only [freedEq, lengthEq, colRelinked.size, rowRelinked.size, allocated.size]
    omega
  · exact linked.poolNodup
  · intro row pooled
    have differs : row ≠ r := fun same => active (same ▸ pooled)
    rw [Function.update_of_ne differs]
    exact linked.pool pooled

end Adding

-- Removing an entry

/-- The entry is blank and its neighbours on both sides are joined. -/
structure Unlinked (v v' : MatrixEntryVector T) (id : EntryID) : Prop where
  length : v'.entries.length = v.entries.length
  freed : v'.freedEntries = v.freedEntries
  size : v'.size = v.size
  links (side : Bool) : v'.links side = (v.links side).remove id
  others (side : Bool) (other : EntryID) (differs : other ≠ id)
    : (v'.get other).index side = (v.get other).index side
  blank (side : Bool) : (v'.get id).index side = none
  coefficient (other : EntryID) : (v'.get other).coefficient = (v.get other).coefficient

/-- A list after its entry `id` is taken out. -/
structure Shortened (side : Bool) (vec vec' : MatrixVector) (es : MatrixEntryVector T)
    (id : EntryID) : Prop where
  head : vec'.head = if vec.head = some id then (es.get id).next side else vec.head
  size : vec'.size = vec.size - 1

/-- The steps of `removeEntry`: out of the row list, out of the column list, marked blank. -/
theorem removeEntry_stages (rowEq : (m.entries.get id).rowIndex = some r)
    (colEq : (m.entries.get id).colVar = some c)
    : ∃ rowVec colVec es', Unlinked m.entries es' id
      ∧ Shortened true (m.rows.get r) rowVec m.entries id
      ∧ Shortened false (m.columns.get c) colVec m.entries id
      ∧ m.removeEntry id = some { m with
          entriesInUse := m.entriesInUse - 1
          rows := m.rows.set r rowVec
          columns := m.columns.set c colVec
          entries := es'.freeEntry id } := by
  have rowRelinked := MatrixVector.remove_relinked true (m.rows.get r) id m.entries
  have rowLinks := MatrixVector.remove_links true (m.rows.get r) id m.entries
  have rowKept := MatrixVector.remove_links_other true (m.rows.get r) id m.entries
  let inRow := (m.rows.get r).remove true id m.entries
  let inCol := (m.columns.get c).remove false id inRow.2
  refine ⟨inRow.1, inCol.1, inCol.2.set id (inCol.2.get id).markBlank, ?_, ⟨rfl, rfl⟩, ?_, ?_⟩
  rotate_left 2
  · simp only [Matrix.removeEntry, rowEq, colEq, Option.bind_eq_bind, Option.bind_some]
    rfl
  · have colRelinked := MatrixVector.remove_relinked false (m.columns.get c) id inRow.2
    have colLinks := MatrixVector.remove_links false (m.columns.get c) id inRow.2
    have colKept := MatrixVector.remove_links_other false (m.columns.get c) id inRow.2
    have relinked := rowRelinked.trans colRelinked
    have blankLinks (side : Bool)
        : (inCol.2.set id (inCol.2.get id).markBlank).links side = inCol.2.links side := by
      simp only [MatrixEntryVector.links, MatrixEntryVector.get_set]
      congr 1 <;> funext other <;> by_cases same : other = id <;> simp [same] <;> rfl
    refine ⟨relinked.length, relinked.freed, relinked.size, ?_, ?_, ?_, ?_⟩
    · intro side
      rw [blankLinks]
      cases side with
      | true => exact colKept.trans rowLinks
      | false =>
          rw [colLinks]
          exact congrArg (fun links => Links.remove links id) rowKept
    · intro side other differs
      rw [MatrixEntryVector.get_set, if_neg differs, relinked.index]
    · intro side
      rw [MatrixEntryVector.get_set, if_pos rfl]
      cases side <;> rfl
    · intro other
      rw [MatrixEntryVector.get_set]
      split
      · rename_i same
        rw [same]
        exact relinked.coefficient id
      · exact relinked.coefficient other
  · have sameNext : ((((m.rows.get r).remove true id m.entries).2.get id).next false)
        = (m.entries.get id).next false := congrFun (congrArg Links.next rowKept) id
    refine ⟨?_, rfl⟩
    rw [← sameNext]
    rfl

/-- The outcome of removing an entry of row `r` and column `c`. -/
structure Removed (m m' : Matrix T) (rows : RowIndex → List EntryID)
    (cols : ArithVar → List EntryID) (r : RowIndex) (c : ArithVar) (id : EntryID) : Prop where
  linked : m'.Linked (Function.update rows r ((rows r).erase id))
    (Function.update cols c ((cols c).erase id))
  cell : m'.cell = Function.update m.cell id (none, none, (m.entries.get id).coefficient)
  fuel : m'.fuel = m.fuel
  shape : SameShape m m'
  mergeBuffer : m'.mergeBuffer = m.mergeBuffer
  next : m'.nextInRow id = m.nextInRow id

theorem mem_of_mem_update_erase {lists : Nat → List EntryID} {k j : Nat} {x y : EntryID}
    (member : y ∈ Function.update lists k ((lists k).erase x) j)
    : y ∈ lists j := by
  by_cases same : j = k
  · subst same
    rw [Function.update_self] at member
    exact List.mem_of_mem_erase member
  · rwa [Function.update_of_ne same] at member

theorem mem_update_erase_of_ne {lists : Nat → List EntryID} {k j : Nat} {x y : EntryID}
    (member : y ∈ lists j) (differs : y ≠ x)
    : y ∈ Function.update lists k ((lists k).erase x) j := by
  by_cases same : j = k
  · subst same
    rw [Function.update_self]
    exact (List.mem_erase_of_ne differs).mpr member
  · rwa [Function.update_of_ne same]

/-- Removing an entry takes it out of the list of its row and of its column, and leaves the others as they
are.
-/
theorem Linked.removeEntry (linked : m.Linked rows cols) (inRow : id ∈ rows r)
    (inCol : id ∈ cols c)
    : ∃ m', m.removeEntry id = some m' ∧ Removed m m' rows cols r c id := by
  obtain ⟨below, rowEq⟩ := linked.mem_row.mp inRow
  obtain ⟨-, colEq⟩ := linked.mem_col.mp inCol
  obtain ⟨rowVec, colVec, es', unlinked, rowShort, colShort, ran⟩ :=
    removeEntry_stages rowEq colEq
  have rowSide := linked.row.remove inRow rowShort.head rowShort.size unlinked.length
    (unlinked.links true) (unlinked.others true) (unlinked.blank true)
  have rowSide' : Side true (es'.freeEntry id) _ _ := rowSide.congr rfl rfl (fun _ => rfl)
  have colSide := linked.col.remove inCol colShort.head colShort.size unlinked.length
    (unlinked.links false) (unlinked.others false) (unlinked.blank false)
  have colSide' : Side false (es'.freeEntry id) _ _ := colSide.congr rfl rfl (fun _ => rfl)
  have freedEq : (es'.freeEntry id).freedEntries = m.entries.freedEntries ++ [id] := by
    simp [MatrixEntryVector.freeEntry, unlinked.freed]
  have notFreed : id ∉ m.entries.freedEntries := by
    intro member
    simp [((linked.freed id).mp member).2] at rowEq
  have inUse := linked.inUse
  have size := linked.size
  have rowBlank : (es'.get id).rowIndex = none := unlinked.blank true
  have colBlank : (es'.get id).colVar = none := unlinked.blank false
  -- The freed entries and this one are all in the vector.
  have counted : m.entries.freedEntries.length < m.entries.entries.length := by
    have subset : (id :: m.entries.freedEntries).Subset (List.range m.entries.entries.length) := by
      intro other member
      rcases List.mem_cons.mp member with same | freed
      · exact List.mem_range.mpr (same ▸ below)
      · exact List.mem_range.mpr ((linked.freed other).mp freed).1
    have counted := (List.nodup_cons.mpr ⟨notFreed, linked.freedNodup⟩).length_le_of_subset subset
    rw [List.length_cons, List.length_range] at counted
    exact Nat.lt_of_succ_le counted
  refine ⟨_, ran, ⟨rowSide', colSide', ?_, ?_, ?_, ?_, ?_, ?_, linked.poolNodup, ?_⟩, ?_,
    unlinked.length, ⟨rfl, rfl, rfl, rfl⟩, rfl, ?_⟩
  · intro other inRange
    by_cases same : other = id
    · subst same
      exact ⟨fun _ => colBlank, fun _ => rowBlank⟩
    · have rowSame : (es'.get other).rowIndex = _ := unlinked.others true other same
      have colSame : (es'.get other).colVar = _ := unlinked.others false other same
      exact rowSame ▸ colSame ▸ linked.blank (unlinked.length ▸ inRange)
  · intro other
    simp only [freedEq, List.mem_append, List.mem_singleton, linked.freed]
    by_cases same : other = id
    · subst same
      have inRange : other < es'.entries.length := unlinked.length ▸ below
      simp only [or_true, true_iff]
      exact ⟨inRange, rowBlank⟩
    · have rowSame : (es'.get other).rowIndex = _ := unlinked.others true other same
      simp only [same, or_false]
      exact iff_of_eq (congrArg₂ And (by rw [← unlinked.length]; rfl)
        (congrArg (· = none) rowSame.symm))
  · rw [freedEq]
    exact List.Nodup.append linked.freedNodup (by simp) (by simpa using notFreed)
  · intro row col first second inFirst inSecond
    exact linked.unique ⟨mem_of_mem_update_erase inFirst.1, mem_of_mem_update_erase inFirst.2⟩
      ⟨mem_of_mem_update_erase inSecond.1, mem_of_mem_update_erase inSecond.2⟩
  · simp only [freedEq, List.length_append, List.length_singleton]
    have lengthEq : (es'.freeEntry id).entries.length = m.entries.entries.length := unlinked.length
    omega
  · simp only [freedEq, List.length_append, List.length_singleton]
    have lengthEq : (es'.freeEntry id).entries.length = m.entries.entries.length := unlinked.length
    have sizeEq : (es'.freeEntry id).size = m.entries.size - 1 := by
      simp [MatrixEntryVector.freeEntry, unlinked.size]
    omega
  · intro row pooled
    obtain ⟨inRange, isEmpty⟩ := linked.pool pooled
    have differs : row ≠ r := by
      intro same
      rw [← same, isEmpty] at inRow
      simp at inRow
    rw [Function.update_of_ne differs]
    exact ⟨inRange, isEmpty⟩
  · funext other
    by_cases same : other = id
    · subst same
      rw [Function.update_self]
      exact congrArg₂ Prod.mk rowBlank (congrArg₂ Prod.mk colBlank (unlinked.coefficient other))
    · rw [Function.update_of_ne same]
      exact congrArg₂ Prod.mk (unlinked.others true other same)
        (congrArg₂ Prod.mk (unlinked.others false other same) (unlinked.coefficient other))
  · have kept := (linked.row.chain r).remove_next_self (linked.row.nodup r) inRow
    rw [← unlinked.links true] at kept
    exact kept

-- Coefficients

/-- The entry of a row and a column. -/
def entryAt (m : Matrix T) (r : RowIndex) (c : ArithVar) : Option EntryID :=
  (List.range m.fuel).find? fun id =>
    (m.entries.get id).rowIndex = some r ∧ (m.entries.get id).colVar = some c

def coeffAt [Zero T] (m : Matrix T) (r : RowIndex) (c : ArithVar) : T :=
  ((m.entryAt r c).map fun id => (m.entries.get id).coefficient).getD 0

/-- No stored coefficient is zero. -/
def Nonzero [Zero T] (m : Matrix T) : Prop :=
  ∀ id < m.fuel, (m.entries.get id).rowIndex ≠ none → (m.entries.get id).coefficient ≠ 0

theorem Linked.entryAt_eq_some (linked : m.Linked rows cols)
    : m.entryAt r c = some id ↔ id ∈ rows r ∧ id ∈ cols c := by
  constructor
  · intro found
    have inRange := List.mem_range.mp (List.mem_of_find?_eq_some found)
    have placed := List.find?_some found
    simp only [decide_eq_true_eq] at placed
    exact ⟨linked.mem_row.mpr ⟨inRange, placed.1⟩, linked.mem_col.mpr ⟨inRange, placed.2⟩⟩
  · intro member
    obtain ⟨inRange, inRow⟩ := linked.mem_row.mp member.1
    obtain ⟨-, inCol⟩ := linked.mem_col.mp member.2
    cases found : m.entryAt r c with
    | none =>
        have missed := List.find?_eq_none.mp found id (List.mem_range.mpr inRange)
        simp [inRow, inCol] at missed
    | some other =>
        have inRange' := List.mem_range.mp (List.mem_of_find?_eq_some found)
        have placed := List.find?_some found
        simp only [decide_eq_true_eq] at placed
        have member' : other ∈ rows r ∧ other ∈ cols c :=
          ⟨linked.mem_row.mpr ⟨inRange', placed.1⟩, linked.mem_col.mpr ⟨inRange', placed.2⟩⟩
        rw [linked.unique member' member]

theorem Linked.entryAt_eq_none (linked : m.Linked rows cols)
    : m.entryAt r c = none ↔ ∀ id ∈ rows r, id ∉ cols c := by
  rw [Option.eq_none_iff_forall_ne_some]
  simp [linked.entryAt_eq_some]

/-- Entries that say the same lie at the same places. -/
theorem entryAt_congr {m' : Matrix T} (fuel : m'.fuel = m.fuel)
    (same : ∀ id, (m'.entries.get id).rowIndex = (m.entries.get id).rowIndex
      ∧ (m'.entries.get id).colVar = (m.entries.get id).colVar)
    : m'.entryAt r c = m.entryAt r c := by
  simp only [entryAt, fuel, same]

section Coefficients

variable [Zero T]

theorem coeffAt_of_entryAt (found : m.entryAt r c = some id)
    : m.coeffAt r c = (m.entries.get id).coefficient := by
  simp [coeffAt, found]

theorem coeffAt_of_vacant (vacant : m.entryAt r c = none) : m.coeffAt r c = 0 := by
  simp [coeffAt, vacant]

theorem coeffAt_of_entries {m' : Matrix T} (same : m'.entries = m.entries) (r : RowIndex)
    (c : ArithVar)
    : m'.coeffAt r c = m.coeffAt r c := by
  simp only [coeffAt, entryAt, fuel, same]

theorem nonzero_of_entries {m' : Matrix T} (same : m'.entries = m.entries) (nonzero : m.Nonzero)
    : m'.Nonzero := by
  simpa only [Nonzero, fuel, same] using nonzero

theorem Linked.coeffAt_ne_zero (linked : m.Linked rows cols) (nonzero : m.Nonzero)
    : m.coeffAt r c ≠ 0 ↔ ∃ id, id ∈ rows r ∧ id ∈ cols c := by
  constructor
  · intro differs
    cases found : m.entryAt r c with
    | none => exact absurd (coeffAt_of_vacant found) differs
    | some id => exact ⟨id, linked.entryAt_eq_some.mp found⟩
  · rintro ⟨id, member⟩
    obtain ⟨inRange, placed⟩ := linked.mem_row.mp member.1
    rw [coeffAt_of_entryAt (linked.entryAt_eq_some.mpr member)]
    exact nonzero id inRange (by simp [placed])

theorem Linked.entryAt_addEntry (linked : m.Linked rows cols) (rowInRange : r < m.rows.length)
    (colInRange : c < m.columns.length) (vacant : m.entryAt r c = none) (active : r ∉ m.pool)
    (coeff : T) (r' : RowIndex) (c' : ArithVar)
    : (m.addEntry r c coeff).entryAt r' c'
      = if r' = r ∧ c' = c then some m.newId else m.entryAt r' c' := by
  have added := linked.addEntry rowInRange colInRange (linked.entryAt_eq_none.mp vacant) active coeff
  obtain ⟨freshRow, freshCol⟩ := linked.newId_fresh
  apply Option.ext
  intro id
  rw [added.entryAt_eq_some, mem_update_cons, mem_update_cons]
  by_cases here : r' = r ∧ c' = c
  · obtain ⟨rfl, rfl⟩ := here
    simp only [and_self, and_true, if_true, Option.some.injEq]
    constructor
    · rintro ⟨inRow | isNew, inCol | isNew'⟩
      · exact absurd inCol (linked.entryAt_eq_none.mp vacant id inRow)
      · exact isNew'.symm
      · exact isNew.symm
      · exact isNew.symm
    · rintro rfl
      exact ⟨Or.inr rfl, Or.inr rfl⟩
  · rw [if_neg here, linked.entryAt_eq_some]
    constructor
    · rintro ⟨inRow | ⟨rfl, sameRow⟩, inCol | ⟨isNew, sameCol⟩⟩
      · exact ⟨inRow, inCol⟩
      · exact absurd (isNew ▸ inRow) (freshRow r')
      · exact absurd inCol (freshCol c')
      · exact absurd ⟨sameRow, sameCol⟩ here
    · rintro ⟨inRow, inCol⟩
      exact ⟨Or.inl inRow, Or.inl inCol⟩

/-- A coefficient stays when its entry does. -/
theorem coeffAt_congr {m' : Matrix T} (entry : m'.entryAt r c = m.entryAt r c)
    (same : ∀ id, m.entryAt r c = some id
      → (m'.entries.get id).coefficient = (m.entries.get id).coefficient)
    : m'.coeffAt r c = m.coeffAt r c := by
  cases found : m.entryAt r c with
  | none => rw [coeffAt_of_vacant found, coeffAt_of_vacant (entry.trans found)]
  | some id =>
      rw [coeffAt_of_entryAt found, coeffAt_of_entryAt (entry.trans found)]
      exact same id found

theorem Linked.coeffAt_addEntry (linked : m.Linked rows cols) (rowInRange : r < m.rows.length)
    (colInRange : c < m.columns.length) (vacant : m.entryAt r c = none) (active : r ∉ m.pool)
    (coeff : T) (r' : RowIndex) (c' : ArithVar)
    : (m.addEntry r c coeff).coeffAt r' c'
      = if r' = r ∧ c' = c then coeff else m.coeffAt r' c' := by
  have found := linked.entryAt_addEntry rowInRange colInRange vacant active coeff r' c'
  have cells := linked.cell_addEntry (r := r) (c := c) coeff
  obtain ⟨freshRow, -⟩ := linked.newId_fresh
  by_cases here : r' = r ∧ c' = c
  · rw [if_pos here] at found ⊢
    rw [coeffAt_of_entryAt found]
    have new := congrFun cells m.newId
    rw [Function.update_self] at new
    exact congrArg (fun cell => cell.2.2) new
  · rw [if_neg here] at found ⊢
    refine coeffAt_congr found (fun id old => ?_)
    have differs : id ≠ m.newId := by
      rintro rfl
      exact freshRow r' (linked.entryAt_eq_some.mp old).1
    have same := congrFun cells id
    rw [Function.update_of_ne differs] at same
    exact congrArg (fun cell => cell.2.2) same

theorem Linked.nonzero_addEntry (linked : m.Linked rows cols) (nonzero : m.Nonzero) {coeff : T}
    (differs : coeff ≠ 0)
    : (m.addEntry r c coeff).Nonzero := by
  have cells := linked.cell_addEntry (r := r) (c := c) coeff
  intro id inRange used
  have cellEq := congrFun cells id
  by_cases isNew : id = m.newId
  · rw [isNew, Function.update_self] at cellEq
    rw [isNew]
    have coeffEq : ((m.addEntry r c coeff).entries.get m.newId).coefficient = coeff :=
      congrArg (fun cell => cell.2.2) cellEq
    rwa [coeffEq]
  · rw [Function.update_of_ne isNew] at cellEq
    have coeffEq : ((m.addEntry r c coeff).entries.get id).coefficient
        = (m.entries.get id).coefficient := congrArg (fun cell => cell.2.2) cellEq
    have rowEq : ((m.addEntry r c coeff).entries.get id).rowIndex = (m.entries.get id).rowIndex :=
      congrArg Prod.fst cellEq
    rw [rowEq] at used
    rw [coeffEq]
    exact nonzero id (((linked.fuel_addEntry coeff id).mp inRange).resolve_right isNew) used

variable {m' : Matrix T}

omit [Zero T] in
/-- Where an entry was removed there is none, since a row and a column have one entry in common at most. -/
theorem Removed.entryAt (removed : Removed m m' rows cols r c id) (linked : m.Linked rows cols)
    (inRow : id ∈ rows r) (inCol : id ∈ cols c) (r' : RowIndex) (c' : ArithVar)
    : m'.entryAt r' c' = if r' = r ∧ c' = c then none else m.entryAt r' c' := by
  apply Option.ext
  intro other
  rw [removed.linked.entryAt_eq_some]
  by_cases here : r' = r ∧ c' = c
  · obtain ⟨rfl, rfl⟩ := here
    simp only [Function.update_self, (linked.row.nodup r').mem_erase_iff,
      (linked.col.nodup c').mem_erase_iff, and_self, if_true, reduceCtorEq, iff_false]
    rintro ⟨⟨differs, inRow'⟩, -, inCol'⟩
    exact differs (linked.unique ⟨inRow', inCol'⟩ ⟨inRow, inCol⟩)
  · rw [if_neg here, linked.entryAt_eq_some]
    constructor
    · rintro ⟨inRow', inCol'⟩
      exact ⟨mem_of_mem_update_erase inRow', mem_of_mem_update_erase inCol'⟩
    · rintro ⟨inRow', inCol'⟩
      have differs : other ≠ id := by
        rintro rfl
        exact here ⟨linked.row.eq_of_mem inRow' inRow, linked.col.eq_of_mem inCol' inCol⟩
      exact ⟨mem_update_erase_of_ne inRow' differs, mem_update_erase_of_ne inCol' differs⟩

theorem Removed.coeffAt (removed : Removed m m' rows cols r c id) (linked : m.Linked rows cols)
    (inRow : id ∈ rows r) (inCol : id ∈ cols c) (r' : RowIndex) (c' : ArithVar)
    : m'.coeffAt r' c' = if r' = r ∧ c' = c then 0 else m.coeffAt r' c' := by
  have found := removed.entryAt linked inRow inCol r' c'
  by_cases here : r' = r ∧ c' = c
  · rw [if_pos here] at found ⊢
    exact coeffAt_of_vacant found
  · rw [if_neg here] at found ⊢
    refine coeffAt_congr found (fun other old => ?_)
    have cellEq := congrFun removed.cell other
    have differs : other ≠ id := by
      rintro rfl
      obtain ⟨inRow', inCol'⟩ := linked.entryAt_eq_some.mp old
      exact here ⟨linked.row.eq_of_mem inRow' inRow, linked.col.eq_of_mem inCol' inCol⟩
    rw [Function.update_of_ne differs] at cellEq
    exact congrArg (fun cell => cell.2.2) cellEq

/-- Only the removed coefficient may have been zero. -/
theorem Removed.nonzero (removed : Removed m m' rows cols r c id)
    (nonzero : ∀ other < m.fuel, other ≠ id → (m.entries.get other).rowIndex ≠ none
      → (m.entries.get other).coefficient ≠ 0)
    : m'.Nonzero := by
  intro other inRange used
  have cellEq := congrFun removed.cell other
  by_cases same : other = id
  · subst same
    rw [Function.update_self] at cellEq
    exact absurd (congrArg Prod.fst cellEq) used
  · rw [Function.update_of_ne same] at cellEq
    have coeffEq : (m'.entries.get other).coefficient = (m.entries.get other).coefficient :=
      congrArg (fun cell => cell.2.2) cellEq
    have rowEq : (m'.entries.get other).rowIndex = (m.entries.get other).rowIndex :=
      congrArg Prod.fst cellEq
    rw [rowEq] at used
    rw [coeffEq]
    exact nonzero other (removed.fuel ▸ inRange) same used

omit [Zero T] in
theorem get_setCoefficient (coeff : T) (other : EntryID)
    : (m.setCoefficient id coeff).entries.get other
      = if other = id then { m.entries.get id with coefficient := coeff }
        else m.entries.get other :=
  MatrixEntryVector.get_set m.entries id other _

omit [Zero T] in
/-- Only the coefficient of the entry changes. -/
theorem setCoefficient_places (m : Matrix T) (id : EntryID) (coeff : T) (other : EntryID)
    : ((m.setCoefficient id coeff).entries.get other).rowIndex = (m.entries.get other).rowIndex
      ∧ ((m.setCoefficient id coeff).entries.get other).colVar = (m.entries.get other).colVar := by
  rw [get_setCoefficient]
  split <;> simp_all

omit [Zero T] in
theorem Linked.setCoefficient (linked : m.Linked rows cols) (id : EntryID) (coeff : T)
    : (m.setCoefficient id coeff).Linked rows cols := by
  have places := setCoefficient_places m id coeff
  have links (side : Bool)
      : (m.setCoefficient id coeff).entries.links side = m.entries.links side := by
    simp only [MatrixEntryVector.links, get_setCoefficient]
    congr 1 <;> funext other <;> by_cases same : other = id <;> simp [same] <;> rfl
  have rowSide : Side true (m.setCoefficient id coeff).entries m.rows rows :=
    linked.row.congr rfl (links true) (fun other => (places other).1)
  have colSide : Side false (m.setCoefficient id coeff).entries m.columns cols :=
    linked.col.congr rfl (links false) (fun other => (places other).2)
  refine ⟨rowSide, colSide, ?_, ?_, linked.freedNodup, linked.unique, linked.inUse, linked.size,
    linked.poolNodup, linked.pool⟩
  · intro other inRange
    rw [(places other).1, (places other).2]
    exact linked.blank inRange
  · intro other
    rw [(places other).1]
    exact linked.freed other

omit [Zero T] in
theorem entryAt_setCoefficient (m : Matrix T) (id : EntryID) (coeff : T) (r : RowIndex)
    (c : ArithVar)
    : (m.setCoefficient id coeff).entryAt r c = m.entryAt r c :=
  entryAt_congr rfl (setCoefficient_places m id coeff)

theorem Linked.coeffAt_setCoefficient (linked : m.Linked rows cols) (inRow : id ∈ rows r)
    (inCol : id ∈ cols c) (coeff : T) (r' : RowIndex) (c' : ArithVar)
    : (m.setCoefficient id coeff).coeffAt r' c'
      = if r' = r ∧ c' = c then coeff else m.coeffAt r' c' := by
  have found := entryAt_setCoefficient m id coeff r' c'
  by_cases here : r' = r ∧ c' = c
  · obtain ⟨rfl, rfl⟩ := here
    rw [linked.entryAt_eq_some.mpr ⟨inRow, inCol⟩] at found
    rw [if_pos ⟨rfl, rfl⟩, coeffAt_of_entryAt found, get_setCoefficient, if_pos rfl]
  · rw [if_neg here]
    refine coeffAt_congr found (fun other old => ?_)
    have differs : other ≠ id := by
      rintro rfl
      obtain ⟨inRow', inCol'⟩ := linked.entryAt_eq_some.mp old
      exact here ⟨linked.row.eq_of_mem inRow' inRow, linked.col.eq_of_mem inCol' inCol⟩
    rw [get_setCoefficient, if_neg differs]

omit [Zero T] in
/-- The merge buffer has no part in the lists. -/
theorem Linked.withBuffer (linked : m.Linked rows cols)
    (buffer : ArithVar → Option (EntryID × Bool)) (rid : Option RowIndex)
    : ({ m with mergeBuffer := buffer, rowInMergeBuffer := rid } : Matrix T).Linked rows cols :=
  ⟨linked.row, linked.col, linked.blank, linked.freed, linked.freedNodup, linked.unique,
    linked.inUse, linked.size, linked.poolNodup, linked.pool⟩

end Coefficients

end Matrix

end Ava6.Arith.Linear

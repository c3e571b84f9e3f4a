import Ava6.Arith.Linear.RowAddition

/-! The other operations on whole rows: loading a row into the merge buffer, scaling, removing and
adding a row, and looking up an entry.
-/

namespace Ava6.Arith.Linear

open Library.LinkedList

variable {T : Type}

namespace Matrix

variable {m m' : Matrix T} {rows rows' : RowIndex → List EntryID}
  {cols cols' : ArithVar → List EntryID} {r rid : RowIndex} {c : ArithVar} {id : EntryID}

/-- The entry after the passed ones lies in a column of its own. -/
theorem Linked.not_passed (linked : m.Linked rows cols) {passed ahead : List EntryID}
    (split : rows r = passed ++ id :: ahead) (inCol : id ∈ cols c)
    : ¬Passed cols passed c := by
  rintro ⟨other, member, otherCol⟩
  have same := linked.unique (r := r) ⟨by simp [split, member], otherCol⟩
    ⟨by simp [split], inCol⟩
  have distinct := linked.row.nodup r
  rw [split] at distinct
  exact (List.nodup_append.mp distinct).2.2 other member id (by simp) same

theorem not_passed_nil : ¬Passed cols [] c := by
  rintro ⟨id, member, -⟩
  simp at member

/-- The buffer is empty and no row is in it. -/
def BufferClear (m : Matrix T) : Prop := (∀ c, m.mergeBuffer c = none) ∧ m.rowInMergeBuffer = none

theorem bufferClear_clearBuffer : m.clearBuffer.BufferClear := ⟨fun _ => rfl, rfl⟩

/-- State of the loop that loads a row. -/
structure Loading (m : Matrix T) (rows : RowIndex → List EntryID) (cols : ArithVar → List EntryID)
    (rid : RowIndex) (passed ahead : List EntryID) (m' : Matrix T) : Prop where
  same : m' = { m with mergeBuffer := m'.mergeBuffer }
  split : rows rid = passed ++ ahead
  loaded {c : ArithVar} (wasPassed : Passed cols passed c)
    : m'.mergeBuffer c = (m.entryAt rid c).map (·, false)
  vacant {c : ArithVar} (notPassed : ¬Passed cols passed c) : m'.mergeBuffer c = none

/-- Loading an entry buffers its coefficient, and the invariant goes on to the next entry. -/
theorem Loading.step (linked : m.Linked rows cols) {passed ahead : List EntryID}
    (loading : Loading m rows cols rid passed (id :: ahead) m')
    : ∃ m'', m'.loadEntry id = some m'' ∧ m''.nextInRow id = ahead.head?
      ∧ Loading m rows cols rid (passed ++ [id]) ahead m'' := by
  have inRow : id ∈ rows rid := by simp [loading.split]
  obtain ⟨c, inCol, colEq⟩ := linked.col_of_row inRow
  have entriesEq : m'.entries = m.entries := by rw [loading.same]
  have passedIff := passed_append passed inCol (fun c' other => linked.col.eq_of_mem other inCol)
  have next : m.nextInRow id = ahead.head? := by
    have chain := linked.row.chain rid
    rw [loading.split] at chain
    exact chain.next_eq
  refine ⟨{ m' with mergeBuffer := Function.update m'.mergeBuffer c (some (id, false)) }, ?_, ?_,
    ?_, ?_, ?_, ?_⟩
  · simp [loadEntry, entriesEq, colEq]
  · simpa [nextInRow, entriesEq] using next
  · rw [loading.same]
  · rw [loading.split, List.append_assoc]
    rfl
  · intro c' wasPassed
    by_cases same : c' = c
    · subst same
      simp [linked.entryAt_eq_some.mpr ⟨inRow, inCol⟩]
    · rw [passedIff] at wasPassed
      simpa [same] using loading.loaded (wasPassed.resolve_right same)
  · intro c' notPassed
    rw [passedIff, not_or] at notPassed
    simpa [notPassed.2] using loading.vacant notPassed.1

theorem Linked.loadRowIntoBuffer [Ring T] (linked : m.Linked rows cols) (nonzero : m.Nonzero)
    (clear : m.BufferClear) (rid : RowIndex)
    : ∃ m', m.loadRowIntoBuffer rid = some m' ∧ Buffered m' rows cols rid
      ∧ m' = { m with mergeBuffer := m'.mergeBuffer, rowInMergeBuffer := some rid } := by
  obtain ⟨m', ran, loading⟩ := forEach_of_invariant nextInRow loadEntry
    (Loading m rows cols rid) (fun _ _ _ _ loading => loading.step linked)
    ⟨rfl, rfl, fun wasPassed => absurd wasPassed not_passed_nil, fun _ => clear.1 _⟩
    linked.row_length
  rw [← (linked.row.chain rid).head] at ran
  have sameEntries : m'.entries = m.entries := by rw [loading.same]
  refine ⟨{ m' with rowInMergeBuffer := some rid }, ?_, ⟨?_, ?_, ?_, rfl⟩, ?_⟩
  · simp [Matrix.loadRowIntoBuffer, ran]
  · rw [loading.same]
    exact linked.withBuffer _ _
  · intro id below placed
    simp only [sameEntries] at placed ⊢
    exact nonzero id (by simpa [fuel, sameEntries] using below) placed
  · intro c
    have entryEq : ({ m' with rowInMergeBuffer := some rid } : Matrix T).entryAt rid c
        = m.entryAt rid c := by
      simp [entryAt, fuel, sameEntries]
    rw [entryEq]
    by_cases wasPassed : Passed cols (rows rid) c
    · exact loading.loaded wasPassed
    · have vacant : m.entryAt rid c = none := by
        simpa using mt (passed_iff_entryAt linked).mpr wasPassed
      rw [vacant]
      exact loading.vacant wasPassed
  · rw [loading.same]

theorem Linked.clearBuffer (linked : m.Linked rows cols) : m.clearBuffer.Linked rows cols :=
  linked.withBuffer _ _

theorem findFrom_eq_find? {before : Option EntryID} {l : List EntryID} {fuel : Nat}
    (chain : Chain (m.entries.links true) before l.head? l) (enough : l.length ≤ fuel)
    : m.findFrom c fuel l.head? = l.find? (fun id => (m.entries.get id).colVar = some c) := by
  induction l generalizing before fuel with
  | nil => cases fuel <;> rfl
  | cons id l ih =>
      cases fuel with
      | zero => simp at enough
      | succ fuel =>
          have next : m.nextInRow id = l.head? := chain.2.2.head
          have tail := chain.2.2
          rw [tail.head] at tail
          by_cases here : (m.entries.get id).colVar = some c
          · simp [findFrom, here]
          · have rest := ih tail (by simpa using enough)
            simp [findFrom, here, next, rest]

theorem Linked.findOnRow (linked : m.Linked rows cols) (found : m.entryAt r c = some id)
    : m.findOnRow r c = some id := by
  obtain ⟨inRow, inCol⟩ := linked.entryAt_eq_some.mp found
  have chain := linked.row.chain r
  have head := chain.head
  rw [head] at chain
  rw [Matrix.findOnRow, head, findFrom_eq_find? chain linked.row_length]
  cases search : (rows r).find? (fun id => (m.entries.get id).colVar = some c) with
  | none =>
      have missed := List.find?_eq_none.mp search id inRow
      simp [(linked.mem_col.mp inCol).2] at missed
  | some other =>
      have otherRow := List.mem_of_find?_eq_some search
      have otherCol := List.find?_some search
      simp only [decide_eq_true_eq] at otherCol
      have below := (linked.mem_row.mp otherRow).1
      rw [linked.unique ⟨otherRow, linked.mem_col.mpr ⟨below, otherCol⟩⟩ ⟨inRow, inCol⟩]

section Scaling

variable [Ring T] [NoZeroDivisors T]

/-- State of the loop that scales a row. -/
structure Scaling (m : Matrix T) (rows : RowIndex → List EntryID) (cols : ArithVar → List EntryID)
    (rid : RowIndex) (mult : T) (passed ahead : List EntryID) (m' : Matrix T) : Prop where
  linked : m'.Linked rows cols
  nonzero : m'.Nonzero
  split : rows rid = passed ++ ahead
  entryAt (r : RowIndex) (c : ArithVar) : m'.entryAt r c = m.entryAt r c
  coeffAt (r : RowIndex) (c : ArithVar)
    : (r = rid ∧ Passed cols passed c → m'.coeffAt r c = m.coeffAt r c * mult)
      ∧ (¬(r = rid ∧ Passed cols passed c) → m'.coeffAt r c = m.coeffAt r c)
  mergeBuffer : m'.mergeBuffer = m.mergeBuffer
  shape : SameShape m m'

/-- Scaling an entry keeps its links, and the invariant goes on to the next entry. -/
theorem Scaling.step {mult : T} (multNe : mult ≠ 0) {passed ahead : List EntryID}
    (scaling : Scaling m rows cols rid mult passed (id :: ahead) m')
    : ∃ m'', m'.multiplyEntry mult id = some m'' ∧ m''.nextInRow id = ahead.head?
      ∧ Scaling m rows cols rid mult (passed ++ [id]) ahead m'' := by
  have linked := scaling.linked
  have inRow : id ∈ rows rid := by simp [scaling.split]
  obtain ⟨c, inCol, -⟩ := linked.col_of_row inRow
  have fresh := linked.not_passed scaling.split inCol
  have passedIff := passed_append passed inCol (fun c' other => linked.col.eq_of_mem other inCol)
  have own : (m'.entries.get id).coefficient = m.coeffAt rid c := by
    rw [← coeffAt_of_entryAt (linked.entryAt_eq_some.mpr ⟨inRow, inCol⟩)]
    exact (scaling.coeffAt rid c).2 (fun both => fresh both.2)
  have scaled := linked.setCoefficient id ((m'.entries.get id).coefficient * mult)
  refine ⟨_, rfl, ?_, scaled, ?_, ?_, ?_, ?_, scaling.mergeBuffer,
    scaling.shape.trans ⟨rfl, rfl, rfl, rfl⟩⟩
  · have chain := scaled.row.chain rid
    rw [scaling.split] at chain
    exact chain.next_eq
  · intro other below placed
    rw [(setCoefficient_places m' id _ other).1] at placed
    have old := scaling.nonzero other below placed
    rw [get_setCoefficient]
    split
    · rename_i same
      rw [same] at old
      exact mul_ne_zero old multNe
    · exact old
  · rw [scaling.split, List.append_assoc]
    rfl
  · intro r c'
    rw [entryAt_setCoefficient]
    exact scaling.entryAt r c'
  · intro r c'
    rw [linked.coeffAt_setCoefficient inRow inCol, passedIff]
    by_cases here : r = rid ∧ c' = c
    · rw [if_pos here, here.1, here.2, own]
      exact ⟨fun _ => rfl, fun elsewhere => absurd ⟨rfl, Or.inr rfl⟩ elsewhere⟩
    · rw [if_neg here]
      refine ⟨fun both => ?_, fun elsewhere => ?_⟩
      · have old := both.2.resolve_right (fun same => here ⟨both.1, same⟩)
        exact (scaling.coeffAt r c').1 ⟨both.1, old⟩
      · exact (scaling.coeffAt r c').2 (fun both => elsewhere ⟨both.1, Or.inl both.2⟩)

/-- The outcome of scaling row `rid`. -/
structure RowScaled (m m' : Matrix T) (rows : RowIndex → List EntryID)
    (cols : ArithVar → List EntryID) (rid : RowIndex) (mult : T) : Prop where
  linked : m'.Linked rows cols
  nonzero : m'.Nonzero
  coeffAt (r : RowIndex) (c : ArithVar)
    : m'.coeffAt r c = if r = rid then m.coeffAt r c * mult else m.coeffAt r c
  mergeBuffer : m'.mergeBuffer = m.mergeBuffer
  shape : SameShape m m'

/-- A row is scaled and the others are not, by the loop lemma with the step below. -/
theorem Linked.multiplyRowByConstant (linked : m.Linked rows cols) (nonzero : m.Nonzero)
    (rid : RowIndex) {mult : T} (multNe : mult ≠ 0)
    : ∃ m', m.multiplyRowByConstant rid mult = some m' ∧ RowScaled m m' rows cols rid mult := by
  obtain ⟨m', ran, scaling⟩ := forEach_of_invariant nextInRow (multiplyEntry mult)
    (Scaling m rows cols rid mult) (fun _ _ _ _ scaling => scaling.step multNe)
    ⟨linked, nonzero, rfl, fun _ _ => rfl,
      fun _ _ => ⟨fun both => absurd both.2 not_passed_nil, fun _ => rfl⟩, rfl, .refl m⟩
    linked.row_length
  rw [← (linked.row.chain rid).head] at ran
  refine ⟨m', ran, scaling.linked, scaling.nonzero, ?_, scaling.mergeBuffer, scaling.shape⟩
  intro r c
  by_cases scaled : r = rid ∧ Passed cols (rows rid) c
  · rw [if_pos scaled.1]
    exact (scaling.coeffAt r c).1 scaled
  · rw [(scaling.coeffAt r c).2 scaled]
    split
    · rename_i same
      subst same
      -- The row has no entry there.
      have vacant : m.entryAt r c = none := by
        simpa using mt (passed_iff_entryAt linked).mpr (fun passed => scaled ⟨rfl, passed⟩)
      rw [coeffAt_of_vacant vacant, zero_mul]
    · rfl

end Scaling

section Removing

variable [Zero T]

/-- State of the loop that removes a row. -/
structure Removing (m : Matrix T) (rid : RowIndex) (ahead : List EntryID) (m' : Matrix T)
    (rows' : RowIndex → List EntryID) (cols' : ArithVar → List EntryID) : Prop where
  linked : m'.Linked rows' cols'
  nonzero : m'.Nonzero
  rowRemoved : rows' rid = ahead
  coeffAt {r : RowIndex} (differs : r ≠ rid) (c : ArithVar) : m'.coeffAt r c = m.coeffAt r c
  mergeBuffer : m'.mergeBuffer = m.mergeBuffer
  shape : SameShape m m'

/-- The freed entry still leads to the next one. -/
theorem Removing.step {ahead : List EntryID}
    (removing : Removing m rid (id :: ahead) m' rows' cols')
    : ∃ m'', m'.removeEntry id = some m'' ∧ m''.nextInRow id = ahead.head?
      ∧ ∃ rows'' cols'', Removing m rid ahead m'' rows'' cols'' := by
  have linked := removing.linked
  have inRow : id ∈ rows' rid := by simp [removing.rowRemoved]
  obtain ⟨c, inCol, -⟩ := linked.col_of_row inRow
  obtain ⟨m'', ran, removed⟩ := linked.removeEntry inRow inCol
  refine ⟨m'', ran, ?_, _, _, removed.linked, ?_, ?_, ?_,
    removed.mergeBuffer.trans removing.mergeBuffer, removing.shape.trans removed.shape⟩
  · rw [removed.next]
    have chain := linked.row.chain rid
    rw [removing.rowRemoved] at chain
    exact chain.next_eq (l := [])
  · exact removed.nonzero (fun other below _ => removing.nonzero other below)
  · rw [Function.update_self, removing.rowRemoved, List.erase_cons_head]
  · intro r differs c'
    rw [removed.coeffAt linked inRow inCol, if_neg (fun both => differs both.1)]
    exact removing.coeffAt differs c'

/-- The outcome of removing row `rid`, which is pooled. -/
structure RowRemoved (m m' : Matrix T) (rows' : RowIndex → List EntryID)
    (cols' : ArithVar → List EntryID) (rid : RowIndex) : Prop where
  linked : m'.Linked rows' cols'
  nonzero : m'.Nonzero
  rowRemoved : rows' rid = []
  coeffAt {r : RowIndex} (differs : r ≠ rid) (c : ArithVar) : m'.coeffAt r c = m.coeffAt r c
  pool : m'.pool = rid :: m.pool
  rowsLength : m'.rows.length = m.rows.length
  columnsLength : m'.columns.length = m.columns.length
  mergeBuffer : m'.mergeBuffer = m.mergeBuffer
  rowInMergeBuffer : m'.rowInMergeBuffer = m.rowInMergeBuffer

/-- Removing a row takes out its entries one by one, and pools its index. -/
theorem Linked.removeRow (linked : m.Linked rows cols) (nonzero : m.Nonzero)
    (inRange : rid < m.rows.length) (active : rid ∉ m.pool)
    : ∃ m' rows' cols', m.removeRow rid = some m' ∧ RowRemoved m m' rows' cols' rid := by
  obtain ⟨m', ran, rows', cols', removing⟩ := forEach_of_invariant nextInRow
    (fun id m => m.removeEntry id)
    (fun _ ahead m' => ∃ rows' cols', Removing m rid ahead m' rows' cols')
    (fun _ _ _ _ ⟨_, _, removing⟩ => removing.step)
    ⟨rows, cols, linked, nonzero, rfl, fun _ _ => rfl, rfl, .refl m⟩ linked.row_length
  rw [← (linked.row.chain rid).head] at ran
  refine ⟨m'.releaseRowIndex rid, rows', cols', ?_, ?_, removing.nonzero, removing.rowRemoved,
    removing.coeffAt, ?_, removing.shape.rows, removing.shape.columns, removing.mergeBuffer,
    removing.shape.rowInMergeBuffer⟩
  · simp [Matrix.removeRow, ran]
  · refine ⟨removing.linked.row, removing.linked.col, removing.linked.blank, removing.linked.freed,
      removing.linked.freedNodup, removing.linked.unique, removing.linked.inUse,
      removing.linked.size, ?_, ?_⟩
    · refine List.nodup_cons.mpr ⟨?_, removing.linked.poolNodup⟩
      rw [removing.shape.pool]
      exact active
    · intro r pooled
      rcases List.mem_cons.mp pooled with same | old
      · rw [same]
        exact ⟨by simpa [releaseRowIndex, removing.shape.rows] using inRange, removing.rowRemoved⟩
      · exact removing.linked.pool old
  · simp [releaseRowIndex, removing.shape.pool]

end Removing

/-- An empty list at the end of the table. -/
theorem side_push {side : Bool} {es : MatrixEntryVector T} {vecs : Table MatrixVector}
    {lists : Nat → List EntryID} (valid : Side side es vecs lists)
    : Side side es (vecs.push .empty) lists ∧ lists vecs.length = [] := by
  have isEmpty : lists vecs.length = [] := by
    cases last : lists vecs.length with
    | nil => rfl
    | cons id l =>
        have bound := valid.bound (k := vecs.length) (show id ∈ _ by simp [last])
        exact absurd bound (Nat.lt_irrefl _)
  refine ⟨⟨?_, ?_, valid.nodup, valid.mem, ?_⟩, isEmpty⟩
  · intro k
    rw [Table.get_push]
    split
    · rename_i isLast
      rw [isLast, isEmpty]
      rfl
    · exact valid.chain k
  · intro k
    rw [Table.get_push]
    split
    · rename_i isLast
      rw [isLast, isEmpty]
      rfl
    · exact valid.size k
  · intro k id member
    exact Nat.lt_succ_of_lt (valid.bound member)

theorem Linked.increaseSize (linked : m.Linked rows cols) : m.increaseSize.Linked rows cols :=
  ⟨linked.row, (side_push linked.col).1, linked.blank, linked.freed, linked.freedNodup,
    linked.unique, linked.inUse, linked.size, linked.poolNodup, linked.pool⟩

/-- A requested row is empty and no longer in the pool. -/
structure Requested (m m' : Matrix T) (rows : RowIndex → List EntryID)
    (cols : ArithVar → List EntryID) (rid : RowIndex) : Prop where
  linked : m'.Linked rows cols
  isEmpty : rows rid = []
  inRange : rid < m'.rows.length
  pool (r : RowIndex) : r ∈ m'.pool ↔ r ∈ m.pool ∧ r ≠ rid
  rowsLength (r : RowIndex) : r < m'.rows.length ↔ r < m.rows.length ∨ r = rid
  was : rid ∈ m.pool ∨ m.rows.length ≤ rid
  entries : m'.entries = m.entries
  columns : m'.columns = m.columns
  mergeBuffer : m'.mergeBuffer = m.mergeBuffer
  rowInMergeBuffer : m'.rowInMergeBuffer = m.rowInMergeBuffer

/-- A requested row is empty, whether it is from the pool or new. -/
theorem Linked.requestRowIndex (linked : m.Linked rows cols)
    : Requested m m.requestRowIndex.2 rows cols m.requestRowIndex.1 := by
  cases pool : m.pool with
  | nil =>
      obtain ⟨pushed, isEmpty⟩ := side_push linked.row
      simp only [Matrix.requestRowIndex, pool]
      refine ⟨⟨pushed, linked.col, linked.blank, linked.freed, linked.freedNodup, linked.unique,
        linked.inUse, linked.size, by simp, by simp⟩, isEmpty, ?_, by simp [pool], ?_,
        Or.inr le_rfl, rfl, rfl, rfl, rfl⟩
      · exact Nat.lt_succ_self _
      · intro r
        exact Nat.lt_succ_iff_lt_or_eq
  | cons first rest =>
      have distinct := linked.poolNodup
      rw [pool] at distinct
      obtain ⟨absent, restDistinct⟩ := List.nodup_cons.mp distinct
      obtain ⟨inRange, isEmpty⟩ := linked.pool (r := first) (by simp [pool])
      simp only [Matrix.requestRowIndex, pool]
      refine ⟨⟨linked.row, linked.col, linked.blank, linked.freed, linked.freedNodup,
        linked.unique, linked.inUse, linked.size, restDistinct, ?_⟩, isEmpty, inRange, ?_, ?_,
        Or.inl (by simp [pool]), rfl, rfl, rfl, rfl⟩
      · intro r pooled
        exact linked.pool (by simp [pool, show r ∈ rest from pooled])
      · intro r
        rw [pool, List.mem_cons]
        constructor
        · intro pooled
          exact ⟨Or.inr pooled, fun same => absent (same ▸ pooled)⟩
        · rintro ⟨same | pooled, differs⟩
          · exact absurd same differs
          · exact pooled
      · intro r
        constructor
        · exact Or.inl
        · rintro (below | rfl)
          · exact below
          · exact inRange

end Matrix

end Ava6.Arith.Linear

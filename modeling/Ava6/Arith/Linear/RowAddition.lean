import Mathlib.Algebra.Ring.Basic
import Mathlib.Tactic.NoncommRing
import Ava6.Arith.Linear.MatrixEntries

/-! Adding a multiple of the buffered row to another row. The row list is changed while it is
followed: entries that become zero are removed and entries of the buffered row without partner
are filled in.
-/

namespace Ava6.Arith.Linear

open Library.LinkedList

variable {T : Type} [Ring T]

namespace Matrix

variable {m m' : Matrix T} {rows rows' : RowIndex → List EntryID}
  {cols cols' : ArithVar → List EntryID} {target source r : RowIndex} {c : ArithVar}
  {id : EntryID} {mult : T} {passed ahead : List EntryID}

variable {m₀ : Matrix T} {rows₀ : RowIndex → List EntryID} {cols₀ : ArithVar → List EntryID}

/-- The coefficient that row `target` gets in column `c`. -/
def sumAt (m : Matrix T) (target source : RowIndex) (mult : T) (c : ArithVar) : T :=
  m.coeffAt target c + mult * m.coeffAt source c

/-- One of the entries lies in the column. -/
def Passed (cols : ArithVar → List EntryID) (passed : List EntryID) (c : ArithVar) : Prop :=
  ∃ id ∈ passed, id ∈ cols c

theorem passed_append (passed : List EntryID) {cols : ArithVar → List EntryID}
    (inCol : id ∈ cols c) (single : ∀ c', id ∈ cols c' → c' = c) (c' : ArithVar)
    : Passed cols (passed ++ [id]) c' ↔ Passed cols passed c' ∨ c' = c := by
  constructor
  · rintro ⟨other, member, inCol'⟩
    rcases List.mem_append.mp member with old | new
    · exact Or.inl ⟨other, old, inCol'⟩
    · rw [List.mem_singleton.mp new] at inCol'
      exact Or.inr (single c' inCol')
  · rintro (⟨other, member, inCol'⟩ | rfl)
    · exact ⟨other, List.mem_append_left _ member, inCol'⟩
    · exact ⟨id, by simp, inCol⟩

omit [Ring T] in
/-- No entry passed lies in the column of the one ahead, which is in the same row. -/
theorem not_passed (linked : m.Linked rows cols) (split : rows r = passed ++ id :: ahead) (inCol : id ∈ cols c)
    : ¬Passed cols passed c := by
  rintro ⟨other, member, otherCol⟩
  have same := linked.unique (r := r) ⟨by simp [split, member], otherCol⟩ ⟨by simp [split], inCol⟩
  have distinct := linked.row.nodup r
  rw [split] at distinct
  exact (List.nodup_append.mp distinct).2.2 other member id (by simp) same

section RowPass

variable [LinearOrder T]

-- One entry of the row

/-- The buffered row was added in column `c`, where row `target` has the entry `id`. -/
structure Combined (m m' : Matrix T) (rows rows' : RowIndex → List EntryID)
    (cols cols' : ArithVar → List EntryID) (target source : RowIndex) (mult : T) (c : ArithVar)
    (id : EntryID) : Prop where
  linked : m'.Linked rows' cols'
  nonzero : m'.Nonzero
  rowsEq : rows' = if m.sumAt target source mult c = 0
    then Function.update rows target ((rows target).erase id) else rows
  colsEq : cols' = if m.sumAt target source mult c = 0
    then Function.update cols c ((cols c).erase id) else cols
  entryAt (r' : RowIndex) (c' : ArithVar) (elsewhere : ¬(r' = target ∧ c' = c))
    : m'.entryAt r' c' = m.entryAt r' c'
  coeffAt (r' : RowIndex) (c' : ArithVar)
    : m'.coeffAt r' c'
      = if r' = target ∧ c' = c then m.sumAt target source mult c else m.coeffAt r' c'
  mergeBuffer : m'.mergeBuffer
    = Function.update m.mergeBuffer c ((m.entryAt source c).map (·, true))
  shape : SameShape m m'

/-- What is buffered for a column is added to the entry there, which is removed where the sum is zero. -/
theorem Linked.addBuffered (mult : T) (linked : m.Linked rows cols) (nonzero : m.Nonzero)
    (inRow : id ∈ rows target) (inCol : id ∈ cols c) {used : Bool}
    (buffered : m.mergeBuffer c = (m.entryAt source c).map (·, used))
    : ∃ m' rows' cols', m.addBuffered mult id = some m'
      ∧ Combined m m' rows rows' cols cols' target source mult c id := by
  obtain ⟨inRange, rowEq⟩ := linked.mem_row.mp inRow
  obtain ⟨-, colEq⟩ := linked.mem_col.mp inCol
  have entry := linked.entryAt_eq_some.mpr ⟨inRow, inCol⟩
  have own := coeffAt_of_entryAt entry
  cases found : m.entryAt source c with
  | none =>
      rw [found] at buffered
      have sumEq : m.sumAt target source mult c = m.coeffAt target c := by
        simp [sumAt, coeffAt_of_vacant found]
      have sumNe : m.sumAt target source mult c ≠ 0 := by
        rw [sumEq, own]
        exact nonzero id inRange (by simp [rowEq])
      refine ⟨m, rows, cols, ?_, linked, nonzero, ?_, ?_, fun _ _ _ => rfl, ?_, ?_, .refl m⟩
      · simp [Matrix.addBuffered, colEq, buffered]
      · rw [if_neg sumNe]
      · rw [if_neg sumNe]
      · intro r' c'
        split
        · rename_i here
          rw [here.1, here.2, sumEq]
        · rfl
      · simpa [found] using buffered
  | some other =>
      rw [found] at buffered
      have otherEq := coeffAt_of_entryAt found
      have sumEq : (m.entries.get id).coefficient + mult * (m.entries.get other).coefficient
          = m.sumAt target source mult c := by
        rw [sumAt, own, otherEq]
      let marked : Matrix T :=
        { m with mergeBuffer := Function.update m.mergeBuffer c (some (other, true)) }
      let changed := marked.setCoefficient id (m.sumAt target source mult c)
      have markedLinked : marked.Linked rows cols := linked.withBuffer _ m.rowInMergeBuffer
      have changedLinked : changed.Linked rows cols := markedLinked.setCoefficient id _
      have changedEntry (r' : RowIndex) (c' : ArithVar)
          : changed.entryAt r' c' = m.entryAt r' c' :=
        entryAt_setCoefficient marked id _ r' c'
      have changedCoeff (r' : RowIndex) (c' : ArithVar)
          : changed.coeffAt r' c' = if r' = target ∧ c' = c
            then m.sumAt target source mult c else m.coeffAt r' c' :=
        markedLinked.coeffAt_setCoefficient inRow inCol _ r' c'
      have others (x : EntryID) (differs : x ≠ id) : changed.entries.get x = m.entries.get x := by
        rw [get_setCoefficient, if_neg differs]
      have ran : m.addBuffered mult id
          = if m.sumAt target source mult c = 0 then changed.removeEntry id else some changed := by
        simp only [Matrix.addBuffered, colEq, buffered, Option.map_some, Option.bind_eq_bind,
          Option.bind_some, sumEq, sign_eq_zero_iff]
        rfl
      by_cases cancels : m.sumAt target source mult c = 0
      · obtain ⟨m', ranRemove, removed⟩ := changedLinked.removeEntry inRow inCol
        rw [if_pos cancels] at ran
        refine ⟨m', _, _, ran.trans ranRemove, removed.linked, ?_, ?_, ?_, ?_, ?_, ?_, ?_⟩
        · refine removed.nonzero (fun x below differs => ?_)
          rw [others x differs]
          exact nonzero x below
        · rw [if_pos cancels]
        · rw [if_pos cancels]
        · intro r' c' elsewhere
          rw [removed.entryAt changedLinked inRow inCol, if_neg elsewhere, changedEntry]
        · intro r' c'
          rw [removed.coeffAt changedLinked inRow inCol, changedCoeff]
          by_cases here : r' = target ∧ c' = c
          · rw [if_pos here, if_pos here, cancels]
          · rw [if_neg here, if_neg here]
        · rw [removed.mergeBuffer]
          simp [changed, marked, Matrix.setCoefficient, found]
        · have kept : SameShape m changed := ⟨rfl, rfl, rfl, rfl⟩
          exact kept.trans removed.shape
      · rw [if_neg cancels] at ran
        refine ⟨changed, rows, cols, ran, changedLinked, ?_, ?_, ?_, ?_, changedCoeff, ?_,
          ⟨rfl, rfl, rfl, rfl⟩⟩
        · intro x below placed
          by_cases same : x = id
          · subst same
            rw [get_setCoefficient, if_pos rfl]
            exact cancels
          · rw [others x same] at placed ⊢
            exact nonzero x below placed
        · rw [if_neg cancels]
        · rw [if_neg cancels]
        · intro r' c' _
          exact changedEntry r' c'
        · simp [changed, marked, Matrix.setCoefficient, found]

-- The pass over the row

/-- State of the first loop: the buffered row was added in the columns of the entries passed. -/
structure Adding (m₀ : Matrix T) (rows₀ : RowIndex → List EntryID)
    (cols₀ : ArithVar → List EntryID) (target source : RowIndex) (mult : T)
    (passed ahead : List EntryID) (m : Matrix T) (rows : RowIndex → List EntryID)
    (cols : ArithVar → List EntryID) : Prop where
  linked : m.Linked rows cols
  nonzero : m.Nonzero
  split : rows₀ target = passed ++ ahead
  rowTarget : ∃ kept, rows target = kept ++ ahead
  rowOther {r : RowIndex} (differs : r ≠ target) : rows r = rows₀ r
  colPassed {c : ArithVar} {id : EntryID} (wasPassed : id ∈ passed) (inCol : id ∈ cols₀ c)
    : cols c = if m₀.sumAt target source mult c = 0 then (cols₀ c).erase id else cols₀ c
  colAhead {c : ArithVar} (notPassed : ¬Passed cols₀ passed c) : cols c = cols₀ c
  coeffAt (r : RowIndex) (c : ArithVar)
    : (r = target ∧ Passed cols₀ passed c → m.coeffAt r c = m₀.sumAt target source mult c)
      ∧ (¬(r = target ∧ Passed cols₀ passed c) → m.coeffAt r c = m₀.coeffAt r c)
  entryAt {r : RowIndex} {c : ArithVar} (elsewhere : ¬(r = target ∧ Passed cols₀ passed c))
    : m.entryAt r c = m₀.entryAt r c
  mergeBuffer (c : ArithVar)
    : ∃ used, m.mergeBuffer c = (m₀.entryAt source c).map (·, used)
      ∧ (used = true ↔ Passed cols₀ passed c)
  shape : SameShape m₀ m

theorem Adding.start (linked : m₀.Linked rows₀ cols₀) (nonzero : m₀.Nonzero)
    (buffered : ∀ c, m₀.mergeBuffer c = (m₀.entryAt source c).map (·, false))
    : Adding m₀ rows₀ cols₀ target source mult [] (rows₀ target) m₀ rows₀ cols₀ := by
  have none_passed (c : ArithVar) : ¬Passed cols₀ [] c := by
    rintro ⟨id, member, -⟩
    simp at member
  refine ⟨linked, nonzero, rfl, ⟨[], rfl⟩, fun _ => rfl, ?_, fun _ => rfl, ?_, fun _ => rfl, ?_,
    .refl m₀⟩
  · intro c id member
    simp at member
  · intro r c
    exact ⟨fun passed => absurd passed.2 (none_passed c), fun _ => rfl⟩
  · intro c
    exact ⟨false, buffered c, by simp [none_passed c]⟩

/-- The entry ahead lies in a column that no entry passed lies in. -/
theorem Adding.column (adding : Adding m₀ rows₀ cols₀ target source mult passed (id :: ahead) m rows cols)
    (linked₀ : m₀.Linked rows₀ cols₀)
    : id ∈ rows target ∧ ∃ c, id ∈ cols c ∧ id ∈ cols₀ c ∧ ¬Passed cols₀ passed c := by
  obtain ⟨kept, rowEq⟩ := adding.rowTarget
  have inRow : id ∈ rows target := by simp [rowEq]
  have inRow₀ : id ∈ rows₀ target := by simp [adding.split]
  obtain ⟨c, inCol₀, -⟩ := linked₀.col_of_row inRow₀
  have fresh := not_passed linked₀ adding.split inCol₀
  refine ⟨inRow, c, ?_, inCol₀, fresh⟩
  rw [adding.colAhead fresh]
  exact inCol₀

/-- One step through the target row adds the buffered multiple to an entry, and the invariant goes on to the
next.
-/
theorem Adding.step (linked₀ : m₀.Linked rows₀ cols₀) (apart : source ≠ target)
    (adding : Adding m₀ rows₀ cols₀ target source mult passed (id :: ahead) m rows cols)
    : m.nextInRow id = ahead.head?
      ∧ ∃ m' rows' cols', m.addBuffered mult id = some m'
        ∧ Adding m₀ rows₀ cols₀ target source mult (passed ++ [id]) ahead m' rows' cols' := by
  obtain ⟨kept, rowEq⟩ := adding.rowTarget
  obtain ⟨inRow, c, inCol, inCol₀, fresh⟩ := adding.column linked₀
  have next : m.nextInRow id = ahead.head? := by
    have chain := adding.linked.row.chain target
    rw [rowEq] at chain
    exact chain.next_eq
  have entrySource := adding.entryAt (r := source) (c := c) (fun both => apart both.1)
  obtain ⟨used, buffered, -⟩ := adding.mergeBuffer c
  rw [← entrySource] at buffered
  obtain ⟨m', rows', cols', ran, combined⟩ :=
    adding.linked.addBuffered mult adding.nonzero inRow inCol buffered
  have sumEq : m.sumAt target source mult c = m₀.sumAt target source mult c := by
    rw [sumAt, sumAt, (adding.coeffAt target c).2 (fun both => fresh both.2),
      (adding.coeffAt source c).2 (fun both => apart both.1)]
  have passedIff := passed_append passed inCol₀
    (fun c' other => linked₀.col.eq_of_mem other inCol₀)
  refine ⟨next, m', rows', cols', ran, combined.linked, combined.nonzero, ?_, ?_, ?_, ?_, ?_, ?_,
    ?_, ?_, adding.shape.trans combined.shape⟩
  · rw [adding.split, List.append_assoc]
    rfl
  · rw [combined.rowsEq]
    split
    · refine ⟨kept, ?_⟩
      have distinct := adding.linked.row.nodup target
      rw [rowEq] at distinct
      have absent : id ∉ kept := fun member =>
        (List.nodup_append.mp distinct).2.2 id member id (by simp) rfl
      rw [Function.update_self, rowEq, List.erase_append_right _ absent, List.erase_cons_head]
    · exact ⟨kept ++ [id], by rw [rowEq]; simp⟩
  · intro r differs
    rw [combined.rowsEq]
    split
    · rw [Function.update_of_ne differs]
      exact adding.rowOther differs
    · exact adding.rowOther differs
  · intro c' other wasPassed inCol'
    rcases List.mem_append.mp wasPassed with old | new
    · have differs : c' ≠ c := by
        rintro rfl
        exact fresh ⟨other, old, inCol'⟩
      rw [← adding.colPassed old inCol', combined.colsEq]
      split
      · rw [Function.update_of_ne differs]
      · rfl
    · rw [List.mem_singleton.mp new] at inCol' ⊢
      obtain rfl := linked₀.col.eq_of_mem inCol' inCol₀
      rw [combined.colsEq, sumEq]
      split
      · rw [Function.update_self, adding.colAhead fresh]
      · exact adding.colAhead fresh
  · intro c' notPassed
    rw [passedIff, not_or] at notPassed
    rw [← adding.colAhead notPassed.1, combined.colsEq]
    split
    · rw [Function.update_of_ne notPassed.2]
    · rfl
  · intro r c'
    rw [combined.coeffAt, passedIff]
    by_cases here : r = target ∧ c' = c
    · rw [if_pos here, sumEq, here.2]
      exact ⟨fun _ => rfl, fun elsewhere => absurd ⟨here.1, Or.inr rfl⟩ elsewhere⟩
    · rw [if_neg here]
      refine ⟨fun both => ?_, fun elsewhere => ?_⟩
      · have old := both.2.resolve_right (fun same => here ⟨both.1, same⟩)
        exact (adding.coeffAt r c').1 ⟨both.1, old⟩
      · exact (adding.coeffAt r c').2 (fun both => elsewhere ⟨both.1, Or.inl both.2⟩)
  · intro r c' elsewhere
    rw [passedIff] at elsewhere
    rw [combined.entryAt r c' (fun here => elsewhere ⟨here.1, Or.inr here.2⟩)]
    exact adding.entryAt (fun both => elsewhere ⟨both.1, Or.inl both.2⟩)
  · intro c'
    rw [combined.mergeBuffer]
    by_cases same : c' = c
    · subst same
      exact ⟨true, by rw [Function.update_self, entrySource], by simp [passedIff]⟩
    · rw [Function.update_of_ne same]
      obtain ⟨used', buffered', usedIff⟩ := adding.mergeBuffer c'
      exact ⟨used', buffered', by rw [usedIff, passedIff]; simp [same]⟩

end RowPass

-- The pass over the buffered row

/-- State of the second loop: the entries passed that were not used have a copy in row
`target`.
-/
structure Filling (m₁ : Matrix T) (rows₁ : RowIndex → List EntryID)
    (cols₁ : ArithVar → List EntryID) (target source : RowIndex) (mult : T)
    (used : ArithVar → Prop) (passed ahead : List EntryID) (m : Matrix T)
    (rows : RowIndex → List EntryID) (cols : ArithVar → List EntryID) : Prop where
  linked : m.Linked rows cols
  nonzero : m.Nonzero
  split : rows₁ source = passed ++ ahead
  rowOther {r : RowIndex} (differs : r ≠ target) : rows r = rows₁ r
  colUsed {c : ArithVar} (wasUsed : used c) : cols c = cols₁ c
  coeffAt (r : RowIndex) (c : ArithVar)
    : (r = target ∧ Passed cols₁ passed c ∧ ¬used c
        → m.coeffAt r c = mult * m₁.coeffAt source c)
      ∧ (¬(r = target ∧ Passed cols₁ passed c ∧ ¬used c) → m.coeffAt r c = m₁.coeffAt r c)
  entryAt {r : RowIndex} {c : ArithVar}
    (elsewhere : ¬(r = target ∧ Passed cols₁ passed c ∧ ¬used c))
    : m.entryAt r c = m₁.entryAt r c
  mergeBuffer (c : ArithVar)
    : ∃ flag, m.mergeBuffer c = (m₁.entryAt source c).map (·, flag)
      ∧ (flag = true ↔ used c ∧ ¬Passed cols₁ passed c)
  shape : SameShape m₁ m

variable {m₁ : Matrix T} {rows₁ : RowIndex → List EntryID} {cols₁ : ArithVar → List EntryID}
  {used : ArithVar → Prop}

theorem Filling.start (linked : m₁.Linked rows₁ cols₁) (nonzero : m₁.Nonzero)
    (buffered : ∀ c, ∃ flag, m₁.mergeBuffer c = (m₁.entryAt source c).map (·, flag)
      ∧ (flag = true ↔ used c))
    : Filling m₁ rows₁ cols₁ target source mult used [] (rows₁ source) m₁ rows₁ cols₁ := by
  have none_passed (c : ArithVar) : ¬Passed cols₁ [] c := by
    rintro ⟨id, member, -⟩
    simp at member
  refine ⟨linked, nonzero, rfl, fun _ => rfl, fun _ => rfl, ?_, fun _ => rfl, ?_, .refl m₁⟩
  · intro r c
    exact ⟨fun passed => absurd passed.2.1 (none_passed c), fun _ => rfl⟩
  · intro c
    obtain ⟨flag, buffered, flagIff⟩ := buffered c
    exact ⟨flag, buffered, by simp [flagIff, none_passed c]⟩

theorem Filling.next (apart : source ≠ target)
    (filling : Filling m₁ rows₁ cols₁ target source mult used (passed ++ [id]) ahead m rows cols)
    : m.nextInRow id = ahead.head? := by
  have chain := filling.linked.row.chain source
  rw [filling.rowOther apart, filling.split, List.append_assoc] at chain
  exact chain.next_eq

/-- The copy that is added when the entry of the buffered row was not used. -/
theorem Filling.copy [NoZeroDivisors T] (linked₁ : m₁.Linked rows₁ cols₁) (apart : source ≠ target)
    (inRange : target < m₁.rows.length) (active : target ∉ m₁.pool) (multNe : mult ≠ 0)
    (filling : Filling m₁ rows₁ cols₁ target source mult used passed (id :: ahead) m rows cols)
    (inCol₁ : id ∈ cols₁ c) (fresh : ¬Passed cols₁ passed c) (unused : ¬used c)
    (vacant₁ : m₁.entryAt target c = none)
    : ∃ rows' cols', Filling m₁ rows₁ cols₁ target source mult used (passed ++ [id]) ahead
        (m.addEntry target c (mult * (m.entries.get id).coefficient)) rows' cols' := by
  have passedIff := passed_append passed inCol₁
    (fun c' other => linked₁.col.eq_of_mem other inCol₁)
  have inRow₁ : id ∈ rows₁ source := by simp [filling.split]
  have sourceEntry : m.entryAt source c = some id := by
    rw [filling.entryAt (fun both => apart both.1), linked₁.entryAt_eq_some]
    exact ⟨inRow₁, inCol₁⟩
  obtain ⟨inRow, inCol⟩ := filling.linked.entryAt_eq_some.mp sourceEntry
  have coeffEq : (m.entries.get id).coefficient = m₁.coeffAt source c := by
    rw [← coeffAt_of_entryAt sourceEntry]
    exact (filling.coeffAt source c).2 (fun both => apart both.1)
  have coeffNe : mult * (m.entries.get id).coefficient ≠ 0 := by
    obtain ⟨below, placed⟩ := filling.linked.mem_row.mp inRow
    exact mul_ne_zero multNe (filling.nonzero id below (by simp [placed]))
  have vacant : m.entryAt target c = none := by
    rw [filling.entryAt (fun both => fresh both.2.1)]
    exact vacant₁
  have rowInRange : target < m.rows.length := by
    rw [filling.shape.rows]
    exact inRange
  have colInRange := filling.linked.col.bound inCol
  have active' : target ∉ m.pool := by
    rw [filling.shape.pool]
    exact active
  have added := filling.linked.addEntry rowInRange colInRange
    (filling.linked.entryAt_eq_none.mp vacant) active' (mult * (m.entries.get id).coefficient)
  have entries := filling.linked.entryAt_addEntry rowInRange colInRange vacant active'
    (mult * (m.entries.get id).coefficient)
  have coeffs := filling.linked.coeffAt_addEntry rowInRange colInRange vacant active'
    (mult * (m.entries.get id).coefficient)
  refine ⟨_, _, added, filling.linked.nonzero_addEntry filling.nonzero coeffNe, ?_, ?_, ?_, ?_, ?_,
    ?_, filling.shape.trans (sameShape_addEntry _).1⟩
  · rw [filling.split, List.append_assoc]
    rfl
  · intro r differs
    rw [Function.update_of_ne differs]
    exact filling.rowOther differs
  · intro c' wasUsed
    have differs : c' ≠ c := by
      rintro rfl
      exact unused wasUsed
    rw [Function.update_of_ne differs]
    exact filling.colUsed wasUsed
  · intro r c'
    rw [coeffs, passedIff]
    by_cases here : r = target ∧ c' = c
    · rw [if_pos here, here.2, coeffEq]
      exact ⟨fun _ => rfl, fun elsewhere => absurd ⟨here.1, Or.inr rfl, unused⟩ elsewhere⟩
    · rw [if_neg here]
      refine ⟨fun both => ?_, fun elsewhere => ?_⟩
      · have old := both.2.1.resolve_right (fun same => here ⟨both.1, same⟩)
        exact (filling.coeffAt r c').1 ⟨both.1, old, both.2.2⟩
      · exact (filling.coeffAt r c').2 (fun both => elsewhere ⟨both.1, Or.inl both.2.1, both.2.2⟩)
  · intro r c' elsewhere
    rw [passedIff] at elsewhere
    have notHere : ¬(r = target ∧ c' = c) := by
      rintro ⟨sameRow, rfl⟩
      exact elsewhere ⟨sameRow, Or.inr rfl, unused⟩
    rw [entries, if_neg notHere]
    exact filling.entryAt (fun both => elsewhere ⟨both.1, Or.inl both.2.1, both.2.2⟩)
  · intro c'
    rw [(sameShape_addEntry _).2]
    obtain ⟨flag, buffered, flagIff⟩ := filling.mergeBuffer c'
    refine ⟨flag, buffered, ?_⟩
    rw [flagIff, passedIff]
    by_cases same : c' = c
    · subst same
      simp [unused]
    · simp [same]

/-- The mark of a used entry is taken back. -/
theorem Filling.unmark (linked₁ : m₁.Linked rows₁ cols₁)
    (filling : Filling m₁ rows₁ cols₁ target source mult used passed (id :: ahead) m rows cols)
    (inCol₁ : id ∈ cols₁ c) (wasUsed : used c)
    : Filling m₁ rows₁ cols₁ target source mult used (passed ++ [id]) ahead
        { m with mergeBuffer := Function.update m.mergeBuffer c (some (id, false)) } rows cols := by
  have passedIff := passed_append passed inCol₁
    (fun c' other => linked₁.col.eq_of_mem other inCol₁)
  -- In a used column nothing is copied.
  have copiedIff (r : RowIndex) (c' : ArithVar)
      : (r = target ∧ Passed cols₁ (passed ++ [id]) c' ∧ ¬used c')
        ↔ (r = target ∧ Passed cols₁ passed c' ∧ ¬used c') := by
    rw [passedIff]
    by_cases same : c' = c
    · subst same
      simp [wasUsed]
    · simp [same]
  refine ⟨filling.linked.withBuffer _ m.rowInMergeBuffer, filling.nonzero, ?_, filling.rowOther,
    filling.colUsed, ?_, ?_, ?_, filling.shape.trans ⟨rfl, rfl, rfl, rfl⟩⟩
  · rw [filling.split, List.append_assoc]
    rfl
  · intro r c'
    rw [copiedIff]
    exact filling.coeffAt r c'
  · intro r c' elsewhere
    rw [copiedIff] at elsewhere
    exact filling.entryAt elsewhere
  · intro c'
    by_cases same : c' = c
    · subst same
      have found : m₁.entryAt source c' = some id :=
        linked₁.entryAt_eq_some.mpr ⟨by simp [filling.split], inCol₁⟩
      exact ⟨false, by simp [found], by simp [passedIff]⟩
    · obtain ⟨flag, buffered, flagIff⟩ := filling.mergeBuffer c'
      refine ⟨flag, by simpa [same] using buffered, ?_⟩
      rw [flagIff, passedIff]
      simp [same]

/-- One step through the source row fills in an entry where the target has none, and the invariant goes on
to the next.
-/
theorem Filling.step [NoZeroDivisors T] (linked₁ : m₁.Linked rows₁ cols₁) (apart : source ≠ target)
    (inRange : target < m₁.rows.length) (active : target ∉ m₁.pool) (multNe : mult ≠ 0)
    (vacant : ∀ c, ¬used c → m₁.entryAt target c = none)
    (filling : Filling m₁ rows₁ cols₁ target source mult used passed (id :: ahead) m rows cols)
    : ∃ m' rows' cols', m.fillIn target mult id = some m' ∧ m'.nextInRow id = ahead.head?
      ∧ Filling m₁ rows₁ cols₁ target source mult used (passed ++ [id]) ahead m' rows' cols' := by
  have inRow₁ : id ∈ rows₁ source := by simp [filling.split]
  obtain ⟨c, inCol₁, -⟩ := linked₁.col_of_row inRow₁
  have fresh := not_passed linked₁ filling.split inCol₁
  have found : m₁.entryAt source c = some id := linked₁.entryAt_eq_some.mpr ⟨inRow₁, inCol₁⟩
  have sourceEntry : m.entryAt source c = some id := by
    rw [filling.entryAt (fun both => apart both.1), found]
  obtain ⟨-, inCol⟩ := filling.linked.entryAt_eq_some.mp sourceEntry
  have colEq := (filling.linked.mem_col.mp inCol).2
  obtain ⟨flag, buffered, flagIff⟩ := filling.mergeBuffer c
  rw [found, Option.map_some] at buffered
  cases flag with
  | true =>
      have after := filling.unmark linked₁ inCol₁ (flagIff.mp rfl).1
      refine ⟨_, rows, cols, ?_, after.next apart, after⟩
      simp [Matrix.fillIn, colEq, buffered]
  | false =>
      have unused : ¬used c := fun wasUsed => by simpa using flagIff.mpr ⟨wasUsed, fresh⟩
      obtain ⟨rows', cols', after⟩ :=
        filling.copy linked₁ apart inRange active multNe inCol₁ fresh unused (vacant c unused)
      refine ⟨_, rows', cols', ?_, after.next apart, after⟩
      simp [Matrix.fillIn, colEq, buffered]

-- The whole addition

/-- Row `source` is in the merge buffer and may be added to row `target`. -/
structure Buffered (m : Matrix T) (rows : RowIndex → List EntryID)
    (cols : ArithVar → List EntryID) (source : RowIndex) : Prop where
  linked : m.Linked rows cols
  nonzero : m.Nonzero
  buffer (c : ArithVar) : m.mergeBuffer c = (m.entryAt source c).map (·, false)
  row : m.rowInMergeBuffer = some source

section Addition

variable [LinearOrder T]

/-- Row `target` became its sum with the multiple of row `source`. -/
structure RowAdded (m m' : Matrix T) (rows rows' : RowIndex → List EntryID)
    (cols cols' : ArithVar → List EntryID) (target source : RowIndex) (mult : T) : Prop where
  linked : m'.Linked rows' cols'
  nonzero : m'.Nonzero
  rowOther {r : RowIndex} (differs : r ≠ target) : rows' r = rows r
  colTarget {c : ArithVar} {id : EntryID} (inRow : id ∈ rows target) (inCol : id ∈ cols c)
    : cols' c = if m.sumAt target source mult c = 0 then (cols c).erase id else cols c
  entryOther {r : RowIndex} (differs : r ≠ target) (c : ArithVar) : m'.entryAt r c = m.entryAt r c
  coeffAt (r : RowIndex) (c : ArithVar)
    : m'.coeffAt r c = if r = target then m.sumAt target source mult c else m.coeffAt r c
  mergeBuffer : m'.mergeBuffer = m.mergeBuffer
  shape : SameShape m m'

theorem RowAdded.buffered (added : RowAdded m m' rows rows' cols cols' target source mult)
    (buffered : Buffered m rows cols source) (apart : source ≠ target)
    : Buffered m' rows' cols' source where
  linked := added.linked
  nonzero := added.nonzero
  buffer c := by
    rw [added.mergeBuffer, added.entryOther apart]
    exact buffered.buffer c
  row := added.shape.rowInMergeBuffer.trans buffered.row

omit [Ring T] [LinearOrder T] in
theorem passed_iff_entryAt (linked : m.Linked rows cols)
    : Passed cols (rows r) c ↔ m.entryAt r c ≠ none := by
  rw [Ne, linked.entryAt_eq_none]
  simp [Passed]

/-- Both passes together. -/
theorem RowAdded.of_passes (buffered : Buffered m₀ rows₀ cols₀ source) (apart : source ≠ target)
    (adding : Adding m₀ rows₀ cols₀ target source mult (rows₀ target) [] m₁ rows₁ cols₁)
    (filling : Filling m₁ rows₁ cols₁ target source mult (Passed cols₀ (rows₀ target))
      (rows₁ source) [] m rows cols)
    : RowAdded m₀ m rows₀ rows cols₀ cols target source mult := by
  have elsewhere₁ {r : RowIndex} (differs : r ≠ target) {p : Prop} : ¬(r = target ∧ p) :=
    fun both => differs both.1
  have sourceCoeff (c : ArithVar) : m₁.coeffAt source c = m₀.coeffAt source c :=
    (adding.coeffAt source c).2 (elsewhere₁ apart)
  refine ⟨filling.linked, filling.nonzero, ?_, ?_, ?_, ?_, ?_, adding.shape.trans filling.shape⟩
  · intro r differs
    rw [filling.rowOther differs, adding.rowOther differs]
  · intro c id inRow inCol
    rw [filling.colUsed ⟨id, inRow, inCol⟩]
    exact adding.colPassed inRow inCol
  · intro r differs c
    rw [filling.entryAt (elsewhere₁ differs), adding.entryAt (elsewhere₁ differs)]
  · intro r c
    by_cases isTarget : r = target
    · subst isTarget
      rw [if_pos rfl]
      by_cases used : Passed cols₀ (rows₀ r) c
      · rw [(filling.coeffAt r c).2 (fun both => both.2.2 used)]
        exact (adding.coeffAt r c).1 ⟨rfl, used⟩
      · have vacant : m₀.entryAt r c = none := by
          simpa using mt (passed_iff_entryAt buffered.linked).mpr used
        by_cases copied : Passed cols₁ (rows₁ source) c
        · rw [(filling.coeffAt r c).1 ⟨rfl, copied, used⟩, sourceCoeff, sumAt,
            coeffAt_of_vacant vacant, zero_add]
        · -- Neither row has an entry in the column.
          have vacantSource : m₁.entryAt source c = none := by
            simpa using mt (passed_iff_entryAt adding.linked).mpr copied
          rw [(filling.coeffAt r c).2 (fun both => copied both.2.1),
            (adding.coeffAt r c).2 (fun both => used both.2), sumAt, ← sourceCoeff,
            coeffAt_of_vacant vacantSource, mul_zero, add_zero]
    · rw [if_neg isTarget, (filling.coeffAt r c).2 (elsewhere₁ isTarget)]
      exact (adding.coeffAt r c).2 (elsewhere₁ isTarget)
  · funext c
    obtain ⟨flag, bufferEq, flagIff⟩ := filling.mergeBuffer c
    rw [bufferEq, buffered.buffer c, adding.entryAt (elsewhere₁ apart)]
    cases found : m₀.entryAt source c with
    | none => rfl
    | some id =>
        have passed : Passed cols₁ (rows₁ source) c := by
          rw [passed_iff_entryAt adding.linked, adding.entryAt (elsewhere₁ apart), found]
          simp
        have cleared : flag = false := by
          cases flag with
          | false => rfl
          | true => exact absurd passed (flagIff.mp rfl).2
        rw [cleared]

theorem Adding.finish (buffered : Buffered m₀ rows₀ cols₀ source) (apart : source ≠ target)
    (adding : Adding m₀ rows₀ cols₀ target source mult (rows₀ target) [] m₁ rows₁ cols₁)
    : Filling m₁ rows₁ cols₁ target source mult (Passed cols₀ (rows₀ target)) [] (rows₁ source)
        m₁ rows₁ cols₁
      ∧ ∀ c, ¬Passed cols₀ (rows₀ target) c → m₁.entryAt target c = none := by
  constructor
  · refine Filling.start adding.linked adding.nonzero (fun c => ?_)
    rw [adding.entryAt (fun both => apart both.1)]
    exact adding.mergeBuffer c
  · intro c notPassed
    rw [adding.entryAt (fun both => notPassed both.2)]
    simpa using mt (passed_iff_entryAt buffered.linked).mpr notPassed

section Results

variable [NoZeroDivisors T]

theorem Buffered.rowPlusBufferTimesConstant (buffered : Buffered m rows cols source)
    (apart : source ≠ target) (inRange : target < m.rows.length) (active : target ∉ m.pool)
    (multNe : mult ≠ 0)
    : ∃ m' rows' cols', m.rowPlusBufferTimesConstant target mult = some m'
      ∧ RowAdded m m' rows rows' cols cols' target source mult := by
  obtain ⟨m₁, ranFirst, rows₁, cols₁, adding⟩ := whileEach_of_invariant
    nextInRow (Matrix.addBuffered mult)
    (fun passed ahead m₁ => ∃ rows₁ cols₁,
      Adding m rows cols target source mult passed ahead m₁ rows₁ cols₁)
    (fun passed id ahead m₁ ⟨rows₁, cols₁, adding⟩ => by
      obtain ⟨next, m₂, rows₂, cols₂, ran, adding'⟩ := adding.step buffered.linked apart
      exact ⟨next, m₂, ran, rows₂, cols₂, adding'⟩)
    ⟨rows, cols, Adding.start buffered.linked buffered.nonzero buffered.buffer⟩
    buffered.linked.row_length
  obtain ⟨filling, vacant⟩ := Adding.finish buffered apart adding
  obtain ⟨m₂, ranSecond, rows₂, cols₂, filled⟩ := forEach_of_invariant
    nextInRow (Matrix.fillIn target mult)
    (fun passed ahead m₂ => ∃ rows₂ cols₂, Filling m₁ rows₁ cols₁ target source mult
      (Passed cols (rows target)) passed ahead m₂ rows₂ cols₂)
    (fun passed id ahead m₂ ⟨rows₂, cols₂, filling⟩ => by
      obtain ⟨m₃, rows₃, cols₃, ran, next, filling'⟩ := filling.step adding.linked apart
        (adding.shape.rows ▸ inRange) (adding.shape.pool ▸ active) multNe vacant
      exact ⟨m₃, ran, next, rows₃, cols₃, filling'⟩)
    ⟨rows₁, cols₁, filling⟩ adding.linked.row_length
  refine ⟨m₂, rows₂, cols₂, ?_, RowAdded.of_passes buffered apart adding filled⟩
  rw [← (buffered.linked.row.chain target).head] at ranFirst
  rw [← (adding.linked.row.chain source).head] at ranSecond
  simp only [Matrix.rowPlusBufferTimesConstant, ranFirst, Option.bind_eq_bind, Option.bind_some,
    adding.shape.rowInMergeBuffer.trans buffered.row, ranSecond]

-- With a callback

variable {σ : Type}

omit [NoZeroDivisors T] in
/-- With a stored coefficient that is not zero, the test for a changed sign misses no removal. -/
theorem addBufferedNotifying_eq (cb : CoefficientChangeCallback σ) (target : RowIndex) (mult : T)
    (s : σ)
    (nonzero : (m.entries.get id).coefficient ≠ 0)
    : ∃ s', addBufferedNotifying cb target mult id (m, s)
      = (m.addBuffered mult id).map (·, s') := by
  cases column : (m.entries.get id).colVar with
  | none => exact ⟨s, by simp [addBufferedNotifying, addBuffered, column]⟩
  | some c =>
      cases buffer : m.mergeBuffer c with
      | none => exact ⟨s, by simp [addBufferedNotifying, addBuffered, column, buffer]⟩
      | some pair =>
          obtain ⟨other, flag⟩ := pair
          simp only [addBufferedNotifying, addBuffered, column, buffer, Option.bind_eq_bind,
            Option.bind_some]
          generalize (m.entries.get id).coefficient
            + mult * (m.entries.get other).coefficient = sum
          have oldSgn : SignType.sign (m.entries.get id).coefficient ≠ 0 := by
            simpa using nonzero
          by_cases cancels : SignType.sign sum = 0
          · rw [if_pos cancels, cancels, if_pos oldSgn, if_pos rfl]
            exact ⟨_, Option.bind_eq_bind ▸ Option.map_eq_bind.symm⟩
          · by_cases changed : SignType.sign (m.entries.get id).coefficient ≠ SignType.sign sum
            · exact ⟨_, by rw [if_pos changed, if_neg cancels, if_neg cancels]; rfl⟩
            · exact ⟨_, by rw [if_neg changed, if_neg cancels]; rfl⟩

omit [NoZeroDivisors T] in
theorem fillInNotifying_eq (cb : CoefficientChangeCallback σ) (target : RowIndex) (mult : T)
    (s : σ)
    : ∃ s', fillInNotifying cb target mult id (m, s) = (m.fillIn target mult id).map (·, s') := by
  cases column : (m.entries.get id).colVar with
  | none => exact ⟨s, by simp [fillInNotifying, fillIn, column]⟩
  | some c =>
      cases buffer : m.mergeBuffer c with
      | none => exact ⟨s, by simp [fillInNotifying, fillIn, column, buffer]⟩
      | some pair =>
          obtain ⟨other, flag⟩ := pair
          cases flag with
          | true => exact ⟨s, by simp [fillInNotifying, fillIn, column, buffer]⟩
          | false => exact ⟨_, by simp [fillInNotifying, fillIn, column, buffer]; rfl⟩

theorem Buffered.rowPlusBufferTimesConstantNotifying (cb : CoefficientChangeCallback σ) (s : σ)
    (buffered : Buffered m rows cols source) (apart : source ≠ target)
    (inRange : target < m.rows.length) (active : target ∉ m.pool) (multNe : mult ≠ 0)
    : ∃ m' s' rows' cols', rowPlusBufferTimesConstantNotifying cb m target mult s = some (m', s')
      ∧ RowAdded m m' rows rows' cols cols' target source mult := by
  obtain ⟨⟨m₁, s₁⟩, ranFirst, rows₁, cols₁, adding⟩ := whileEach_of_invariant
    (fun (state : Matrix T × σ) => state.1.nextInRow) (addBufferedNotifying cb target mult)
    (fun passed ahead state => ∃ rows₁ cols₁,
      Adding m rows cols target source mult passed ahead state.1 rows₁ cols₁)
    (fun passed id ahead state ⟨rows₁, cols₁, adding⟩ => by
      obtain ⟨next, m₂, rows₂, cols₂, ran, adding'⟩ := adding.step buffered.linked apart
      obtain ⟨inRow, -⟩ := adding.column buffered.linked
      obtain ⟨below, placed⟩ := adding.linked.mem_row.mp inRow
      obtain ⟨s₂, ranNotifying⟩ := addBufferedNotifying_eq cb target mult state.2
        (adding.nonzero id below (by simp [placed]))
      exact ⟨next, (m₂, s₂), by rw [ranNotifying, ran]; rfl, rows₂, cols₂, adding'⟩)
    (s := (m, s)) ⟨rows, cols, Adding.start buffered.linked buffered.nonzero buffered.buffer⟩
    buffered.linked.row_length
  obtain ⟨filling, vacant⟩ := Adding.finish buffered apart adding
  obtain ⟨⟨m₂, s₂⟩, ranSecond, rows₂, cols₂, filled⟩ := forEach_of_invariant
    (fun (state : Matrix T × σ) => state.1.nextInRow) (fillInNotifying cb target mult)
    (fun passed ahead state => ∃ rows₂ cols₂, Filling m₁ rows₁ cols₁ target source mult
      (Passed cols (rows target)) passed ahead state.1 rows₂ cols₂)
    (fun passed id ahead state ⟨rows₂, cols₂, filling⟩ => by
      obtain ⟨m₃, rows₃, cols₃, ran, next, filling'⟩ := filling.step adding.linked apart
        (adding.shape.rows ▸ inRange) (adding.shape.pool ▸ active) multNe vacant
      obtain ⟨s₃, ranNotifying⟩ := fillInNotifying_eq cb target mult state.2
      exact ⟨(m₃, s₃), by rw [ranNotifying, ran]; rfl, next, rows₃, cols₃, filling'⟩)
    (s := (m₁, s₁)) ⟨rows₁, cols₁, filling⟩ adding.linked.row_length
  refine ⟨m₂, s₂, rows₂, cols₂, ?_, RowAdded.of_passes buffered apart adding filled⟩
  rw [← (buffered.linked.row.chain target).head] at ranFirst
  rw [← (adding.linked.row.chain source).head] at ranSecond
  have loaded : m₁.rowInMergeBuffer = some source :=
    adding.shape.rowInMergeBuffer.trans buffered.row
  simp only [Matrix.rowPlusBufferTimesConstantNotifying, ranFirst, Option.bind_eq_bind,
    Option.bind_some, loaded]
  exact ranSecond

end Results

end Addition

end Matrix

end Ava6.Arith.Linear

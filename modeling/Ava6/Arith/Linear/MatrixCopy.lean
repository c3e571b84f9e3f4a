import Ava6.Arith.Linear.RowEquations

/-! Assigning a matrix to another one. The released rows are not assigned, so the target goes on with its own: it is a
copy if and only if both have released the same rows.
-/

namespace Ava6.Arith.Linear

open Library.LinkedList

variable {T : Type}

namespace Matrix

/-- The first vectors of a table, pushed to an empty one. -/
def copyFirst (vecs : Table MatrixVector) : Nat → Table MatrixVector
  | 0 => ⟨0, fun _ => .empty⟩
  | n + 1 => (copyFirst vecs n).push ⟨(vecs.get n).head, (vecs.get n).size⟩

def copyVectors (vecs : Table MatrixVector) : Table MatrixVector := copyFirst vecs vecs.length

/-- `operator=`, which leaves the pool of the target. -/
def assign (target m : Matrix T) : Matrix T :=
  { target with
    mergeBuffer := m.mergeBuffer
    rowInMergeBuffer := m.rowInMergeBuffer
    entriesInUse := m.entriesInUse
    entries := m.entries
    columns := copyVectors m.columns
    rows := copyVectors m.rows }

theorem copyFirst_eq (vecs : Table MatrixVector) (n : Nat)
    : copyFirst vecs n = ⟨n, fun i => if i < n then vecs.get i else .empty⟩ := by
  induction n with
  | zero => simp [copyFirst]
  | succ n ih =>
      rw [copyFirst, ih]
      refine congrArg (Table.mk (n + 1)) (funext fun i => ?_)
      rw [Function.update_apply]
      split
      · next isLast => rw [if_pos (isLast ▸ Nat.lt_succ_self n), isLast]
      · next notLast =>
          change i ≠ n at notLast
          have sameRange : i < n ↔ i < n + 1 := by omega
          simp only [sameRange]

/-- Beyond its end a table of linked lists is empty, so the copy is the table. -/
theorem copyVectors_eq {side : Bool} {es : MatrixEntryVector T} {vecs : Table MatrixVector} {lists : Nat → List EntryID}
    (valid : Side side es vecs lists)
    : copyVectors vecs = vecs := by
  rw [copyVectors, copyFirst_eq]
  refine congrArg (Table.mk vecs.length) (funext fun i => ?_)
  split
  · rfl
  · next outside =>
      have isNil : lists i = [] := by
        refine List.eq_nil_iff_forall_not_mem.mpr (fun id member => outside (valid.bound member))
      have chain := valid.chain i
      have size := valid.size i
      rw [isNil] at chain size
      exact (congrArg₂ MatrixVector.mk chain size).symm

variable {m m' target : Matrix T} {rows : RowIndex → List EntryID} {cols : ArithVar → List EntryID}

/-- A copy has the entries of the source but keeps its own pool. -/
theorem Linked.assign_eq (linked : m.Linked rows cols) (target : Matrix T)
    : assign target m = { m with pool := target.pool } := by
  rw [assign, copyVectors_eq linked.row, copyVectors_eq linked.col]

/-- The terms of a row in the order of its list. -/
def rowTerms (m : Matrix T) (r : RowIndex) : List (Option ArithVar × T) :=
  (m.rowIds r).map (fun id => ((m.entries.get id).colVar, (m.entries.get id).coefficient))

inductive RowOp (T : Type)
  | increaseSize
  | addRow (coeffs : List T) (vars : List ArithVar)
  | removeRow (rid : RowIndex)
  | multiplyRowByConstant (target : RowIndex) (mult : T)
  | rowPlusRowTimesConstant (target source : RowIndex) (mult : T)

/-- The rows in use after an operation that returned the given row. -/
def RowOp.inUse (returned : Option RowIndex) (used : List RowIndex) : RowOp T → List RowIndex
  | .removeRow rid => used.filter (· ≠ rid)
  | _ => returned.toList ++ used

/-- What the callers of each operation keep to. -/
def RowOp.Admissible [Zero T] (m : Matrix T) (used : List RowIndex) : RowOp T → Prop
  | .increaseSize => True
  | .addRow coeffs vars =>
      coeffs.length = vars.length ∧ vars.Nodup ∧ (∀ x ∈ vars, x < m.columns.length) ∧ ∀ q ∈ coeffs, q ≠ 0
  | .removeRow rid => rid ∈ used
  | .multiplyRowByConstant target mult => target ∈ used ∧ mult ≠ 0
  | .rowPlusRowTimesConstant target source mult => target ∈ used ∧ source ∈ used ∧ source ≠ target ∧ mult ≠ 0

section Runs

variable [Ring T] [LinearOrder T]

/-- The row that is returned, and the matrix. -/
def RowOp.apply (m : Matrix T) : RowOp T → Option (Option RowIndex × Matrix T)
  | .increaseSize => some (none, m.increaseSize)
  | .addRow coeffs vars => some (some (m.addRow coeffs vars).1, (m.addRow coeffs vars).2)
  | .removeRow rid => (m.removeRow rid).map (none, ·)
  | .multiplyRowByConstant target mult => (m.multiplyRowByConstant target mult).map (none, ·)
  | .rowPlusRowTimesConstant target source mult => (m.rowPlusRowTimesConstant target source mult).map (none, ·)

/-- The rows that a run of operations returns, and the matrix after it. -/
def applyAll : List (RowOp T) → Matrix T → Option (List RowIndex × Matrix T)
  | [], m => some ([], m)
  | op :: rest, m => do
      let (returned, m) ← op.apply m
      let (later, m) ← applyAll rest m
      return (returned.toList ++ later, m)

/-- What a run shows: the rows that it returns, and the terms of all rows after it. -/
def observe (ops : List (RowOp T)) (m : Matrix T)
    : Option (List RowIndex × (RowIndex → List (Option ArithVar × T))) :=
  (applyAll ops m).map (fun result => (result.1, result.2.rowTerms))

/-- All operations of a run are admissible. -/
def AdmissibleRun : List (RowOp T) → Matrix T → List RowIndex → Prop
  | [], _, _ => True
  | op :: rest, m, used =>
      op.Admissible m used
      ∧ ∀ returned m', op.apply m = some (returned, m') → AdmissibleRun rest m' (op.inUse returned used)

/-- The matrices and the rows in use that runs lead to. -/
inductive RunFrom (m₀ : Matrix T) (used₀ : List RowIndex) : Matrix T → List RowIndex → Prop
  | start : RunFrom m₀ used₀ m₀ used₀
  | step {m m' : Matrix T} {used : List RowIndex} {returned : Option RowIndex} (op : RowOp T)
    (before : RunFrom m₀ used₀ m used) (admissible : op.Admissible m used) (ran : op.apply m = some (returned, m'))
    : RunFrom m₀ used₀ m' (op.inUse returned used)

/-- The matrices of all runs from the empty one. -/
def Reachable (m : Matrix T) (used : List RowIndex) : Prop := RunFrom .empty [] m used

/-- The lists are linked, the buffer is clear, and the rows in use are those that are not released. -/
def Valid (m : Matrix T) (used : List RowIndex) : Prop :=
  (∃ rows cols, m.Linked rows cols) ∧ m.Nonzero ∧ m.BufferClear ∧ ∀ r, r ∈ used ↔ r < m.rows.length ∧ r ∉ m.pool

omit [Ring T] [LinearOrder T] in
theorem bufferClear_of_same (clear : m.BufferClear) (sameBuffer : m'.mergeBuffer = m.mergeBuffer)
    (sameRow : m'.rowInMergeBuffer = m.rowInMergeBuffer)
    : m'.BufferClear := by
  refine ⟨fun c => ?_, sameRow.trans clear.2⟩
  rw [sameBuffer]
  exact clear.1 c

variable {used : List RowIndex}

omit [Ring T] [LinearOrder T] in
theorem inUse_of_shape (shape : SameShape m m')
    (inUse : ∀ r, r ∈ used ↔ r < m.rows.length ∧ r ∉ m.pool) (r : RowIndex)
    : r ∈ used ↔ r < m'.rows.length ∧ r ∉ m'.pool := by
  rw [shape.rows, shape.pool]
  exact inUse r

omit [LinearOrder T] in
theorem valid_empty : (Matrix.empty : Matrix T).Valid [] := by
  have side (isRow : Bool) : Side isRow (⟨⟨0, fun _ => .unused⟩, [], 0⟩ : MatrixEntryVector T) ⟨0, fun _ => .empty⟩
      (fun _ => []) :=
    ⟨fun _ => rfl, fun _ => rfl, fun _ => List.nodup_nil, by simp, by simp⟩
  refine ⟨⟨fun _ => [], fun _ => [], side true, side false, ?_, ?_, List.nodup_nil, ?_, rfl, rfl, List.nodup_nil, ?_⟩,
    ?_, ⟨fun _ => rfl, rfl⟩, ?_⟩
  · intro id below
    exact absurd below (Nat.not_lt_zero id)
  · intro id
    simp [Matrix.empty]
  · simp
  · simp [Matrix.empty]
  · intro id below
    exact absurd below (Nat.not_lt_zero id)
  · simp [Matrix.empty]

omit [LinearOrder T] in
theorem Valid.increaseSize (valid : m.Valid used) : m.increaseSize.Valid used := by
  obtain ⟨⟨rows, cols, linked⟩, nonzero, clear, inUse⟩ := valid
  exact ⟨⟨rows, cols, linked.increaseSize⟩, nonzero, clear, inUse⟩

omit [LinearOrder T] in
/-- Adding a row keeps a matrix valid; the row is one that was not used. -/
theorem Valid.addRow (valid : m.Valid used) {coeffs : List T} {vars : List ArithVar}
    (distinct : vars.Nodup) (inRange : ∀ x ∈ vars, x < m.columns.length) (coeffNe : ∀ q ∈ coeffs, q ≠ 0)
    (sameLength : coeffs.length = vars.length)
    : (m.addRow coeffs vars).2.Valid ((m.addRow coeffs vars).1 :: used) := by
  obtain ⟨⟨rows, cols, linked⟩, nonzero, clear, inUse⟩ := valid
  have requested := linked.requestRowIndex
  have isVars : (coeffs.zip vars).map Prod.snd = vars := List.map_snd_zip (le_of_eq sameLength.symm)
  obtain ⟨rows', cols', extended⟩ : ∃ rows' cols', Extended m.requestRowIndex.2 (m.addRow coeffs vars).2 rows' cols'
      m.requestRowIndex.1 (coeffOf (coeffs.zip vars)) := requested.linked.addEntries
    (nonzero_of_entries requested.entries nonzero) requested.inRange
    (fun pooled => ((requested.pool _).mp pooled).2 rfl) (isVars.symm ▸ distinct)
    (fun term member => by
      rw [requested.columns]
      exact inRange term.2 (List.of_mem_zip member).2)
    (fun term member => coeffNe term.1 (List.of_mem_zip member).1)
    (fun term _ => requested.linked.entryAt_eq_none.mpr (by simp [requested.isEmpty]))
  refine ⟨⟨rows', cols', extended.linked⟩, extended.nonzero, ?_, fun r => ?_⟩
  · exact bufferClear_of_same clear (extended.mergeBuffer.trans requested.mergeBuffer)
      (extended.shape.rowInMergeBuffer.trans requested.rowInMergeBuffer)
  · refine inUse_of_shape extended.shape (fun r => ?_) r
    rw [List.mem_cons, inUse, requested.rowsLength, requested.pool]
    change r = m.requestRowIndex.1 ∨ _ ↔ _
    by_cases isNew : r = m.requestRowIndex.1
    · simp [isNew]
    · simp [isNew]

omit [LinearOrder T] in
/-- A row that is returned is not in use. -/
theorem Valid.addRow_fresh (valid : m.Valid used) (coeffs : List T) (vars : List ArithVar)
    : (m.addRow coeffs vars).1 ∉ used := by
  obtain ⟨⟨rows, cols, linked⟩, -, -, inUse⟩ := valid
  intro isUsed
  obtain ⟨below, notPooled⟩ := (inUse _).mp isUsed
  rcases linked.requestRowIndex.was with pooled | beyond
  · exact notPooled pooled
  · exact absurd below (Nat.not_lt.mpr beyond)

omit [LinearOrder T] in
theorem Valid.removeRow (valid : m.Valid used) {rid : RowIndex} (isUsed : rid ∈ used)
    : ∃ m', m.removeRow rid = some m' ∧ m'.Valid (used.filter (· ≠ rid)) := by
  obtain ⟨⟨rows, cols, linked⟩, nonzero, clear, inUse⟩ := valid
  obtain ⟨inRange, active⟩ := (inUse rid).mp isUsed
  obtain ⟨m', rows', cols', ran, removed⟩ := linked.removeRow nonzero inRange active
  refine ⟨m', ran, ⟨rows', cols', removed.linked⟩, removed.nonzero, ?_, fun r => ?_⟩
  · exact bufferClear_of_same clear removed.mergeBuffer removed.rowInMergeBuffer
  · rw [removed.rowsLength, removed.pool, List.mem_filter, inUse]
    simp only [decide_not, Bool.not_eq_true', decide_eq_false_iff_not, List.mem_cons, not_or]
    tauto

variable [NoZeroDivisors T]

omit [LinearOrder T] in
theorem Valid.multiplyRowByConstant (valid : m.Valid used) (rid : RowIndex) {mult : T}
    (multNe : mult ≠ 0)
    : ∃ m', m.multiplyRowByConstant rid mult = some m' ∧ m'.Valid used := by
  obtain ⟨⟨rows, cols, linked⟩, nonzero, clear, inUse⟩ := valid
  obtain ⟨m', ran, scaled⟩ := linked.multiplyRowByConstant nonzero rid multNe
  refine ⟨m', ran, ⟨rows, cols, scaled.linked⟩, scaled.nonzero, ?_, inUse_of_shape scaled.shape inUse⟩
  exact bufferClear_of_same clear scaled.mergeBuffer scaled.shape.rowInMergeBuffer

/-- Adding a multiple of a row to another keeps a matrix valid. -/
theorem Valid.rowPlusRowTimesConstant (valid : m.Valid used) {target source : RowIndex} {mult : T}
    (isUsed : target ∈ used) (apart : source ≠ target) (multNe : mult ≠ 0)
    : ∃ m', m.rowPlusRowTimesConstant target source mult = some m' ∧ m'.Valid used := by
  obtain ⟨⟨rows, cols, linked⟩, nonzero, clear, inUse⟩ := valid
  obtain ⟨inRange, active⟩ := (inUse target).mp isUsed
  obtain ⟨m₁, ranLoad, buffered, loaded⟩ := linked.loadRowIntoBuffer nonzero clear source
  have sameRows : m₁.rows = m.rows := by rw [loaded]
  have samePool : m₁.pool = m.pool := by rw [loaded]
  obtain ⟨m₂, rows₂, cols₂, ranAdd, added⟩ := buffered.rowPlusBufferTimesConstant apart (sameRows ▸ inRange)
    (samePool ▸ active) multNe
  refine ⟨m₂.clearBuffer, ?_, ⟨rows₂, cols₂, added.linked.clearBuffer⟩, added.nonzero, bufferClear_clearBuffer, ?_⟩
  · simp [Matrix.rowPlusRowTimesConstant, ranLoad, ranAdd]
  · intro r
    have shape : m₂.clearBuffer.rows.length = m.rows.length ∧ m₂.clearBuffer.pool = m.pool :=
      ⟨added.shape.rows.trans (congrArg Table.length sameRows), added.shape.pool.trans samePool⟩
    rw [shape.1, shape.2]
    exact inUse r

/-- Every admissible operation on a valid matrix is defined and keeps it valid. -/
theorem Valid.step (valid : m.Valid used) {op : RowOp T} (admissible : op.Admissible m used)
    : ∃ returned m', op.apply m = some (returned, m') ∧ m'.Valid (op.inUse returned used) := by
  cases op with
  | increaseSize => exact ⟨none, _, rfl, valid.increaseSize⟩
  | addRow coeffs vars =>
      obtain ⟨sameLength, distinct, inRange, coeffNe⟩ := admissible
      exact ⟨_, _, rfl, valid.addRow distinct inRange coeffNe sameLength⟩
  | removeRow rid =>
      obtain ⟨m', ran, valid'⟩ := valid.removeRow admissible
      exact ⟨none, m', by rw [RowOp.apply, ran, Option.map_some], valid'⟩
  | multiplyRowByConstant target mult =>
      obtain ⟨m', ran, valid'⟩ := valid.multiplyRowByConstant target admissible.2
      exact ⟨none, m', by rw [RowOp.apply, ran, Option.map_some], valid'⟩
  | rowPlusRowTimesConstant target source mult =>
      obtain ⟨isUsed, -, apart, multNe⟩ := admissible
      obtain ⟨m', ran, valid'⟩ := valid.rowPlusRowTimesConstant isUsed apart multNe
      exact ⟨none, m', by rw [RowOp.apply, ran, Option.map_some], valid'⟩

/-- A run keeps matrices valid, by induction on its steps. -/
theorem RunFrom.valid {m₀ : Matrix T} {used₀ : List RowIndex} (valid : m₀.Valid used₀) (run : RunFrom m₀ used₀ m used)
    : m.Valid used := by
  induction run with
  | start => exact valid
  | step op before admissible ran ih =>
      obtain ⟨returned', m'', ran', valid'⟩ := ih.step admissible
      obtain ⟨rfl, rfl⟩ := Prod.mk.inj (Option.some.inj (ran.symm.trans ran'))
      exact valid'

/-- Every reachable matrix is valid, since the empty one is and runs keep this. -/
theorem Reachable.valid (reachable : Reachable m used) : m.Valid used :=
  RunFrom.valid valid_empty reachable

/-- Admissible runs are defined. -/
theorem Valid.observe_isSome (valid : m.Valid used) (ops : List (RowOp T))
    (admissible : AdmissibleRun ops m used)
    : (observe ops m).isSome = true := by
  rw [observe, Option.isSome_map]
  induction ops generalizing m used with
  | nil => rfl
  | cons op rest ih =>
      obtain ⟨returned, m', ran, valid'⟩ := valid.step admissible.1
      obtain ⟨⟨later, m''⟩, ranRest⟩ := Option.isSome_iff_exists.mp (ih valid' (admissible.2 returned m' ran))
      simp [applyAll, ran, ranRest]

/-- The rows that are returned for a number of empty rows. -/
def requests : Nat → List RowIndex → Nat → List RowIndex
  | 0, _, _ => []
  | n + 1, [], length => length :: requests n [] (length + 1)
  | n + 1, rid :: pool, length => rid :: requests n pool length

omit [NoZeroDivisors T] in
theorem applyAll_requests (n : Nat) (m : Matrix T)
    : ∃ m', applyAll (List.replicate n (.addRow [] [])) m = some (requests n m.pool m.rows.length, m') := by
  induction n generalizing m with
  | zero => exact ⟨m, rfl⟩
  | succ n ih =>
      obtain ⟨m', ran⟩ := ih m.requestRowIndex.2
      refine ⟨m', ?_⟩
      rw [List.replicate_succ, applyAll]
      change (applyAll _ m.requestRowIndex.2).bind (fun result => some (m.requestRowIndex.1 :: result.1, result.2)) = _
      rw [ran, Option.bind_some]
      cases pool : m.pool with
      | nil => simp [requestRowIndex, pool, requests, Table.push]
      | cons rid rest => simp [requestRowIndex, pool, requests]

theorem le_of_mem_requests {n length : Nat} {r : RowIndex} (member : r ∈ requests n [] length) : length ≤ r := by
  induction n generalizing length with
  | zero => cases member
  | succ n ih =>
      rcases List.mem_cons.mp member with rfl | later
      · exact le_rfl
      · exact (Nat.le_succ length).trans (ih later)

/-- After the released rows comes the first new row. -/
theorem length_mem_requests (pool : List RowIndex) (length : Nat) : length ∈ requests (pool.length + 1) pool length := by
  induction pool with
  | nil => exact List.mem_cons_self
  | cons rid pool ih => exact List.mem_cons_of_mem _ ih

/-- More released rows are told apart from new ones by the next new row. -/
theorem requests_ne (rid : RowIndex) (pool : List RowIndex) (length : Nat)
    : requests (pool.length + 2) (rid :: pool) length ≠ requests (pool.length + 2) [] length := by
  intro same
  have later := (List.cons.inj same).2
  have member := length_mem_requests pool length
  rw [later] at member
  exact absurd (le_of_mem_requests member) (Nat.not_succ_le_self length)

/-- Different released rows are told apart by requests. -/
theorem pool_eq_of_requests {pool pool' : List RowIndex} {length : Nat}
    (same : ∀ n, requests n pool length = requests n pool' length)
    : pool = pool' := by
  induction pool generalizing pool' with
  | nil =>
      cases pool' with
      | nil => rfl
      | cons rid' rest' => exact absurd (same _).symm (requests_ne rid' rest' length)
  | cons rid rest ih =>
      cases pool' with
      | nil => exact absurd (same _) (requests_ne rid rest length)
      | cons rid' rest' =>
          have first := (List.cons.inj (same 1)).1
          have later : rest = rest' := ih (fun n => (List.cons.inj (same (n + 1))).2)
          rw [first, later]

omit [NoZeroDivisors T] in
/-- Empty rows may always be added. -/
theorem admissible_requests (n : Nat) (m : Matrix T) (used : List RowIndex)
    : AdmissibleRun (List.replicate n (.addRow [] [])) m used := by
  induction n generalizing m used with
  | zero => trivial
  | succ n ih => exact ⟨⟨rfl, List.nodup_nil, by simp, by simp⟩, fun returned m' _ => ih m' _⟩

/-- After an assignment the rows are those of the assigned matrix. All further runs are as on it, and no row is returned
that is in use, if and only if the target had released the same rows. -/
theorem assign_copies_iff {m : Matrix T} {used : List RowIndex} (reached : Reachable m used) (target : Matrix T)
    : (assign target m).rowTerms = m.rowTerms
      ∧ (∀ ops, AdmissibleRun ops m used → (observe ops m).isSome = true)
      ∧ ((∀ ops, AdmissibleRun ops m used → observe ops (assign target m) = observe ops m)
          ∧ (∀ m' used', RunFrom (assign target m) used m' used' → ∀ coeffs vars, (m'.addRow coeffs vars).1 ∉ used')
        ↔ target.pool = m.pool) := by
  have valid := reached.valid
  obtain ⟨⟨rows, cols, linked⟩, -⟩ := reached.valid
  have isCopy := linked.assign_eq target
  refine ⟨by rw [isCopy]; rfl, valid.observe_isSome, fun ⟨sameRuns, _⟩ => ?_, fun samePool => ?_⟩
  · have sameRequests (n : Nat) : requests n target.pool m.rows.length = requests n m.pool m.rows.length := by
      have same := sameRuns _ (admissible_requests n m used)
      obtain ⟨m₁, ran⟩ := applyAll_requests n m
      obtain ⟨m₂, ranCopy⟩ := applyAll_requests n (assign target m)
      rw [observe, observe, ran, ranCopy, isCopy] at same
      exact (Prod.mk.inj (Option.some.inj same)).1
    exact pool_eq_of_requests sameRequests
  · rw [samePool] at isCopy
    have isSame : assign target m = m := isCopy
    rw [isSame]
    exact ⟨fun _ _ => rfl, fun m' used' run coeffs vars => (RunFrom.valid valid run).addRow_fresh coeffs vars⟩

end Runs

/-- A matrix with one row. -/
def single : Matrix ℚ := (Matrix.empty.increaseSize.addRow [1] [0]).2

theorem single_reachable : Reachable single [0] := by
  have one : Reachable (Matrix.empty.increaseSize : Matrix ℚ) [] := .step .increaseSize .start trivial rfl
  exact one.step (.addRow [1] [0]) ⟨rfl, by decide, by decide, by decide⟩ rfl

theorem single_removed_isSome : (single.removeRow 0).isSome = true := by
  decide +kernel

theorem single_removed_reachable : Reachable ((single.removeRow 0).get single_removed_isSome) [] := by
  have ran : (RowOp.removeRow 0).apply single = some (none, (single.removeRow 0).get single_removed_isSome) :=
    congrArg (Option.map (none, ·)) (Option.some_get single_removed_isSome).symm
  exact single_reachable.step (.removeRow 0) (List.mem_singleton_self 0) ran

/-- A matrix that released its row is assigned a matrix that uses the row, and returns the row. -/
theorem assign_returns_used_row
    : ∃ target m : Matrix ℚ, Reachable target [] ∧ Reachable m [0]
      ∧ ¬((∀ ops, AdmissibleRun ops m [0] → observe ops (assign target m) = observe ops m)
        ∧ ∀ m' used', RunFrom (assign target m) [0] m' used' → ∀ coeffs vars, (m'.addRow coeffs vars).1 ∉ used') := by
  refine ⟨_, single, single_removed_reachable, single_reachable, fun ⟨_, fresh⟩ => ?_⟩
  refine fresh _ _ .start [] [] ?_
  decide +kernel

/-- A matrix with two rows, of which it releases one. -/
def double : Matrix ℚ := (single.addRow [2] [0]).2

theorem double_removed_isSome : (double.removeRow 0).isSome = true := by
  decide +kernel

theorem double_removed_reachable : Reachable ((double.removeRow 0).get double_removed_isSome) [1] := by
  have two : Reachable double [1, 0] := single_reachable.step (.addRow [2] [0]) ⟨rfl, by decide, by decide, by decide⟩ rfl
  have ran : (RowOp.removeRow 0).apply double = some (none, (double.removeRow 0).get double_removed_isSome) :=
    congrArg (Option.map (none, ·)) (Option.some_get double_removed_isSome).symm
  exact two.step (.removeRow 0) (List.mem_cons_of_mem _ (List.mem_singleton_self 0)) ran

/-- A matrix that has released its row is assigned one that has released the same row, of two. -/
theorem assign_released
    : let target := (single.removeRow 0).get single_removed_isSome
      let m := (double.removeRow 0).get double_removed_isSome
      Reachable m [1] ∧ target.pool = [0] ∧ m.pool = [0]
        ∧ ∀ m' used', RunFrom (assign target m) [1] m' used' → ∀ coeffs vars, (m'.addRow coeffs vars).1 ∉ used' := by
  have isPool : ((single.removeRow 0).get single_removed_isSome).pool = [0] := by decide +kernel
  have isPool' : ((double.removeRow 0).get double_removed_isSome).pool = [0] := by decide +kernel
  exact ⟨double_removed_reachable, isPool, isPool',
    ((assign_copies_iff double_removed_reachable _).2.2.mpr (isPool.trans isPool'.symm)).2⟩

end Matrix

end Ava6.Arith.Linear

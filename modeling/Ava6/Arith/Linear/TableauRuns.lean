import Ava6.Arith.Linear.TableauRows

/-! Runs of tableau operations: every reachable tableau is in solved form, and its equations have
the solutions that the operations leave them.
-/

namespace Ava6.Arith.Linear

namespace Tableau

variable {σ M : Type}

inductive Op (σ : Type)
  | increaseSize
  | addRow (basic : ArithVar) (coefficients : List ℚ) (vars : List ArithVar)
  | pivot (oldBasic newBasic : ArithVar) (cb : CoefficientChangeCallback σ)
  | removeBasicRow (basic : ArithVar)

def Op.apply (t : Tableau) (s : σ) : Op σ → Option (Tableau × σ)
  | .increaseSize => some (t.increaseSize, s)
  | .addRow basic coefficients vars => (t.addRow basic coefficients vars).map (·, s)
  | .pivot oldBasic newBasic cb => t.pivot oldBasic newBasic cb s
  | .removeBasicRow basic => (t.removeBasicRow basic).map (·, s)

/-- What the callers of each operation keep to. A row is added for a variable that no row
uses yet; a pivot is on an entry of the row.
-/
def Op.Admissible (t : Tableau) : Op σ → Prop
  | .increaseSize => True
  | .addRow basic coefficients vars =>
      basic < t.columns.length ∧ t.colIds basic = [] ∧ basic ∉ vars
      ∧ coefficients.length = vars.length ∧ vars.Nodup ∧ (∀ x ∈ vars, x < t.columns.length)
      ∧ ∀ q ∈ coefficients, q ≠ 0
  | .pivot oldBasic newBasic _ =>
      t.isBasic newBasic = false
      ∧ ∃ ridx, t.basic2RowIndex oldBasic = some ridx ∧ t.coeffAt ridx newBasic ≠ 0
  | .removeBasicRow basic => t.isBasic basic = true

/-- Which assignments satisfy the equations after the operation, in terms of those before. -/
def Op.Solution [AddCommGroup M] [Module ℚ M] (t : Tableau) (v : ArithVar → M) : Op σ → Prop
  | .increaseSize | .pivot _ _ _ => t.toMatrix.Satisfies v
  | .addRow basic coefficients vars =>
      t.toMatrix.Satisfies v ∧ v basic = Matrix.termsValue (coefficients.zip vars) v
  | .removeBasicRow basic => ∃ x, t.toMatrix.Satisfies (Function.update v basic x)

/-- The tableaux of all runs from the empty one. -/
inductive Reachable (s₀ : σ) : Tableau → σ → Prop
  | empty : Reachable s₀ Tableau.empty s₀
  | step {t t' : Tableau} {s s' : σ} (op : Op σ) (before : Reachable s₀ t s)
    (admissible : op.Admissible t) (ran : op.apply t s = some (t', s')) : Reachable s₀ t' s'

/-- The solved form, read off the row lists and the column lists. -/
structure SolvedForm (t : Tableau) : Prop where
  basicRow {b : ArithVar} {r : RowIndex} (basic : t.basic2RowIndex b = some r)
    : ∃ id, t.colIds b = [id] ∧ id ∈ t.rowIds r ∧ (t.entries.get id).coefficient = -1
  nonzero {r : RowIndex} {id : EntryID} (member : id ∈ t.rowIds r)
    : (t.entries.get id).coefficient ≠ 0
  rowEntry {r : RowIndex} {id : EntryID} (member : id ∈ t.rowIds r)
    : (t.entries.get id).rowIndex = some r ∧ ∃ c, id ∈ t.colIds c
  colEntry {c : ArithVar} {id : EntryID} (member : id ∈ t.colIds c)
    : (t.entries.get id).colVar = some c ∧ ∃ r, id ∈ t.rowIds r
  unique {r : RowIndex} {c : ArithVar} {id id' : EntryID}
    (first : id ∈ t.rowIds r ∧ id ∈ t.colIds c) (second : id' ∈ t.rowIds r ∧ id' ∈ t.colIds c)
    : id = id'
  rowSize (r : RowIndex) : t.getRowLength r = (t.rowIds r).length ∧ (t.rowIds r).Nodup
  colSize (c : ArithVar) : t.getColLength c = (t.colIds c).length ∧ (t.colIds c).Nodup
  inverse (b : ArithVar) (r : RowIndex) : t.basic2RowIndex b = some r ↔ t.rowIndex2basic r = some b
  rowsInUse {r : RowIndex} {id : EntryID} (member : id ∈ t.rowIds r)
    : ∃ b, t.rowIndex2basic r = some b
  bufferClear : t.toMatrix.BufferClear

variable {t : Tableau} {rows : RowIndex → List EntryID} {cols : ArithVar → List EntryID}

/-- A basic variable has one entry. -/
theorem Solved.basicRow (solved : t.Solved rows cols) {b : ArithVar} {r : RowIndex}
    (basic : t.basic2RowIndex b = some r)
    : ∃ id, cols b = [id] ∧ id ∈ rows r ∧ (t.entries.get id).coefficient = -1 := by
  have minusOne := solved.solved basic
  have present : t.coeffAt r b ≠ 0 := by
    rw [minusOne]
    norm_num
  obtain ⟨id, inRow, inCol⟩ := (solved.linked.coeffAt_ne_zero solved.nonzero).mp present
  refine ⟨id, ?_, inRow, ?_⟩
  · have only (other : EntryID) (member : other ∈ cols b) : other = id := by
      obtain ⟨r', otherRow, -⟩ := solved.linked.row_of_col member
      have sameRow : r' = r := by
        by_contra differs
        exact (solved.linked.coeffAt_ne_zero solved.nonzero).mpr ⟨other, otherRow, member⟩
          (solved.alone basic differs)
      exact solved.linked.unique ⟨sameRow ▸ otherRow, member⟩ ⟨inRow, inCol⟩
    have distinct := solved.linked.col.nodup b
    rw [List.eq_replicate_of_mem only] at distinct inCol ⊢
    have single := List.nodup_replicate.mp distinct
    have positive := List.length_pos_of_mem inCol
    rw [List.length_replicate] at positive
    rw [Nat.le_antisymm single positive]
    rfl
  · rw [← minusOne]
    exact (Matrix.coeffAt_of_entryAt (solved.linked.entryAt_eq_some.mpr ⟨inRow, inCol⟩)).symm

theorem Solved.solvedForm (solved : t.Solved rows cols) : t.SolvedForm := by
  have rowIds := solved.linked.rowIds
  have colIds := solved.linked.colIds
  constructor
  · intro b r basic
    rw [rowIds, colIds]
    exact solved.basicRow basic
  · intro r id member
    rw [rowIds] at member
    obtain ⟨below, placed⟩ := solved.linked.mem_row.mp member
    exact solved.nonzero id below (by simp [placed])
  · intro r id member
    rw [rowIds] at member
    obtain ⟨c, inCol, -⟩ := solved.linked.col_of_row member
    exact ⟨(solved.linked.mem_row.mp member).2, c, by rwa [colIds]⟩
  · intro c id member
    rw [colIds] at member
    obtain ⟨r, inRow, -⟩ := solved.linked.row_of_col member
    exact ⟨(solved.linked.mem_col.mp member).2, r, by rwa [rowIds]⟩
  · intro r c id id' first second
    rw [rowIds, colIds] at first second
    exact solved.linked.unique first second
  · intro r
    rw [rowIds]
    exact ⟨solved.linked.row.size r, solved.linked.row.nodup r⟩
  · intro c
    rw [colIds]
    exact ⟨solved.linked.col.size c, solved.linked.col.nodup c⟩
  · exact solved.inverse
  · intro r id member
    rw [rowIds] at member
    refine (solved.inUse r).mp ⟨solved.linked.row.bound member, fun pooled => ?_⟩
    rw [(solved.linked.pool pooled).2] at member
    simp at member
  · exact solved.clear

theorem solved_empty : Tableau.empty.Solved (fun _ => []) (fun _ => []) := by
  have side (isRow : Bool) : Side isRow (T := ℚ) ⟨⟨0, fun _ => .unused⟩, [], 0⟩
      ⟨0, fun _ => .empty⟩ (fun _ => []) := by
    refine ⟨fun _ => rfl, fun _ => rfl, fun _ => List.nodup_nil, ?_, ?_⟩
    · simp
    · simp
  refine ⟨⟨side true, side false, ?_, ?_, List.nodup_nil, ?_, rfl, rfl, List.nodup_nil, ?_⟩, ?_,
    ⟨fun _ => rfl, rfl⟩, ?_, ?_, ?_, ?_⟩
  · intro id below
    exact absurd below (Nat.not_lt_zero id)
  · intro id
    simp [Tableau.empty, Matrix.empty]
  · simp
  · simp [Tableau.empty, Matrix.empty]
  · intro id below
    exact absurd below (Nat.not_lt_zero id)
  · simp [Tableau.empty]
  · simp [Tableau.empty, Matrix.empty]
  · simp [Tableau.empty]
  · simp [Tableau.empty]

theorem Solved.increaseSize (solved : t.Solved rows cols) : t.increaseSize.Solved rows cols :=
  ⟨solved.linked.increaseSize, solved.nonzero, solved.clear, solved.inverse, solved.inUse,
    solved.solved, solved.alone⟩

/-- A new column has no coefficients. -/
theorem Solved.satisfies_increaseSize [AddCommGroup M] [Module ℚ M] (solved : t.Solved rows cols)
    (v : ArithVar → M)
    : t.increaseSize.toMatrix.Satisfies v ↔ t.toMatrix.Satisfies v := by
  rw [solved.increaseSize.linked.satisfies_iff, solved.linked.satisfies_iff]
  refine forall_congr' (fun r => ?_)
  have grown : t.increaseSize.toMatrix.rowSum v r = t.toMatrix.rowSum v r := by
    have last := solved.linked.coeffAt_of_column (le_refl t.columns.length) r
    have same (c : ArithVar) : t.increaseSize.coeffAt r c = t.coeffAt r c := rfl
    simp only [Matrix.rowSum, same]
    exact (Finset.sum_range_succ _ _).trans (by rw [last, zero_smul, add_zero])
  rw [grown]

theorem Solved.addable (solved : t.Solved rows cols) {basic : ArithVar} {coefficients : List ℚ}
    {vars : List ArithVar}
    (admissible : (Op.addRow (σ := σ) basic coefficients vars).Admissible t)
    : t.Addable cols basic (coefficients.zip vars) := by
  obtain ⟨inRange, unused, notIn, lengths, distinct, varsInRange, coeffNe⟩ := admissible
  have inVars {term : ℚ × ArithVar} (member : term ∈ coefficients.zip vars) : term.2 ∈ vars :=
    (List.of_mem_zip member).2
  refine ⟨inRange, fun term member => varsInRange term.2 (inVars member), ?_,
    fun term member => coeffNe term.1 (List.of_mem_zip member).1, ?_, ?_⟩
  · rwa [List.map_snd_zip (by omega)]
  · rwa [solved.linked.colIds] at unused
  · rintro term member rfl
    exact notIn (inVars member)

/-- One operation. -/
theorem Solved.step (solved : t.Solved rows cols) (op : Op σ) (s : σ)
    (admissible : op.Admissible t)
    : ∃ t' s' rows' cols', op.apply t s = some (t', s') ∧ t'.Solved rows' cols'
      ∧ ∀ {M : Type} [AddCommGroup M] [Module ℚ M] (v : ArithVar → M),
          t'.toMatrix.Satisfies v ↔ op.Solution t v := by
  cases op with
  | increaseSize =>
      exact ⟨_, s, rows, cols, rfl, solved.increaseSize, solved.satisfies_increaseSize⟩
  | addRow basic coefficients vars =>
      have addable := solved.addable admissible
      obtain ⟨t', rows', cols', newRow, ran, solved', inserted⟩ := solved.addRow addable
      exact ⟨t', s, rows', cols', by simp [Op.apply, ran], solved',
        inserted.satisfies_iff addable solved solved'.linked⟩
  | pivot oldBasic newBasic cb =>
      obtain ⟨nonbasic, ridx, basic, entry⟩ := admissible
      have nonbasic' : t.basic2RowIndex newBasic = none := by simpa [isBasic] using nonbasic
      obtain ⟨t', s', rows', cols', ran, solved', pivoted⟩ :=
        solved.pivot cb s basic nonbasic' entry
      exact ⟨t', s', rows', cols', ran, solved',
        pivoted.satisfies_iff solved.linked solved'.linked entry⟩
  | removeBasicRow basic =>
      obtain ⟨r, isBasic⟩ := Option.isSome_iff_exists.mp admissible
      obtain ⟨t', rows', cols', ran, solved', removed⟩ := solved.removeBasicRow isBasic
      exact ⟨t', s, rows', cols', by simp [Op.apply, ran], solved',
        solved.satisfies_removed isBasic removed⟩

/-- Every reachable tableau is solved for its basic variables, by induction on the run. -/
theorem Reachable.solved {s₀ s : σ} (reachable : Reachable s₀ t s)
    : ∃ rows cols, t.Solved rows cols := by
  induction reachable with
  | empty => exact ⟨_, _, solved_empty⟩
  | step op before admissible ran ih =>
      obtain ⟨rows, cols, solved⟩ := ih
      obtain ⟨t', s', rows', cols', ran', solved', -⟩ := solved.step op _ admissible
      rw [ran] at ran'
      obtain ⟨rfl, rfl⟩ := Prod.mk.inj (Option.some.inj ran')
      exact ⟨rows', cols', solved'⟩

/-- Every run keeps the tableau in solved form, each operation returns, and the assignments that
satisfy all rows are those the operation leaves.
-/
theorem reachable_solvedForm {s₀ s : σ} (reachable : Reachable s₀ t s)
    : t.SolvedForm
      ∧ ∀ op : Op σ, op.Admissible t → ∃ t' s', op.apply t s = some (t', s') ∧ t'.SolvedForm
        ∧ ∀ {M : Type} [AddCommGroup M] [Module ℚ M] (v : ArithVar → M),
            t'.toMatrix.Satisfies v ↔ op.Solution t v := by
  obtain ⟨rows, cols, solved⟩ := reachable.solved
  refine ⟨solved.solvedForm, fun op admissible => ?_⟩
  obtain ⟨t', s', rows', cols', ran, solved', solutions⟩ := solved.step op s admissible
  exact ⟨t', s', ran, solved'.solvedForm, solutions⟩

/-- Two variables, with the second one equal to twice the first one. -/
def doubled : Option Tableau := Tableau.empty.increaseSize.increaseSize.addRow 1 [2] [0]

theorem doubled_isSome : doubled.isSome = true := by
  decide +kernel

theorem doubled_reachable : Reachable () (doubled.get doubled_isSome) () := by
  have two : Reachable () Tableau.empty.increaseSize.increaseSize () :=
    .step .increaseSize (.step .increaseSize .empty trivial rfl) trivial rfl
  refine two.step (.addRow 1 [2] [0]) ⟨by decide, by decide, by decide, rfl, by decide, by decide,
    by decide⟩ ?_
  exact congrArg (Option.map (·, ())) (Option.some_get doubled_isSome).symm

/-- A pivot makes the first variable basic. -/
theorem reachable_solvedForm_doubled
    : ∃ t' : Tableau, (doubled.get doubled_isSome).SolvedForm
      ∧ (doubled.get doubled_isSome).pivot 1 0 NoEffectCCCB () = some (t', ()) ∧ t'.SolvedForm
      ∧ ∀ v : ArithVar → ℚ, t'.toMatrix.Satisfies v
          ↔ (doubled.get doubled_isSome).toMatrix.Satisfies v := by
  obtain ⟨solved, steps⟩ := reachable_solvedForm doubled_reachable
  obtain ⟨t', s', ran, solved', solutions⟩ := steps (.pivot 1 0 NoEffectCCCB)
    ⟨by decide +kernel, 0, by decide +kernel, by decide +kernel⟩
  exact ⟨t', solved, ran, solved', solutions⟩

theorem doubled_removed_isSome
    : ((doubled.get doubled_isSome).removeBasicRow 1).isSome = true := by
  decide +kernel

/-- Removing the row of a basic variable lets it take other values. -/
theorem removeBasicRow_adds_solutions
    : ∃ t t' : Tableau, Reachable () t ()
      ∧ (Op.removeBasicRow 1 : Op Unit).Admissible t
      ∧ (Op.removeBasicRow 1).apply t () = some (t', ())
      ∧ t'.toMatrix.Satisfies (fun x => if x = 1 then (1 : ℚ) else 0)
      ∧ ¬t.toMatrix.Satisfies (fun x => if x = 1 then (1 : ℚ) else 0) := by
  refine ⟨doubled.get doubled_isSome,
    ((doubled.get doubled_isSome).removeBasicRow 1).get doubled_removed_isSome,
    doubled_reachable, ?_, ?_, ?_, ?_⟩
  · show (doubled.get doubled_isSome).isBasic 1 = true
    decide +kernel
  · exact congrArg (Option.map (·, ())) (Option.some_get doubled_removed_isSome).symm
  · unfold Matrix.Satisfies
    decide +kernel
  · unfold Matrix.Satisfies
    decide +kernel

end Tableau

end Ava6.Arith.Linear

import Mathlib.Tactic.Ring
import Mathlib.Tactic.Abel
import Mathlib.Tactic.Module
import Mathlib.Tactic.FieldSimp
import Ava6.Arith.Linear.RowEquations

/-! The solved form of a tableau and pivoting: one row is scaled, and multiples of it cancel the new
basic variable on all other rows, along a column list that shrinks meanwhile.
-/

namespace Ava6.Arith.Linear

open Library.LinkedList Finset

namespace Tableau

/-- Each basic variable has coefficient -1 on its own row and occurs on no other; the rows in use
are those of the basic variables.
-/
structure Solved (t : Tableau) (rows : RowIndex → List EntryID) (cols : ArithVar → List EntryID)
    : Prop where
  linked : t.toMatrix.Linked rows cols
  nonzero : t.toMatrix.Nonzero
  clear : t.toMatrix.BufferClear
  inverse (b : ArithVar) (r : RowIndex) : t.basic2RowIndex b = some r ↔ t.rowIndex2basic r = some b
  inUse (r : RowIndex) : (r < t.rows.length ∧ r ∉ t.pool) ↔ ∃ b, t.rowIndex2basic r = some b
  solved {b : ArithVar} {r : RowIndex} (basic : t.basic2RowIndex b = some r) : t.coeffAt r b = -1
  alone {b : ArithVar} {r r' : RowIndex} (basic : t.basic2RowIndex b = some r) (other : r' ≠ r)
    : t.coeffAt r' b = 0

variable {t : Tableau} {rows : RowIndex → List EntryID} {cols : ArithVar → List EntryID}
  {r ridx : RowIndex} {b : ArithVar} {σ M : Type}

theorem Solved.inRange (solved : t.Solved rows cols) (basic : t.basic2RowIndex b = some r)
    : b < t.columns.length := by
  by_contra outside
  have zero := solved.linked.coeffAt_of_column (Nat.not_lt.mp outside) r
  rw [solved.solved basic] at zero
  norm_num at zero

theorem Solved.active (solved : t.Solved rows cols) (basic : t.basic2RowIndex b = some r)
    : r < t.rows.length ∧ r ∉ t.pool :=
  (solved.inUse r).mpr ⟨b, (solved.inverse b r).mp basic⟩

/-- Distinct basic variables have distinct rows. -/
theorem Solved.row_injective (solved : t.Solved rows cols) {b' : ArithVar}
    (basic : t.basic2RowIndex b = some r) (basic' : t.basic2RowIndex b' = some r)
    : b = b' := by
  have first := (solved.inverse b r).mp basic
  have second := (solved.inverse b' r).mp basic'
  exact Option.some.inj (first.symm.trans second)

/-- State of the loop over the column of the new basic variable: the entries kept lie on the pivot
row, and each row is as it was or has the multiple of the pivot row added.
-/
structure Pivoting (m₀ : Matrix ℚ) (ridx : RowIndex) (newBasic : ArithVar)
    (ahead : List EntryID) (m : Matrix ℚ) (rows : RowIndex → List EntryID)
    (cols : ArithVar → List EntryID) : Prop where
  buffered : Matrix.Buffered m rows cols ridx
  column : ∃ kept, cols newBasic = kept ++ ahead ∧ ∀ id ∈ kept, id ∈ rows ridx
  coeffAt (r : RowIndex)
    : (∀ c, m.coeffAt r c = m₀.coeffAt r c)
      ∨ r ≠ ridx ∧ ∀ c, m.coeffAt r c
          = m₀.coeffAt r c + m₀.coeffAt r newBasic * m₀.coeffAt ridx c
  shape : Matrix.SameShape m₀ m

variable {m₀ m : Matrix ℚ} {newBasic : ArithVar} {id : EntryID} {ahead : List EntryID}

/-- Both ways to add the buffered row have the same outcome. -/
theorem pivotEntry_eq (cb : CoefficientChangeCallback σ) (s : σ)
    (buffered : Matrix.Buffered m rows cols ridx) (inRow : id ∈ rows r) (other : r ≠ ridx)
    (active : r ∉ m.pool)
    : ∃ m' s' rows' cols', pivotEntry cb ridx id (m, s) = some (m', s')
      ∧ Matrix.RowAdded m m' rows rows' cols cols' r ridx (m.entries.get id).coefficient := by
  obtain ⟨below, placed⟩ := buffered.linked.mem_row.mp inRow
  have multNe := buffered.nonzero id below (by simp [placed])
  have inRange := buffered.linked.row.bound inRow
  by_cases usable : cb.canUseRow s r
  · obtain ⟨m', s', rows', cols', ran, added⟩ := buffered.rowPlusBufferTimesConstantNotifying cb s
      (Ne.symm other) inRange active multNe
    exact ⟨m', s', rows', cols', by simp [pivotEntry, placed, other, usable, ran], added⟩
  · obtain ⟨m', rows', cols', ran, added⟩ := buffered.rowPlusBufferTimesConstant
      (Ne.symm other) inRange active multNe
    exact ⟨m', s, rows', cols', by simp [pivotEntry, placed, other, usable, ran], added⟩

/-- One step down the column of the new basic variable eliminates it from another row. -/
theorem Pivoting.step (cb : CoefficientChangeCallback σ) (s : σ)
    (minusOne : m₀.coeffAt ridx newBasic = -1)
    (pivoting : Pivoting m₀ ridx newBasic (id :: ahead) m rows cols)
    : m.nextInCol id = ahead.head?
      ∧ ∃ m' s' rows' cols', pivotEntry cb ridx id (m, s) = some (m', s')
        ∧ Pivoting m₀ ridx newBasic ahead m' rows' cols' := by
  have linked := pivoting.buffered.linked
  obtain ⟨kept, columnEq, onPivotRow⟩ := pivoting.column
  have inCol : id ∈ cols newBasic := by simp [columnEq]
  obtain ⟨r, inRow, placed⟩ := linked.row_of_col inCol
  have next : m.nextInCol id = ahead.head? := by
    have chain := linked.col.chain newBasic
    rw [columnEq] at chain
    exact chain.next_eq
  refine ⟨next, ?_⟩
  by_cases isPivot : r = ridx
  · refine ⟨m, s, rows, cols, by simp [pivotEntry, placed, isPivot], pivoting.buffered,
      ⟨kept ++ [id], by simp [columnEq], ?_⟩, pivoting.coeffAt, pivoting.shape⟩
    intro other member
    rcases List.mem_append.mp member with old | new
    · exact onPivotRow other old
    · rw [List.mem_singleton.mp new, ← isPivot]
      exact inRow
  · have active : r ∉ m.pool := by
      intro pooled
      rw [(linked.pool pooled).2] at inRow
      simp at inRow
    obtain ⟨m', s', rows', cols', ran, added⟩ :=
      pivotEntry_eq cb s pivoting.buffered inRow isPivot active
    have own := Matrix.coeffAt_of_entryAt (linked.entryAt_eq_some.mpr ⟨inRow, inCol⟩)
    have ownNe : m.coeffAt r newBasic ≠ 0 :=
      (linked.coeffAt_ne_zero pivoting.buffered.nonzero).mpr ⟨id, inRow, inCol⟩
    have pivotRow (c : ArithVar) : m.coeffAt ridx c = m₀.coeffAt ridx c :=
      (pivoting.coeffAt ridx).elim (fun same => same c) (fun both => absurd rfl both.1)
    -- The row was not visited: its entry would have been cancelled.
    have untouched (c : ArithVar) : m.coeffAt r c = m₀.coeffAt r c := by
      rcases pivoting.coeffAt r with same | ⟨-, changed⟩
      · exact same c
      · rw [changed newBasic, minusOne] at ownNe
        exact absurd (by ring) ownNe
    have cancels : m.sumAt r ridx (m.entries.get id).coefficient newBasic = 0 := by
      rw [Matrix.sumAt, ← own, pivotRow, minusOne]
      ring
    refine ⟨m', s', rows', cols', ran, added.buffered pivoting.buffered (Ne.symm isPivot), ?_, ?_,
      pivoting.shape.trans added.shape⟩
    · refine ⟨kept, ?_, ?_⟩
      · have distinct := linked.col.nodup newBasic
        rw [columnEq] at distinct
        have absent : id ∉ kept := fun member =>
          (List.nodup_append.mp distinct).2.2 id member id (by simp) rfl
        rw [added.colTarget inRow inCol, if_pos cancels, columnEq,
          List.erase_append_right _ absent, List.erase_cons_head]
      · intro other member
        rw [added.rowOther (Ne.symm isPivot)]
        exact onPivotRow other member
    · intro r'
      by_cases isRow : r' = r
      · subst isRow
        refine Or.inr ⟨isPivot, fun c => ?_⟩
        rw [added.coeffAt, if_pos rfl, Matrix.sumAt, ← own, untouched, untouched, pivotRow]
      · have kept' (c : ArithVar) : m'.coeffAt r' c = m.coeffAt r' c := by
          rw [added.coeffAt, if_neg isRow]
        simpa only [kept'] using pivoting.coeffAt r'

/-- After the loop every other row has its multiple of the pivot row added. -/
theorem Pivoting.finish (pivoting : Pivoting m₀ ridx newBasic [] m rows cols) (other : r ≠ ridx)
    (c : ArithVar)
    : m.coeffAt r c = m₀.coeffAt r c + m₀.coeffAt r newBasic * m₀.coeffAt ridx c := by
  rcases pivoting.coeffAt r with same | ⟨-, changed⟩
  · obtain ⟨kept, columnEq, onPivotRow⟩ := pivoting.column
    have zero : m.coeffAt r newBasic = 0 := by
      by_contra differs
      obtain ⟨id, inRow, inCol⟩ :=
        (pivoting.buffered.linked.coeffAt_ne_zero pivoting.buffered.nonzero).mp differs
      have inKept : id ∈ kept := by simpa [columnEq] using inCol
      exact other (pivoting.buffered.linked.row.eq_of_mem inRow (onPivotRow id inKept))
    rw [same c, ← same newBasic, zero, zero_mul, add_zero]
  · exact changed c

/-- The pivot row solved for the new basic variable. -/
def pivotRow (t : Tableau) (ridx : RowIndex) (newBasic c : ArithVar) : ℚ :=
  t.coeffAt ridx c * -(t.coeffAt ridx newBasic)⁻¹

/-- The outcome of a pivot in terms of coefficients. -/
structure Pivoted (t t' : Tableau) (ridx : RowIndex) (oldBasic newBasic : ArithVar) : Prop where
  coeffPivot (c : ArithVar) : t'.coeffAt ridx c = t.pivotRow ridx newBasic c
  coeffOther {r : RowIndex} (other : r ≠ ridx) (c : ArithVar)
    : t'.coeffAt r c = t.coeffAt r c + t.coeffAt r newBasic * t.pivotRow ridx newBasic c
  basic2RowIndex : t'.basic2RowIndex
    = Function.update (Function.update t.basic2RowIndex oldBasic none) newBasic (some ridx)
  rowIndex2basic : t'.rowIndex2basic = Function.update t.rowIndex2basic ridx (some newBasic)
  rowsLength : t'.rows.length = t.rows.length
  columnsLength : t'.columns.length = t.columns.length
  pool : t'.pool = t.pool

theorem Solved.pivot_ran (solved : t.Solved rows cols) (cb : CoefficientChangeCallback σ) (s : σ)
    {oldBasic newBasic : ArithVar} (basic : t.basic2RowIndex oldBasic = some ridx)
    (entry : t.coeffAt ridx newBasic ≠ 0)
    : ∃ t' s' rows' cols', t.pivot oldBasic newBasic cb s = some (t', s')
      ∧ t'.toMatrix.Linked rows' cols' ∧ t'.toMatrix.Nonzero ∧ t'.toMatrix.BufferClear
      ∧ Pivoted t t' ridx oldBasic newBasic := by
  obtain ⟨id, member⟩ := (solved.linked.coeffAt_ne_zero solved.nonzero).mp entry
  have found := solved.linked.entryAt_eq_some.mpr member
  have a_rs := Matrix.coeffAt_of_entryAt found
  have multNe : -(t.coeffAt ridx newBasic)⁻¹ ≠ 0 := neg_ne_zero.mpr (inv_ne_zero entry)
  obtain ⟨m₁, ranScale, scaled⟩ :=
    solved.linked.multiplyRowByConstant solved.nonzero ridx multNe
  have clear₁ : m₁.BufferClear := by
    refine ⟨fun c => ?_, scaled.shape.rowInMergeBuffer.trans solved.clear.2⟩
    rw [scaled.mergeBuffer]
    exact solved.clear.1 c
  obtain ⟨m₂, ranLoad, buffered, loaded⟩ :=
    scaled.linked.loadRowIntoBuffer scaled.nonzero clear₁ ridx
  have coeff₂ (r : RowIndex) (c : ArithVar) : m₂.coeffAt r c = m₁.coeffAt r c := by
    rw [loaded]
    rfl
  have minusOne : m₂.coeffAt ridx newBasic = -1 := by
    rw [coeff₂, scaled.coeffAt, if_pos rfl, mul_neg, mul_inv_cancel₀ entry]
  obtain ⟨⟨m₃, s₃⟩, ranLoop, rows₃, cols₃, pivoting⟩ := whileEach_of_invariant
    (fun (state : Matrix ℚ × σ) => state.1.nextInCol) (pivotEntry cb ridx)
    (fun _ ahead state => ∃ rows' cols', Pivoting m₂ ridx newBasic ahead state.1 rows' cols')
    (fun _ id ahead state ⟨rows', cols', pivoting⟩ => by
      obtain ⟨next, m', s', rows'', cols'', ran, after⟩ := pivoting.step cb state.2 minusOne
      exact ⟨next, (m', s'), ran, rows'', cols'', after⟩)
    (s := (m₂, cb.multiplyRow ridx (-SignType.sign (t.coeffAt ridx newBasic)) s))
    ⟨rows, cols, buffered, ⟨[], rfl, by simp⟩, fun r => Or.inl (fun c => rfl), .refl m₂⟩
    buffered.linked.col_length
  rw [← (buffered.linked.col.chain newBasic).head] at ranLoop
  let t' : Tableau :=
    { toMatrix := m₃.clearBuffer
      basic2RowIndex :=
        Function.update (Function.update t.basic2RowIndex oldBasic none) newBasic (some ridx)
      rowIndex2basic := Function.update t.rowIndex2basic ridx (some newBasic) }
  have shape := scaled.shape
  have shape₂ : m₂.rows.length = m₁.rows.length ∧ m₂.columns.length = m₁.columns.length
      ∧ m₂.pool = m₁.pool := by
    rw [loaded]
    exact ⟨rfl, rfl, rfl⟩
  refine ⟨t', s₃, rows₃, cols₃, ?_, pivoting.buffered.linked.clearBuffer,
    pivoting.buffered.nonzero, Matrix.bufferClear_clearBuffer, ?_, ?_, rfl, rfl, ?_, ?_, ?_⟩
  · simp only [Tableau.pivot, rowPivot, basic, solved.linked.findOnRow found, ← a_rs, ranScale,
      ranLoad, ranLoop, Option.bind_eq_bind, Option.bind_some, Option.pure_def, t']
  · intro c
    have same : m₃.coeffAt ridx c = m₂.coeffAt ridx c :=
      (pivoting.coeffAt ridx).elim (fun same => same c) (fun both => absurd rfl both.1)
    have own : m₁.coeffAt ridx c = t.pivotRow ridx newBasic c := by
      rw [scaled.coeffAt, if_pos rfl]
      rfl
    exact same.trans ((coeff₂ ridx c).trans own)
  · intro r other c
    have final := pivoting.finish other c
    rw [coeff₂, coeff₂, coeff₂, scaled.coeffAt, scaled.coeffAt, scaled.coeffAt, if_neg other,
      if_neg other, if_pos rfl] at final
    exact final
  · exact pivoting.shape.rows.trans (shape₂.1.trans shape.rows)
  · exact pivoting.shape.columns.trans (shape₂.2.1.trans shape.columns)
  · exact pivoting.shape.pool.trans (shape₂.2.2.trans shape.pool)

section Outcome

variable {t' : Tableau} {rows' : RowIndex → List EntryID} {cols' : ArithVar → List EntryID}
  {oldBasic : ArithVar}

/-- The maps between rows and basic variables are inverse again after a pivot. -/
theorem Pivoted.inverse (pivoted : Pivoted t t' ridx oldBasic newBasic) (solved : t.Solved rows cols)
    (basic : t.basic2RowIndex oldBasic = some ridx) (nonbasic : t.basic2RowIndex newBasic = none)
    (b : ArithVar) (r : RowIndex)
    : t'.basic2RowIndex b = some r ↔ t'.rowIndex2basic r = some b := by
  rw [pivoted.basic2RowIndex, pivoted.rowIndex2basic]
  by_cases isNew : b = newBasic
  · subst isNew
    rw [Function.update_self]
    by_cases isPivot : r = ridx
    · simp [isPivot]
    · rw [Function.update_of_ne isPivot, ← solved.inverse, nonbasic]
      simp [Ne.symm isPivot]
  · rw [Function.update_of_ne isNew]
    by_cases isOld : b = oldBasic
    · subst isOld
      rw [Function.update_self]
      by_cases isPivot : r = ridx
      · simp [isPivot, Ne.symm isNew]
      · rw [Function.update_of_ne isPivot, ← solved.inverse, basic]
        simp [Ne.symm isPivot]
    · rw [Function.update_of_ne isOld]
      by_cases isPivot : r = ridx
      · subst isPivot
        rw [Function.update_self]
        constructor
        · exact fun other => absurd (solved.row_injective other basic) isOld
        · exact fun same => absurd (Option.some.inj same).symm isNew
      · rw [Function.update_of_ne isPivot]
        exact solved.inverse b r

/-- The rows are scaled by a number other than zero, or have a multiple of that row added. -/
theorem Pivoted.satisfies_iff [AddCommGroup M] [Module ℚ M]
    (pivoted : Pivoted t t' ridx oldBasic newBasic) (linked : t.toMatrix.Linked rows cols)
    (linked' : t'.toMatrix.Linked rows' cols') (entry : t.coeffAt ridx newBasic ≠ 0)
    (v : ArithVar → M)
    : t'.toMatrix.Satisfies v ↔ t.toMatrix.Satisfies v := by
  let k := -(t.coeffAt ridx newBasic)⁻¹
  have kNe : k ≠ 0 := neg_ne_zero.mpr (inv_ne_zero entry)
  have pivotSum : t'.toMatrix.rowSum v ridx = k • t.toMatrix.rowSum v ridx := by
    have sum := Matrix.rowSum_of_combination v k 0 ridx ridx ridx pivoted.columnsLength
      (fun c => by
        rw [pivoted.coeffPivot, pivotRow, mul_comm]
        ring)
    simpa using sum
  have otherSum {r : RowIndex} (other : r ≠ ridx) : t'.toMatrix.rowSum v r
      = t.toMatrix.rowSum v r + (t.coeffAt r newBasic * k) • t.toMatrix.rowSum v ridx := by
    have sum := Matrix.rowSum_of_combination v 1 (t.coeffAt r newBasic * k) r r ridx
      pivoted.columnsLength (fun c => by
        rw [pivoted.coeffOther other, pivotRow]
        ring)
    simpa using sum
  rw [linked'.satisfies_iff, linked.satisfies_iff]
  constructor
  · intro holds r
    have pivotZero : t.toMatrix.rowSum v ridx = 0 := by
      have zero := holds ridx
      rw [pivotSum] at zero
      exact (smul_eq_zero.mp zero).resolve_left kNe
    by_cases isPivot : r = ridx
    · rw [isPivot]
      exact pivotZero
    · have zero := holds r
      rwa [otherSum isPivot, pivotZero, smul_zero, add_zero] at zero
  · intro holds r
    by_cases isPivot : r = ridx
    · rw [isPivot, pivotSum, holds ridx, smul_zero]
    · rw [otherSum isPivot, holds r, holds ridx, smul_zero, add_zero]

/-- A pivot exchanges the basic variables of a row, and the tableau is solved for the basic variables again.
-/
theorem Solved.pivot (solved : t.Solved rows cols) (cb : CoefficientChangeCallback σ) (s : σ)
    (basic : t.basic2RowIndex oldBasic = some ridx) (nonbasic : t.basic2RowIndex newBasic = none)
    (entry : t.coeffAt ridx newBasic ≠ 0)
    : ∃ t' s' rows' cols', t.pivot oldBasic newBasic cb s = some (t', s')
      ∧ t'.Solved rows' cols' ∧ Pivoted t t' ridx oldBasic newBasic := by
  obtain ⟨t', s', rows', cols', ran, linked, nonzero, clear, pivoted⟩ :=
    solved.pivot_ran cb s basic entry
  refine ⟨t', s', rows', cols', ran, ⟨linked, nonzero, clear,
    pivoted.inverse solved basic nonbasic, ?_, ?_, ?_⟩, pivoted⟩
  · intro r
    rw [pivoted.rowsLength, pivoted.pool, solved.inUse r, pivoted.rowIndex2basic]
    by_cases isPivot : r = ridx
    · subst isPivot
      rw [Function.update_self]
      exact ⟨fun _ => ⟨newBasic, rfl⟩, fun _ => ⟨oldBasic, (solved.inverse _ _).mp basic⟩⟩
    · rw [Function.update_of_ne isPivot]
  · intro b r isBasic
    rw [pivoted.basic2RowIndex] at isBasic
    by_cases isNew : b = newBasic
    · subst isNew
      rw [Function.update_self, Option.some.injEq] at isBasic
      rw [← isBasic, pivoted.coeffPivot, pivotRow, mul_neg, mul_inv_cancel₀ entry]
    · rw [Function.update_of_ne isNew] at isBasic
      by_cases isOld : b = oldBasic
      · rw [isOld, Function.update_self] at isBasic
        simp at isBasic
      · rw [Function.update_of_ne isOld] at isBasic
        have other : r ≠ ridx := by
          rintro rfl
          exact isOld (solved.row_injective isBasic basic)
        rw [pivoted.coeffOther other, pivotRow, solved.alone isBasic (Ne.symm other),
          solved.solved isBasic]
        ring
  · intro b r r' isBasic other
    rw [pivoted.basic2RowIndex] at isBasic
    by_cases isNew : b = newBasic
    · subst isNew
      rw [Function.update_self, Option.some.injEq] at isBasic
      subst isBasic
      rw [pivoted.coeffOther other, pivotRow, mul_neg, mul_inv_cancel₀ entry]
      ring
    · rw [Function.update_of_ne isNew] at isBasic
      by_cases isOld : b = oldBasic
      · rw [isOld, Function.update_self] at isBasic
        simp at isBasic
      · rw [Function.update_of_ne isOld] at isBasic
        have apart : ridx ≠ r := by
          rintro rfl
          exact isOld (solved.row_injective isBasic basic)
        by_cases isPivot : r' = ridx
        · rw [isPivot, pivoted.coeffPivot, pivotRow, solved.alone isBasic apart, zero_mul]
        · rw [pivoted.coeffOther isPivot, pivotRow, solved.alone isBasic apart,
            solved.alone isBasic other]
          ring

end Outcome

end Tableau

end Ava6.Arith.Linear

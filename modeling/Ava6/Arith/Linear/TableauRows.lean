import Ava6.Arith.Linear.TableauPivot

/-! Adding a row to a tableau, where basic variables are replaced by their rows, and removing the
row of a basic variable.
-/

namespace Ava6.Arith.Linear

open Library.LinkedList Finset

namespace Tableau

variable {t : Tableau} {rows : RowIndex → List EntryID} {cols : ArithVar → List EntryID}
  {r : RowIndex} {b : ArithVar} {m : Matrix ℚ} {newRow : RowIndex} {M : Type}

-- Substituting the basic variables of the new row

/-- What the substitution of a basic variable adds to the new row. -/
def substitutedTerm (t : Tableau) (coeffs : RowIndex → ArithVar → ℚ) (c : ArithVar)
    (term : ℚ × ArithVar) : ℚ :=
  match t.basic2RowIndex term.2 with
  | none => 0
  | some ri => term.1 * coeffs ri c

def substituted (t : Tableau) (coeffs : RowIndex → ArithVar → ℚ) (terms : List (ℚ × ArithVar))
    (c : ArithVar) : ℚ :=
  (terms.map (t.substitutedTerm coeffs c)).sum

/-- One term of the new row. -/
theorem substituteBasic_ran {term : ℚ × ArithVar} (linked : m.Linked rows cols)
    (nonzero : m.Nonzero) (clear : m.BufferClear) (inRange : newRow < m.rows.length)
    (active : newRow ∉ m.pool) (coeffNe : term.1 ≠ 0)
    (apart : t.basic2RowIndex term.2 ≠ some newRow)
    : ∃ m' rows' cols', t.substituteBasic newRow term m = some m'
      ∧ Matrix.Extended m m' rows' cols' newRow
          (fun c => t.substitutedTerm m.coeffAt c term) := by
  cases basic : t.basic2RowIndex term.2 with
  | none =>
      refine ⟨m, rows, cols, by simp [substituteBasic, basic], linked, nonzero, ?_, rfl, .refl m⟩
      intro r c
      simp [substitutedTerm, basic]
  | some ri =>
      have differs : ri ≠ newRow := fun same => apart (by rw [basic, same])
      obtain ⟨m₁, ranLoad, buffered, loaded⟩ := linked.loadRowIntoBuffer nonzero clear ri
      have coeff₁ (r : RowIndex) (c : ArithVar) : m₁.coeffAt r c = m.coeffAt r c := by
        rw [loaded]
        rfl
      obtain ⟨m₂, s₂, rows₂, cols₂, ranAdd, added⟩ :=
        buffered.rowPlusBufferTimesConstantNotifying NoEffectCCCB () differs
          (show newRow < m₁.rows.length by rw [loaded]; exact inRange)
          (show newRow ∉ m₁.pool by rw [loaded]; exact active) coeffNe
      refine ⟨m₂.clearBuffer, rows₂, cols₂, ?_, added.linked.clearBuffer, added.nonzero, ?_, ?_, ?_⟩
      · simp [substituteBasic, basic, ranLoad, ranAdd]
      · intro r c
        have total : m₂.clearBuffer.coeffAt r c = m₂.coeffAt r c := rfl
        rw [total, added.coeffAt]
        by_cases isNew : r = newRow
        · simp [isNew, Matrix.sumAt, coeff₁, substitutedTerm, basic]
        · simp [isNew, coeff₁]
      · funext c
        exact (clear.1 c).symm
      · refine ⟨?_, ?_, ?_, clear.2.symm⟩
        · exact added.shape.rows.trans (by rw [loaded])
        · exact added.shape.columns.trans (by rw [loaded])
        · exact added.shape.pool.trans (by rw [loaded])

theorem bufferClear_of_extended {m' : Matrix ℚ} {extra : ArithVar → ℚ}
    (extended : Matrix.Extended m m' rows cols r extra) (clear : m.BufferClear)
    : m'.BufferClear := by
  refine ⟨fun c => ?_, extended.shape.rowInMergeBuffer.trans clear.2⟩
  rw [extended.mergeBuffer]
  exact clear.1 c

/-- The loop over the terms: only the new row changes, so the rows substituted are the original
ones.
-/
theorem substituteBasics_ran {terms : List (ℚ × ArithVar)} (linked : m.Linked rows cols)
    (nonzero : m.Nonzero) (clear : m.BufferClear) (inRange : newRow < m.rows.length)
    (active : newRow ∉ m.pool) (coeffNe : ∀ term ∈ terms, term.1 ≠ 0)
    (apart : ∀ term ∈ terms, t.basic2RowIndex term.2 ≠ some newRow)
    : ∃ m' rows' cols', terms.foldlM (fun m term => t.substituteBasic newRow term m) m = some m'
      ∧ Matrix.Extended m m' rows' cols' newRow (t.substituted m.coeffAt terms) := by
  induction terms generalizing m rows cols with
  | nil =>
      refine ⟨m, rows, cols, rfl, linked, nonzero, ?_, rfl, .refl m⟩
      intro r c
      simp [substituted]
  | cons term terms ih =>
      obtain ⟨m₁, rows₁, cols₁, ranFirst, first⟩ := substituteBasic_ran linked nonzero clear
        inRange active (coeffNe term (by simp)) (apart term (by simp))
      obtain ⟨m₂, rows₂, cols₂, ranRest, rest⟩ := ih first.linked first.nonzero
        (bufferClear_of_extended first clear) (first.shape.rows ▸ inRange)
        (first.shape.pool ▸ active) (fun other member => coeffNe other (by simp [member]))
        (fun other member => apart other (by simp [member]))
      refine ⟨m₂, rows₂, cols₂, ?_, rest.linked, rest.nonzero, ?_,
        rest.mergeBuffer.trans first.mergeBuffer, first.shape.trans rest.shape⟩
      · simp [List.foldlM_cons, ranFirst, ranRest]
      · have sameRows (c : ArithVar)
            : t.substituted m₁.coeffAt terms c = t.substituted m.coeffAt terms c := by
          refine congrArg List.sum (List.map_congr_left (fun other member => ?_))
          cases basic : t.basic2RowIndex other.2 with
          | none => simp [substitutedTerm, basic]
          | some ri =>
              have differs : ri ≠ newRow := fun same =>
                apart other (by simp [member]) (by rw [basic, same])
              simp [substitutedTerm, basic, first.coeffAt, differs]
        have head (c : ArithVar) : t.substituted m.coeffAt (term :: terms) c
            = t.substitutedTerm m.coeffAt c term + t.substituted m.coeffAt terms c := by
          simp [substituted]
        intro r c
        rw [rest.coeffAt, first.coeffAt, sameRows, head]
        by_cases isNew : r = newRow
        · simp [isNew, add_assoc]
        · simp [isNew]

/-- In an equation the substituted rows amount to their own equations. -/
theorem sum_substituted [AddCommGroup M] [Module ℚ M] (m : Matrix ℚ) (v : ArithVar → M)
    (terms : List (ℚ × ArithVar)) (holds : ∀ ri, m.rowSum v ri = 0)
    : ∑ c ∈ range m.columns.length, t.substituted m.coeffAt terms c • v c = 0 := by
  induction terms with
  | nil => simp [substituted]
  | cons term terms ih =>
      have head (c : ArithVar) : t.substituted m.coeffAt (term :: terms) c
          = t.substitutedTerm m.coeffAt c term + t.substituted m.coeffAt terms c := by
        simp [substituted]
      have first : ∑ c ∈ range m.columns.length, t.substitutedTerm m.coeffAt c term • v c = 0 := by
        cases basic : t.basic2RowIndex term.2 with
        | none => simp [substitutedTerm, basic]
        | some ri =>
            simp only [substitutedTerm, basic, mul_smul, ← smul_sum]
            rw [show ∑ c ∈ range m.columns.length, m.coeffAt ri c • v c = 0 from holds ri,
              smul_zero]
      simp only [head, add_smul, sum_add_distrib, first, ih, add_zero]

-- Adding a row

/-- The terms may be added as the row of `basic`, which is not yet used. -/
structure Addable (t : Tableau) (cols : ArithVar → List EntryID) (basic : ArithVar)
    (terms : List (ℚ × ArithVar)) : Prop where
  basicInRange : basic < t.columns.length
  inRange : ∀ term ∈ terms, term.2 < t.columns.length
  distinct : (terms.map Prod.snd).Nodup
  coeffNe : ∀ term ∈ terms, term.1 ≠ 0
  unused : cols basic = []
  notIn : ∀ term ∈ terms, term.2 ≠ basic

/-- The outcome of adding a row in terms of coefficients. -/
structure RowInserted (t t' : Tableau) (newRow : RowIndex) (basic : ArithVar)
    (terms : List (ℚ × ArithVar)) : Prop where
  coeffOther {r : RowIndex} (other : r ≠ newRow) (c : ArithVar)
    : t'.coeffAt r c = t.coeffAt r c
  coeffNew (c : ArithVar)
    : t'.coeffAt newRow c = Matrix.coeffOf terms c + (if c = basic then -1 else 0)
        + t.substituted t.coeffAt terms c
  basic2RowIndex : t'.basic2RowIndex = Function.update t.basic2RowIndex basic (some newRow)
  rowIndex2basic : t'.rowIndex2basic = Function.update t.rowIndex2basic newRow (some basic)
  columnsLength : t'.columns.length = t.columns.length
  rowsLength (r : RowIndex) : r < t'.rows.length ↔ r < t.rows.length ∨ r = newRow
  pool (r : RowIndex) : r ∈ t'.pool ↔ r ∈ t.pool ∧ r ≠ newRow
  was : newRow ∈ t.pool ∨ t.rows.length ≤ newRow

theorem Solved.notActive (solved : t.Solved rows cols)
    (was : newRow ∈ t.pool ∨ t.rows.length ≤ newRow) (b : ArithVar)
    : t.basic2RowIndex b ≠ some newRow := by
  intro basic
  obtain ⟨inRange, active⟩ := solved.active basic
  rcases was with pooled | beyond
  · exact active pooled
  · exact absurd inRange (Nat.not_lt.mpr beyond)

theorem coeffOf_append_basic (terms : List (ℚ × ArithVar)) (basic c : ArithVar)
    : Matrix.coeffOf (terms ++ [(-1, basic)]) c
      = Matrix.coeffOf terms c + if c = basic then -1 else 0 := by
  by_cases same : c = basic
  · simp [Matrix.coeffOf, same]
  · simp [Matrix.coeffOf, same, Ne.symm same]

/-- The new row before basic variables are substituted: the terms, and the basic variable with
coefficient -1.
-/
theorem Solved.insertRow (solved : t.Solved rows cols) {basic : ArithVar}
    {coefficients : List ℚ} {vars : List ArithVar}
    (addable : t.Addable cols basic (coefficients.zip vars))
    : ∃ rows' cols', Matrix.Extended t.toMatrix.requestRowIndex.2
        (t.insertRow basic coefficients vars).2.toMatrix rows' cols'
        t.toMatrix.requestRowIndex.1
        (fun c => Matrix.coeffOf (coefficients.zip vars) c + if c = basic then -1 else 0) := by
  have requested := solved.linked.requestRowIndex
  have columns : t.toMatrix.requestRowIndex.2.columns.length = t.columns.length := by
    rw [requested.columns]
  have asTerms : (t.insertRow basic coefficients vars).2.toMatrix
      = (coefficients.zip vars ++ [(-1, basic)]).foldl
          (fun (m : Matrix ℚ) (term : ℚ × ArithVar) =>
            m.addEntry t.toMatrix.requestRowIndex.1 term.2 term.1)
          t.toMatrix.requestRowIndex.2 := by
    simp [Tableau.insertRow, Matrix.addRow, List.foldl_append]
  simp only [asTerms, ← coeffOf_append_basic]
  refine requested.linked.addEntries
    (Matrix.nonzero_of_entries requested.entries solved.nonzero) requested.inRange
    (fun pooled => ((requested.pool _).mp pooled).2 rfl) ?_ ?_ ?_ ?_
  · rw [List.map_append]
    refine List.Nodup.append addable.distinct (by simp) ?_
    intro var inTerms isBasic
    obtain ⟨term, member, rfl⟩ := List.mem_map.mp inTerms
    exact addable.notIn term member (by simpa using isBasic)
  · intro term member
    rw [columns]
    rcases List.mem_append.mp member with inTerms | isBasic
    · exact addable.inRange term inTerms
    · rw [List.mem_singleton.mp isBasic]
      exact addable.basicInRange
  · intro term member
    rcases List.mem_append.mp member with inTerms | isBasic
    · exact addable.coeffNe term inTerms
    · rw [List.mem_singleton.mp isBasic]
      norm_num
  · intro term _
    exact requested.linked.entryAt_eq_none.mpr (by simp [requested.isEmpty])

theorem Solved.addRow_ran (solved : t.Solved rows cols) {basic : ArithVar}
    {coefficients : List ℚ} {vars : List ArithVar}
    (addable : t.Addable cols basic (coefficients.zip vars))
    : ∃ t' rows' cols' newRow, t.addRow basic coefficients vars = some t'
      ∧ t'.toMatrix.Linked rows' cols' ∧ t'.toMatrix.Nonzero ∧ t'.toMatrix.BufferClear
      ∧ RowInserted t t' newRow basic (coefficients.zip vars) := by
  have requested := solved.linked.requestRowIndex
  obtain ⟨rows₁, cols₁, filled⟩ := solved.insertRow addable
  have notActive := solved.notActive requested.was
  have coeffs₀ := Matrix.coeffAt_of_entries requested.entries
  have clear₀ : t.toMatrix.requestRowIndex.2.BufferClear := by
    refine ⟨fun c => ?_, requested.rowInMergeBuffer.trans solved.clear.2⟩
    rw [requested.mergeBuffer]
    exact solved.clear.1 c
  have clear₁ := bufferClear_of_extended filled clear₀
  have sameBasic {term : ℚ × ArithVar} (member : term ∈ coefficients.zip vars)
      : (t.insertRow basic coefficients vars).2.basic2RowIndex term.2
        = t.basic2RowIndex term.2 :=
    Function.update_of_ne (addable.notIn term member) _ _
  obtain ⟨m₂, rows₂, cols₂, ran, replaced⟩ := substituteBasics_ran
    (t := (t.insertRow basic coefficients vars).2)
    filled.linked filled.nonzero clear₁ (filled.shape.rows ▸ requested.inRange)
    (filled.shape.pool ▸ fun pooled => ((requested.pool _).mp pooled).2 rfl)
    addable.coeffNe (fun term member => sameBasic member ▸ notActive term.2)
  refine ⟨⟨m₂, (t.insertRow basic coefficients vars).2.basic2RowIndex,
    (t.insertRow basic coefficients vars).2.rowIndex2basic⟩, rows₂, cols₂,
    t.toMatrix.requestRowIndex.1, ?_, replaced.linked, replaced.nonzero,
    bufferClear_of_extended replaced clear₁, ?_, ?_, rfl, rfl, ?_, ?_, ?_, requested.was⟩
  · have rowEq : (t.insertRow basic coefficients vars).1 = t.toMatrix.requestRowIndex.1 := rfl
    simp only [Tableau.addRow, rowEq, ran, Option.bind_eq_bind, Option.bind_some, Option.pure_def]
  · intro r other c
    rw [Matrix.coeffAt_of_entries rfl r c, replaced.coeffAt, if_neg other, filled.coeffAt,
      if_neg other, coeffs₀]
  · intro c
    have isEmpty := requested.linked.coeffAt_of_empty requested.isEmpty c
    -- The rows that are substituted are older than the new one.
    have sameRows : (t.insertRow basic coefficients vars).2.substituted
        (t.insertRow basic coefficients vars).2.coeffAt (coefficients.zip vars) c
        = t.substituted t.coeffAt (coefficients.zip vars) c := by
      refine congrArg List.sum (List.map_congr_left (fun term member => ?_))
      have basicEq := sameBasic member
      cases isBasic : t.basic2RowIndex term.2 with
      | none => simp [substitutedTerm, isBasic, basicEq]
      | some ri =>
          have differs : ri ≠ t.toMatrix.requestRowIndex.1 := fun same =>
            notActive term.2 (by rw [isBasic, same])
          simp [substitutedTerm, isBasic, basicEq, filled.coeffAt, differs, coeffs₀]
    rw [Matrix.coeffAt_of_entries rfl, replaced.coeffAt, if_pos rfl, filled.coeffAt, if_pos rfl,
      isEmpty, zero_add, sameRows]
  · exact replaced.shape.columns.trans (filled.shape.columns.trans (by rw [requested.columns]))
  · intro r
    rw [← requested.rowsLength r, ← filled.shape.rows, ← replaced.shape.rows]
  · intro r
    rw [← requested.pool r, ← filled.shape.pool, ← replaced.shape.pool]

section Outcome

variable {t' : Tableau} {rows' : RowIndex → List EntryID} {cols' : ArithVar → List EntryID}
  {basic : ArithVar} {terms : List (ℚ × ArithVar)}

/-- A column without entries has no coefficients. -/
theorem coeffAt_of_unused (linked : t.toMatrix.Linked rows cols) (unused : cols b = [])
    (r : RowIndex)
    : t.coeffAt r b = 0 :=
  Matrix.coeffAt_of_vacant (linked.entryAt_eq_none.mpr (by simp [unused]))

theorem Solved.nonbasic_of_unused (solved : t.Solved rows cols) (unused : cols b = [])
    : t.basic2RowIndex b = none := by
  cases isBasic : t.basic2RowIndex b with
  | none => rfl
  | some r =>
      have minusOne := solved.solved isBasic
      rw [coeffAt_of_unused solved.linked unused] at minusOne
      norm_num at minusOne

/-- A basic variable leaves the new row by the substitution. -/
theorem Solved.coeff_cancels (solved : t.Solved rows cols) {rb : RowIndex}
    (isBasic : t.basic2RowIndex b = some rb) (terms : List (ℚ × ArithVar))
    : Matrix.coeffOf terms b + t.substituted t.coeffAt terms b = 0 := by
  induction terms with
  | nil => simp [Matrix.coeffOf, substituted]
  | cons term terms ih =>
      have first : (if term.2 = b then term.1 else 0) + t.substitutedTerm t.coeffAt b term = 0 := by
        by_cases same : term.2 = b
        · rw [if_pos same, substitutedTerm, same]
          simp only [isBasic, solved.solved isBasic]
          ring
        · rw [if_neg same, substitutedTerm, zero_add]
          cases other : t.basic2RowIndex term.2 with
          | none => rfl
          | some ri =>
              have differs : ri ≠ rb := by
                rintro rfl
                exact same (solved.row_injective other isBasic)
              simp only [solved.alone isBasic differs, mul_zero]
      calc Matrix.coeffOf (term :: terms) b + t.substituted t.coeffAt (term :: terms) b
        _ = (if term.2 = b then term.1 else 0) + t.substitutedTerm t.coeffAt b term
              + (Matrix.coeffOf terms b + t.substituted t.coeffAt terms b) := by
            simp only [Matrix.coeffOf, substituted, List.map_cons, List.sum_cons]
            ring
        _ = 0 := by rw [first, ih, add_zero]

theorem Addable.coeff_basic (addable : t.Addable cols basic terms)
    (linked : t.toMatrix.Linked rows cols)
    : Matrix.coeffOf terms basic = 0 ∧ t.substituted t.coeffAt terms basic = 0 := by
  constructor
  · refine List.sum_eq_zero (fun x member => ?_)
    obtain ⟨term, inTerms, rfl⟩ := List.mem_map.mp member
    rw [if_neg (addable.notIn term inTerms)]
  · refine List.sum_eq_zero (fun x member => ?_)
    obtain ⟨term, -, rfl⟩ := List.mem_map.mp member
    rw [substitutedTerm]
    split
    · rfl
    · rw [coeffAt_of_unused linked addable.unused, mul_zero]

theorem RowInserted.inverse (inserted : RowInserted t t' newRow basic terms)
    (solved : t.Solved rows cols) (nonbasic : t.basic2RowIndex basic = none) (b : ArithVar)
    (r : RowIndex)
    : t'.basic2RowIndex b = some r ↔ t'.rowIndex2basic r = some b := by
  have notActive := solved.notActive inserted.was
  rw [inserted.basic2RowIndex, inserted.rowIndex2basic]
  by_cases isNew : b = basic
  · subst isNew
    rw [Function.update_self]
    by_cases isRow : r = newRow
    · simp [isRow]
    · rw [Function.update_of_ne isRow, ← solved.inverse, nonbasic]
      simp [Ne.symm isRow]
  · rw [Function.update_of_ne isNew]
    by_cases isRow : r = newRow
    · subst isRow
      rw [Function.update_self]
      simp [notActive b, Ne.symm isNew]
    · rw [Function.update_of_ne isRow]
      exact solved.inverse b r

/-- A new row adds the equation of its basic variable, and no other, to the tableau. -/
theorem RowInserted.satisfies_iff [AddCommGroup M] [Module ℚ M]
    (inserted : RowInserted t t' newRow basic terms) (addable : t.Addable cols basic terms)
    (solved : t.Solved rows cols) (linked' : t'.toMatrix.Linked rows' cols') (v : ArithVar → M)
    : t'.toMatrix.Satisfies v
      ↔ t.toMatrix.Satisfies v ∧ v basic = Matrix.termsValue terms v := by
  have otherSum {r : RowIndex} (other : r ≠ newRow)
      : t'.toMatrix.rowSum v r = t.toMatrix.rowSum v r :=
    Matrix.rowSum_congr inserted.columnsLength (inserted.coeffOther other)
  -- The new row was empty before.
  have oldSum : t.toMatrix.rowSum v newRow = 0 := by
    refine solved.linked.rowSum_of_empty ?_
    cases row : rows newRow with
    | nil => rfl
    | cons id l =>
        have member : id ∈ rows newRow := by simp [row]
        rcases inserted.was with pooled | beyond
        · rw [(solved.linked.pool pooled).2] at member
          simp at member
        · exact absurd (solved.linked.row.bound member) (Nat.not_lt.mpr beyond)
  have newSum (holds : ∀ ri, t.toMatrix.rowSum v ri = 0)
      : t'.toMatrix.rowSum v newRow = Matrix.termsValue terms v - v basic := by
    have basicSum : ∑ c ∈ range t.columns.length, (if c = basic then (-1 : ℚ) else 0) • v c
        = -v basic := by
      rw [sum_eq_single_of_mem basic (mem_range.mpr addable.basicInRange)]
      · simp
      · intro other _ differs
        rw [if_neg differs, zero_smul]
    simp only [Matrix.rowSum, inserted.coeffNew, inserted.columnsLength, add_smul,
      sum_add_distrib, Matrix.sum_coeffOf terms addable.inRange, basicSum,
      sum_substituted t.toMatrix v terms holds, add_zero, sub_eq_add_neg]
  rw [linked'.satisfies_iff, solved.linked.satisfies_iff]
  constructor
  · intro holds
    have old (r : RowIndex) : t.toMatrix.rowSum v r = 0 := by
      by_cases isNew : r = newRow
      · rw [isNew]
        exact oldSum
      · rw [← otherSum isNew]
        exact holds r
    have new := holds newRow
    rw [newSum old, sub_eq_zero] at new
    exact ⟨old, new.symm⟩
  · rintro ⟨old, equation⟩ r
    by_cases isNew : r = newRow
    · rw [isNew, newSum old, equation, sub_self]
    · rw [otherSum isNew]
      exact old r

/-- Adding a row keeps the tableau solved: basic variables in the row are replaced by their own rows first. -/
theorem Solved.addRow (solved : t.Solved rows cols) {coefficients : List ℚ} {vars : List ArithVar}
    (addable : t.Addable cols basic (coefficients.zip vars))
    : ∃ t' rows' cols' newRow, t.addRow basic coefficients vars = some t'
      ∧ t'.Solved rows' cols' ∧ RowInserted t t' newRow basic (coefficients.zip vars) := by
  obtain ⟨t', rows', cols', newRow, ran, linked, nonzero, clear, inserted⟩ :=
    solved.addRow_ran addable
  have nonbasic := solved.nonbasic_of_unused addable.unused
  have notActive := solved.notActive inserted.was
  obtain ⟨basicCoeff, basicSubstituted⟩ := addable.coeff_basic solved.linked
  refine ⟨t', rows', cols', newRow, ran, ⟨linked, nonzero, clear,
    inserted.inverse solved nonbasic, ?_, ?_, ?_⟩, inserted⟩
  · intro r
    rw [inserted.rowsLength, inserted.pool, inserted.rowIndex2basic]
    by_cases isNew : r = newRow
    · simp [isNew]
    · rw [Function.update_of_ne isNew, ← solved.inUse r]
      simp [isNew]
  · intro b r isBasic
    rw [inserted.basic2RowIndex] at isBasic
    by_cases isNew : b = basic
    · subst isNew
      rw [Function.update_self, Option.some.injEq] at isBasic
      rw [← isBasic, inserted.coeffNew, basicCoeff, basicSubstituted, if_pos rfl]
      ring
    · rw [Function.update_of_ne isNew] at isBasic
      have other : r ≠ newRow := fun same => notActive b (same ▸ isBasic)
      rw [inserted.coeffOther other]
      exact solved.solved isBasic
  · intro b r r' isBasic other
    rw [inserted.basic2RowIndex] at isBasic
    by_cases isNew : b = basic
    · subst isNew
      rw [Function.update_self, Option.some.injEq] at isBasic
      rw [inserted.coeffOther (isBasic ▸ other)]
      exact coeffAt_of_unused solved.linked addable.unused r'
    · rw [Function.update_of_ne isNew] at isBasic
      by_cases isRow : r' = newRow
      · rw [isRow, inserted.coeffNew, if_neg isNew, add_zero]
        exact solved.coeff_cancels isBasic _
      · rw [inserted.coeffOther isRow]
        exact solved.alone isBasic other

-- Removing a row

/-- Removing the row of a basic variable keeps the tableau solved for the others. -/
theorem Solved.removeBasicRow (solved : t.Solved rows cols) (isBasic : t.basic2RowIndex b = some r)
    : ∃ t' rows' cols', t.removeBasicRow b = some t' ∧ t'.Solved rows' cols'
      ∧ Matrix.RowRemoved t.toMatrix t'.toMatrix rows' cols' r := by
  obtain ⟨inRange, active⟩ := solved.active isBasic
  obtain ⟨m, rows', cols', ran, removed⟩ := solved.linked.removeRow solved.nonzero inRange active
  refine ⟨⟨m, Function.update t.basic2RowIndex b none, Function.update t.rowIndex2basic r none⟩,
    rows', cols', ?_, ⟨removed.linked, removed.nonzero, ?_, ?_, ?_, ?_, ?_⟩, removed⟩
  · simp [Tableau.removeBasicRow, isBasic, ran]
  · refine ⟨fun c => ?_, removed.rowInMergeBuffer.trans solved.clear.2⟩
    rw [removed.mergeBuffer]
    exact solved.clear.1 c
  · intro b' r'
    simp only [Function.update_apply]
    by_cases same : b' = b
    · subst same
      by_cases sameRow : r' = r
      · simp [sameRow]
      · simpa [sameRow, ← solved.inverse, isBasic] using Ne.symm sameRow
    · by_cases sameRow : r' = r
      · subst sameRow
        simpa [same] using fun other => same (solved.row_injective other isBasic)
      · simpa [same, sameRow] using solved.inverse b' r'
  · intro r'
    simp only [removed.rowsLength, removed.pool, List.mem_cons, not_or, Function.update_apply]
    by_cases sameRow : r' = r
    · simp [sameRow]
    · simpa [sameRow] using solved.inUse r'
  · intro b' r' other
    simp only [Function.update_apply] at other
    by_cases same : b' = b
    · simp [same] at other
    · rw [if_neg same] at other
      have differs : r' ≠ r := by
        rintro rfl
        exact same (solved.row_injective other isBasic)
      exact (removed.coeffAt differs b').trans (solved.solved other)
  · intro b' r' r'' other differs
    simp only [Function.update_apply] at other
    by_cases same : b' = b
    · simp [same] at other
    · rw [if_neg same] at other
      by_cases isRemoved : r'' = r
      · rw [isRemoved]
        exact removed.linked.coeffAt_of_empty removed.rowRemoved b'
      · exact (removed.coeffAt isRemoved b').trans (solved.alone other differs)

/-- The row that is gone determined the basic variable and nothing else. -/
theorem Solved.satisfies_removed [AddCommGroup M] [Module ℚ M] (solved : t.Solved rows cols)
    (isBasic : t.basic2RowIndex b = some r) {m : Matrix ℚ}
    (removed : Matrix.RowRemoved t.toMatrix m rows' cols' r) (v : ArithVar → M)
    : m.Satisfies v ↔ ∃ x, t.toMatrix.Satisfies (Function.update v b x) := by
  have inRange := solved.inRange isBasic
  have otherSum {r' : RowIndex} (other : r' ≠ r) (x : M)
      : t.toMatrix.rowSum (Function.update v b x) r' = m.rowSum v r' := by
    rw [Matrix.rowSum_update inRange, solved.alone isBasic other, zero_smul, add_zero]
    exact (Matrix.rowSum_congr removed.columnsLength (removed.coeffAt other)).symm
  rw [removed.linked.satisfies_iff]
  simp only [solved.linked.satisfies_iff]
  constructor
  · intro holds
    refine ⟨v b + t.toMatrix.rowSum v r, fun r' => ?_⟩
    by_cases isRow : r' = r
    · rw [isRow, Matrix.rowSum_update inRange, solved.solved isBasic]
      simp
    · rw [otherSum isRow]
      exact holds r'
  · rintro ⟨x, holds⟩ r'
    by_cases isRow : r' = r
    · rw [isRow]
      exact removed.linked.rowSum_of_empty removed.rowRemoved
    · rw [← otherSum isRow x]
      exact holds r'

end Outcome

end Tableau

end Ava6.Arith.Linear

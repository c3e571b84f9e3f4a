import Mathlib.Algebra.BigOperators.Group.Finset.Basic
import Mathlib.Algebra.BigOperators.GroupWithZero.Action
import Mathlib.Algebra.Module.BigOperators
import Ava6.Arith.Linear.RowOperations
import Ava6.Arith.Linear.Tableau

/-! The equations of the rows in terms of coefficients, and what the row operations do to
them.
-/

namespace Ava6.Arith.Linear

open Library.LinkedList Finset

variable {T M : Type}

namespace Matrix

variable {m m' : Matrix T} {rows rows' : RowIndex → List EntryID}
  {cols cols' : ArithVar → List EntryID} {r rid target source : RowIndex} {v : ArithVar → M}

theorem idsFrom_eq {links : Links EntryID} {before cursor : Option EntryID} {l : List EntryID}
    {fuel : Nat} (chain : Chain links before cursor l) (enough : l.length ≤ fuel)
    : idsFrom links.next fuel cursor = l := by
  induction l generalizing before cursor fuel with
  | nil =>
      rw [chain.head]
      cases fuel <;> rfl
  | cons id l ih =>
      cases fuel with
      | zero => simp at enough
      | succ fuel =>
          rw [chain.1, idsFrom, ih chain.2.2 (by simpa using enough)]

theorem Linked.rowIds (linked : m.Linked rows cols) (r : RowIndex) : m.rowIds r = rows r :=
  idsFrom_eq (linked.row.chain r) linked.row_length

theorem Linked.colIds (linked : m.Linked rows cols) (c : ArithVar) : m.colIds c = cols c :=
  idsFrom_eq (linked.col.chain c) linked.col_length

section Sums

variable [Ring T] [AddCommGroup M] [Module T M]

/-- The left side of the equation of a row. -/
def rowSum (m : Matrix T) (v : ArithVar → M) (r : RowIndex) : M :=
  ∑ c ∈ range m.columns.length, m.coeffAt r c • v c

/-- The entries of a row give its coefficient in a column. -/
theorem Linked.sum_column (linked : m.Linked rows cols) (r : RowIndex) (c : ArithVar)
    : ∑ id ∈ (rows r).toFinset,
        (if (m.entries.get id).colVar = some c then m.coeffAt r c • v c else 0)
      = m.coeffAt r c • v c := by
  cases found : m.entryAt r c with
  | none => simp [coeffAt_of_vacant found]
  | some id =>
      obtain ⟨inRow, inCol⟩ := linked.entryAt_eq_some.mp found
      rw [sum_eq_single_of_mem id (by simpa using inRow)]
      · rw [if_pos (linked.mem_col.mp inCol).2]
      · intro other member differs
        rw [if_neg]
        intro otherCol
        have otherRow : other ∈ rows r := by simpa using member
        have below := (linked.mem_row.mp otherRow).1
        exact differs (linked.unique ⟨otherRow, linked.mem_col.mpr ⟨below, otherCol⟩⟩
          ⟨inRow, inCol⟩)

theorem Linked.entryValue_eq (linked : m.Linked rows cols) {id : EntryID} (inRow : id ∈ rows r)
    : m.entryValue v id = ∑ c ∈ range m.columns.length,
        if (m.entries.get id).colVar = some c then m.coeffAt r c • v c else 0 := by
  obtain ⟨c, inCol, colEq⟩ := linked.col_of_row inRow
  have coeffEq := coeffAt_of_entryAt (linked.entryAt_eq_some.mpr ⟨inRow, inCol⟩)
  rw [sum_eq_single_of_mem c (mem_range.mpr (linked.col.bound inCol))]
  · simp [entryValue, colEq, coeffEq]
  · intro other _ differs
    rw [if_neg]
    rw [colEq]
    exact fun same => differs (Option.some.inj same).symm

theorem Linked.rowValue_eq (linked : m.Linked rows cols) : m.rowValue v r = m.rowSum v r := by
  calc m.rowValue v r
    _ = ((rows r).map (m.entryValue v)).sum := by rw [rowValue, linked.rowIds]
    _ = ∑ id ∈ (rows r).toFinset, m.entryValue v id :=
        (List.sum_toFinset _ (linked.row.nodup r)).symm
    _ = ∑ id ∈ (rows r).toFinset, ∑ c ∈ range m.columns.length,
          if (m.entries.get id).colVar = some c then m.coeffAt r c • v c else 0 :=
        sum_congr rfl (fun id member => linked.entryValue_eq (by simpa using member))
    _ = ∑ c ∈ range m.columns.length, m.coeffAt r c • v c := by
        rw [sum_comm]
        exact sum_congr rfl (fun c _ => linked.sum_column r c)

theorem Linked.coeffAt_of_empty (linked : m.Linked rows cols) (isEmpty : rows r = [])
    (c : ArithVar)
    : m.coeffAt r c = 0 := by
  refine coeffAt_of_vacant (linked.entryAt_eq_none.mpr ?_)
  simp [isEmpty]

theorem Linked.coeffAt_of_column (linked : m.Linked rows cols) {c : ArithVar}
    (outside : m.columns.length ≤ c) (r : RowIndex)
    : m.coeffAt r c = 0 := by
  refine coeffAt_of_vacant (linked.entryAt_eq_none.mpr ?_)
  intro id _ inCol
  exact absurd (linked.col.bound inCol) (Nat.not_lt.mpr outside)

theorem Linked.rowSum_of_empty (linked : m.Linked rows cols) (isEmpty : rows r = [])
    : m.rowSum v r = 0 := by
  simp [rowSum, linked.coeffAt_of_empty isEmpty]

/-- Beyond the last row there is nothing to satisfy. -/
theorem Linked.satisfies_iff (linked : m.Linked rows cols)
    : m.Satisfies v ↔ ∀ r, m.rowSum v r = 0 := by
  simp only [Satisfies, linked.rowValue_eq]
  constructor
  · intro holds r
    by_cases inRange : r < m.rows.length
    · exact holds r inRange
    · refine linked.rowSum_of_empty ?_
      cases row : rows r with
      | nil => rfl
      | cons id l => exact absurd (linked.row.bound (show id ∈ rows r by simp [row])) inRange
  · exact fun holds r _ => holds r

/-- A row whose coefficients are a combination of those of two rows. -/
theorem rowSum_of_combination (v : ArithVar → M) (k k' : T) (target r source : RowIndex)
    (columns : m'.columns.length = m.columns.length)
    (combined : ∀ c, m'.coeffAt target c = k * m.coeffAt r c + k' * m.coeffAt source c)
    : m'.rowSum v target = k • m.rowSum v r + k' • m.rowSum v source := by
  simp only [rowSum, columns, combined, add_smul, mul_smul, sum_add_distrib, smul_sum]

theorem rowSum_congr (columns : m'.columns.length = m.columns.length)
    (same : ∀ c, m'.coeffAt r c = m.coeffAt r c)
    : m'.rowSum v r = m.rowSum v r := by
  simp only [rowSum, columns, same]

/-- Changing the value of one variable. -/
theorem rowSum_update {b : ArithVar} (inRange : b < m.columns.length) (x : M)
    : m.rowSum (Function.update v b x) r = m.rowSum v r + m.coeffAt r b • (x - v b) := by
  have split (w : ArithVar → M) : m.rowSum w r
      = m.coeffAt r b • w b + ∑ c ∈ (range m.columns.length).erase b, m.coeffAt r c • w c :=
    (add_sum_erase _ _ (mem_range.mpr inRange)).symm
  have others : ∑ c ∈ (range m.columns.length).erase b, m.coeffAt r c • Function.update v b x c
      = ∑ c ∈ (range m.columns.length).erase b, m.coeffAt r c • v c := by
    refine sum_congr rfl (fun c member => ?_)
    rw [Function.update_of_ne (ne_of_mem_erase member)]
  rw [split, split v, others, Function.update_self, smul_sub]
  abel

/-- The coefficient of a variable in a list of terms. -/
def coeffOf (terms : List (T × ArithVar)) (c : ArithVar) : T :=
  (terms.map fun term => if term.2 = c then term.1 else 0).sum

def termsValue (terms : List (T × ArithVar)) (v : ArithVar → M) : M :=
  (terms.map fun term => term.1 • v term.2).sum

theorem sum_coeffOf {n : Nat} (terms : List (T × ArithVar)) (inRange : ∀ term ∈ terms, term.2 < n)
    : ∑ c ∈ range n, coeffOf terms c • v c = termsValue terms v := by
  induction terms with
  | nil => simp [coeffOf, termsValue]
  | cons term terms ih =>
      have rest := ih (fun other member => inRange other (by simp [member]))
      have first : ∑ c ∈ range n, (if term.2 = c then term.1 else 0) • v c
          = term.1 • v term.2 := by
        rw [sum_eq_single_of_mem term.2 (mem_range.mpr (inRange term (by simp)))]
        · rw [if_pos rfl]
        · intro other _ differs
          rw [if_neg (Ne.symm differs), zero_smul]
      have head (c : ArithVar) : coeffOf (term :: terms) c
          = (if term.2 = c then term.1 else 0) + coeffOf terms c := by
        simp [coeffOf]
      have whole : termsValue (term :: terms) v = term.1 • v term.2 + termsValue terms v := by
        simp [termsValue]
      simp only [head, add_smul, sum_add_distrib, first, rest, whole]

/-- Row `rid` got the coefficients `extra` on top. -/
structure Extended (m m' : Matrix T) (rows' : RowIndex → List EntryID)
    (cols' : ArithVar → List EntryID) (rid : RowIndex) (extra : ArithVar → T) : Prop where
  linked : m'.Linked rows' cols'
  nonzero : m'.Nonzero
  coeffAt (r : RowIndex) (c : ArithVar)
    : m'.coeffAt r c = if r = rid then m.coeffAt r c + extra c else m.coeffAt r c
  mergeBuffer : m'.mergeBuffer = m.mergeBuffer
  shape : SameShape m m'

/-- Adding entries to an empty row gives it their coefficients, by induction on the terms. -/
theorem Linked.addEntries {terms : List (T × ArithVar)} (linked : m.Linked rows cols)
    (nonzero : m.Nonzero) (rowInRange : rid < m.rows.length) (active : rid ∉ m.pool)
    (distinct : (terms.map Prod.snd).Nodup) (inRange : ∀ term ∈ terms, term.2 < m.columns.length)
    (coeffNe : ∀ term ∈ terms, term.1 ≠ 0)
    (vacant : ∀ term ∈ terms, m.entryAt rid term.2 = none)
    : ∃ rows' cols', Extended m
        (terms.foldl (fun m term => m.addEntry rid term.2 term.1) m) rows' cols' rid
        (coeffOf terms) := by
  induction terms generalizing m rows cols with
  | nil =>
      refine ⟨rows, cols, linked, nonzero, ?_, rfl, .refl m⟩
      intro r c
      simp [coeffOf]
  | cons term terms ih =>
      obtain ⟨notIn, distinct⟩ := List.nodup_cons.mp distinct
      have colInRange := inRange term (by simp)
      have here := vacant term (by simp)
      have added := linked.addEntry rowInRange colInRange (linked.entryAt_eq_none.mp here) active
        term.1
      have entries := linked.entryAt_addEntry rowInRange colInRange here active term.1
      have coeffs := linked.coeffAt_addEntry rowInRange colInRange here active term.1
      obtain ⟨rows', cols', extended⟩ := ih added
        (linked.nonzero_addEntry nonzero (coeffNe term (by simp))) rowInRange active distinct
        (fun other member => inRange other (by simp [member]))
        (fun other member => coeffNe other (by simp [member]))
        (fun other member => by
          have differs : other.2 ≠ term.2 := fun same =>
            notIn (List.mem_map.mpr ⟨other, member, same⟩)
          rw [entries, if_neg (fun both => differs both.2)]
          exact vacant other (by simp [member]))
      refine ⟨rows', cols', extended.linked, extended.nonzero, ?_,
        extended.mergeBuffer.trans (sameShape_addEntry _).2,
        (sameShape_addEntry _).1.trans extended.shape⟩
      intro r c
      have head : coeffOf (term :: terms) c
          = (if term.2 = c then term.1 else 0) + coeffOf terms c := by
        simp [coeffOf]
      rw [List.foldl_cons, extended.coeffAt, coeffs, head]
      by_cases isRow : r = rid
      · by_cases same : c = term.2
        · simp [isRow, same, coeffAt_of_vacant here]
        · simp [isRow, same, Ne.symm same]
      · simp [isRow]

end Sums

end Matrix

end Ava6.Arith.Linear

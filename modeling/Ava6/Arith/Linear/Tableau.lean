import Mathlib.Algebra.Order.Field.Rat
import Mathlib.Algebra.Module.Defs
import Ava6.Arith.Linear.Matrix

/-! The tableau of the simplex solver: a matrix whose rows are solved for their basic variables. -/

namespace Ava6.Arith.Linear

open Library.LinkedList

/-- The two maps give the row of a basic variable and the basic variable of a row. -/
structure Tableau extends Matrix ℚ where
  basic2RowIndex : ArithVar → Option RowIndex
  rowIndex2basic : RowIndex → Option ArithVar

namespace Tableau

variable {σ : Type}

def empty : Tableau where
  toMatrix := Matrix.empty
  basic2RowIndex _ := none
  rowIndex2basic _ := none

def isBasic (t : Tableau) (v : ArithVar) : Bool := (t.basic2RowIndex v).isSome

def increaseSize (t : Tableau) : Tableau := { t with toMatrix := t.toMatrix.increaseSize }

/-- Changes basic to newbasic (a variable on the row). Undefined when the row has no entry for
it.
-/
def rowPivot (t : Tableau) (basicOld basicNew : ArithVar) (cb : CoefficientChangeCallback σ)
    (s : σ) : Option (Tableau × σ) := do
  let rid ← t.basic2RowIndex basicOld
  let newBasicID ← t.findOnRow rid basicNew
  let a_rs := (t.entries.get newBasicID).coefficient
  let m ← t.multiplyRowByConstant rid (-a_rs⁻¹)
  let t : Tableau :=
    { toMatrix := m
      basic2RowIndex :=
        Function.update (Function.update t.basic2RowIndex basicOld none) basicNew (some rid)
      rowIndex2basic := Function.update t.rowIndex2basic rid (some basicNew) }
  return (t, cb.multiplyRow rid (-SignType.sign a_rs) s)

/-- Cancels the entry of the new basic variable on another row than its own. -/
def pivotEntry (cb : CoefficientChangeCallback σ) (ridx : RowIndex) (id : EntryID)
    : Matrix ℚ × σ → Option (Matrix ℚ × σ)
  | (m, s) => do
      let target ← (m.entries.get id).rowIndex
      if target = ridx then return (m, s)
      else
        let coeff := (m.entries.get id).coefficient
        if cb.canUseRow s target then
          m.rowPlusBufferTimesConstantNotifying cb target coeff s
        else return (← m.rowPlusBufferTimesConstant target coeff, s)

def pivot (t : Tableau) (oldBasic newBasic : ArithVar) (cb : CoefficientChangeCallback σ) (s : σ)
    : Option (Tableau × σ) := do
  let ridx ← t.basic2RowIndex oldBasic
  let (t, s) ← t.rowPivot oldBasic newBasic cb s
  let m ← t.loadRowIntoBuffer ridx
  let (m, s) ← whileEach (fun state => state.1.nextInCol) (pivotEntry cb ridx) m.fuel
    (m.columns.get newBasic).head (m, s)
  return ({ t with toMatrix := m.clearBuffer }, s)

/-- Replaces a variable of the new row that is basic by its row. -/
def substituteBasic (t : Tableau) (newRow : RowIndex) (term : ℚ × ArithVar) (m : Matrix ℚ)
    : Option (Matrix ℚ) :=
  match t.basic2RowIndex term.2 with
  | none => some m
  | some ri => do
      let m ← m.loadRowIntoBuffer ri
      let (m, _) ← m.rowPlusBufferTimesConstantNotifying NoEffectCCCB newRow term.1 ()
      return m.clearBuffer

/-- Puts the row in as it is given, with the basic variable on it. -/
def insertRow (t : Tableau) (basic : ArithVar) (coefficients : List ℚ) (vars : List ArithVar)
    : RowIndex × Tableau :=
  let added := t.toMatrix.addRow coefficients vars
  let newRow := added.1
  (newRow,
    { toMatrix := added.2.addEntry newRow basic (-1)
      basic2RowIndex := Function.update t.basic2RowIndex basic (some newRow)
      rowIndex2basic := Function.update t.rowIndex2basic newRow (some basic) })

def addRow (t : Tableau) (basic : ArithVar) (coefficients : List ℚ) (vars : List ArithVar)
    : Option Tableau := do
  let (newRow, t) := t.insertRow basic coefficients vars
  let m ← (coefficients.zip vars).foldlM (fun m term => t.substituteBasic newRow term m) t.toMatrix
  return { t with toMatrix := m }

def removeBasicRow (t : Tableau) (basic : ArithVar) : Option Tableau := do
  let rid ← t.basic2RowIndex basic
  let m ← t.removeRow rid
  return {
    toMatrix := m
    basic2RowIndex := Function.update t.basic2RowIndex basic none
    rowIndex2basic := Function.update t.rowIndex2basic rid none }

end Tableau

namespace Matrix

variable {T M : Type}

/-- The entries from `cursor` to the end of its list. -/
def idsFrom (next : EntryID → Option EntryID) : Nat → Option EntryID → List EntryID
  | 0, _ | _, none => []
  | fuel + 1, some id => id :: idsFrom next fuel (next id)

def rowIds (m : Matrix T) (r : RowIndex) : List EntryID :=
  idsFrom m.nextInRow m.fuel (m.rows.get r).head

def colIds (m : Matrix T) (c : ArithVar) : List EntryID :=
  idsFrom m.nextInCol m.fuel (m.columns.get c).head

variable [Zero M] [Add M] [SMul T M]

/-- The value of an entry's coefficient times its variable. -/
def entryValue (m : Matrix T) (v : ArithVar → M) (id : EntryID) : M :=
  match (m.entries.get id).colVar with
  | some c => (m.entries.get id).coefficient • v c
  | none => 0

def rowValue (m : Matrix T) (v : ArithVar → M) (r : RowIndex) : M :=
  ((m.rowIds r).map (m.entryValue v)).sum

/-- Each row is an equation with right side zero. -/
def Satisfies (m : Matrix T) (v : ArithVar → M) : Prop :=
  ∀ r < m.rows.length, m.rowValue v r = 0

end Matrix

end Ava6.Arith.Linear

import Mathlib.Algebra.Order.Ring.Defs
import Mathlib.Data.Sign.Defs
import Ava6.Library.LinkedList

/-! The sparse matrix of the linear arithmetic solver: entries in one vector, linked into a list
per row and a list per column, with freed entries and freed rows reused.
-/

namespace Ava6.Arith.Linear

open Library.LinkedList

abbrev EntryID := Nat

abbrev RowIndex := Nat

abbrev ArithVar := Nat

/-- A `std::vector`, as the number of its elements and the element at each position. -/
structure Table (β : Type) where
  length : Nat
  get : Nat → β

namespace Table

variable {β : Type}

def push (t : Table β) (b : β) : Table β := ⟨t.length + 1, Function.update t.get t.length b⟩

def set (t : Table β) (i : Nat) (b : β) : Table β := { t with get := Function.update t.get i b }

@[simp]
theorem length_set (t : Table β) (i : Nat) (b : β) : (t.set i b).length = t.length := rfl

@[simp]
theorem get_set_self (t : Table β) (i : Nat) (b : β) : (t.set i b).get i = b := by simp [set]

theorem get_set (t : Table β) (i j : Nat) (b : β)
    : (t.set i b).get j = if j = i then b else t.get j := by
  simp [set, Function.update_apply]

theorem get_push (t : Table β) (j : Nat) (b : β)
    : (t.push b).get j = if j = t.length then b else t.get j := by
  simp [push, Function.update_apply]

end Table

/-- `none` stands for the sentinel of each field. -/
structure MatrixEntry (T : Type) where
  rowIndex : Option RowIndex
  colVar : Option ArithVar
  nextRow : Option EntryID
  nextCol : Option EntryID
  prevRow : Option EntryID
  prevCol : Option EntryID
  coefficient : T

namespace MatrixEntry

variable {T : Type}

def create (row : RowIndex) (col : ArithVar) (coeff : T) : MatrixEntry T :=
  ⟨some row, some col, none, none, none, none, coeff⟩

/-- The default constructor. -/
def unused [Zero T] : MatrixEntry T := ⟨none, none, none, none, none, none, 0⟩

/-- The links are left as they are. -/
def markBlank (e : MatrixEntry T) : MatrixEntry T := { e with rowIndex := none, colVar := none }

def next (isRow : Bool) (e : MatrixEntry T) : Option EntryID := if isRow then e.nextRow else e.nextCol

def prev (isRow : Bool) (e : MatrixEntry T) : Option EntryID := if isRow then e.prevRow else e.prevCol

def setNext (isRow : Bool) (e : MatrixEntry T) (id : Option EntryID) : MatrixEntry T :=
  if isRow then { e with nextRow := id } else { e with nextCol := id }

def setPrev (isRow : Bool) (e : MatrixEntry T) (id : Option EntryID) : MatrixEntry T :=
  if isRow then { e with prevRow := id } else { e with prevCol := id }

end MatrixEntry

/-- `freedEntries` is a queue with its front first. -/
structure MatrixEntryVector (T : Type) where
  entries : Table (MatrixEntry T)
  freedEntries : List EntryID
  size : Nat

namespace MatrixEntryVector

variable {T : Type}

def get (v : MatrixEntryVector T) (id : EntryID) : MatrixEntry T := v.entries.get id

def set (v : MatrixEntryVector T) (id : EntryID) (e : MatrixEntry T) : MatrixEntryVector T :=
  { v with entries := v.entries.set id e }

def freeEntry (v : MatrixEntryVector T) (id : EntryID) : MatrixEntryVector T :=
  { v with freedEntries := v.freedEntries ++ [id], size := v.size - 1 }

def newEntry [Zero T] (v : MatrixEntryVector T) : EntryID × MatrixEntryVector T :=
  match v.freedEntries with
  | [] =>
      (v.entries.length, { v with entries := v.entries.push .unused, size := v.size + 1 })
  | newId :: rest => (newId, { v with freedEntries := rest, size := v.size + 1 })

end MatrixEntryVector

structure MatrixVector where
  head : Option EntryID
  size : Nat

namespace MatrixVector

variable {T : Type}

def empty : MatrixVector := ⟨none, 0⟩

def insert (isRow : Bool) (vec : MatrixVector) (newId : EntryID) (es : MatrixEntryVector T)
    : MatrixVector × MatrixEntryVector T :=
  let es := es.set newId ((es.get newId).setNext isRow vec.head)
  let es :=
    match vec.head with
    | some head => es.set head ((es.get head).setPrev isRow (some newId))
    | none => es
  (⟨some newId, vec.size + 1⟩, es)

def remove (isRow : Bool) (vec : MatrixVector) (id : EntryID) (es : MatrixEntryVector T)
    : MatrixVector × MatrixEntryVector T :=
  let prev := (es.get id).prev isRow
  let next := (es.get id).next isRow
  let head := if vec.head = some id then next else vec.head
  let es :=
    match prev with
    | some prev => es.set prev ((es.get prev).setNext isRow next)
    | none => es
  let es :=
    match next with
    | some next => es.set next ((es.get next).setPrev isRow prev)
    | none => es
  (⟨head, vec.size - 1⟩, es)

end MatrixVector

/-- Told of the changes of signs; it does not change the matrix. -/
structure CoefficientChangeCallback (σ : Type) where
  update : RowIndex → ArithVar → (oldSgn currSgn : SignType) → σ → σ
  multiplyRow : RowIndex → SignType → σ → σ
  canUseRow : σ → RowIndex → Bool

def NoEffectCCCB : CoefficientChangeCallback Unit where
  update _ _ _ _ s := s
  multiplyRow _ _ s := s
  canUseRow _ _ := false

/-- The last element of `pool` comes first. The merge buffer holds the entry of each column of a
row, and whether it was used.
-/
structure Matrix (T : Type) where
  rows : Table MatrixVector
  columns : Table MatrixVector
  mergeBuffer : ArithVar → Option (EntryID × Bool)
  rowInMergeBuffer : Option RowIndex
  entriesInUse : Nat
  entries : MatrixEntryVector T
  pool : List RowIndex

namespace Matrix

variable {T : Type}

def empty [Zero T] : Matrix T where
  rows := ⟨0, fun _ => .empty⟩
  columns := ⟨0, fun _ => .empty⟩
  mergeBuffer _ := none
  rowInMergeBuffer := none
  entriesInUse := 0
  entries := ⟨⟨0, fun _ => .unused⟩, [], 0⟩
  pool := []

def addEntry [Zero T] (m : Matrix T) (row : RowIndex) (col : ArithVar) (coeff : T) : Matrix T :=
  let allocated := m.entries.newEntry
  let newId := allocated.1
  let es := allocated.2.set newId (.create row col coeff)
  let inRow := (m.rows.get row).insert true newId es
  let inCol := (m.columns.get col).insert false newId inRow.2
  { m with
    entriesInUse := m.entriesInUse + 1
    rows := m.rows.set row inRow.1
    columns := m.columns.set col inCol.1
    entries := inCol.2 }

/-- Undefined on a blank entry, which has no row. -/
def removeEntry (m : Matrix T) (id : EntryID) : Option (Matrix T) := do
  let ridx ← (m.entries.get id).rowIndex
  let col ← (m.entries.get id).colVar
  let inRow := (m.rows.get ridx).remove true id m.entries
  let inCol := (m.columns.get col).remove false id inRow.2
  let es := inCol.2.set id (inCol.2.get id).markBlank
  return { m with
    entriesInUse := m.entriesInUse - 1
    rows := m.rows.set ridx inRow.1
    columns := m.columns.set col inCol.1
    entries := es.freeEntry id }

def setCoefficient (m : Matrix T) (id : EntryID) (coeff : T) : Matrix T :=
  { m with entries := m.entries.set id { m.entries.get id with coefficient := coeff } }

def requestRowIndex (m : Matrix T) : RowIndex × Matrix T :=
  match m.pool with
  | [] => (m.rows.length, { m with rows := m.rows.push .empty })
  | rid :: rest => (rid, { m with pool := rest })

def releaseRowIndex (m : Matrix T) (rid : RowIndex) : Matrix T := { m with pool := rid :: m.pool }

def increaseSize (m : Matrix T) : Matrix T := { m with columns := m.columns.push .empty }

def getRowLength (m : Matrix T) (r : RowIndex) : Nat := (m.rows.get r).size

def getColLength (m : Matrix T) (x : ArithVar) : Nat := (m.columns.get x).size

def addRow [Zero T] (m : Matrix T) (coeffs : List T) (vars : List ArithVar)
    : RowIndex × Matrix T :=
  let requested := m.requestRowIndex
  (requested.1,
    (coeffs.zip vars).foldl (fun m term => m.addEntry requested.1 term.2 term.1) requested.2)

/-- No list is longer than the vector of all entries. -/
def fuel (m : Matrix T) : Nat := m.entries.entries.length

def nextInRow (m : Matrix T) (id : EntryID) : Option EntryID := (m.entries.get id).next true

def nextInCol (m : Matrix T) (id : EntryID) : Option EntryID := (m.entries.get id).next false

def loadEntry (id : EntryID) (m : Matrix T) : Option (Matrix T) := do
  let colVar ← (m.entries.get id).colVar
  return { m with mergeBuffer := Function.update m.mergeBuffer colVar (some (id, false)) }

def loadRowIntoBuffer (m : Matrix T) (rid : RowIndex) : Option (Matrix T) := do
  let m ← forEach nextInRow loadEntry m.fuel (m.rows.get rid).head m
  return { m with rowInMergeBuffer := some rid }

def clearBuffer (m : Matrix T) : Matrix T :=
  { m with rowInMergeBuffer := none, mergeBuffer := fun _ => none }

def removeRow (m : Matrix T) (rid : RowIndex) : Option (Matrix T) := do
  let m ← forEach nextInRow (fun id m => m.removeEntry id) m.fuel (m.rows.get rid).head m
  return m.releaseRowIndex rid

/-- The first entry of the row from `cursor` on that lies in the column. -/
def findFrom (m : Matrix T) (column : ArithVar) : Nat → Option EntryID → Option EntryID
  | 0, _ | _, none => none
  | fuel + 1, some id =>
      if (m.entries.get id).colVar = some column then some id
      else findFrom m column fuel (m.nextInRow id)

def findOnRow (m : Matrix T) (rid : RowIndex) (column : ArithVar) : Option EntryID :=
  m.findFrom column m.fuel (m.rows.get rid).head

section Arithmetic

variable [Ring T]

def multiplyEntry (mult : T) (id : EntryID) (m : Matrix T) : Option (Matrix T) :=
  some (m.setCoefficient id ((m.entries.get id).coefficient * mult))

def multiplyRowByConstant (m : Matrix T) (target : RowIndex) (mult : T) : Option (Matrix T) :=
  forEach nextInRow (multiplyEntry mult) m.fuel (m.rows.get target).head m

/-- An entry of the buffered row that was not used is added to row `target`. -/
def fillIn (target : RowIndex) (mult : T) (id : EntryID) (m : Matrix T) : Option (Matrix T) := do
  let entry := m.entries.get id
  let colVar ← entry.colVar
  let (bufferEntry, used) ← m.mergeBuffer colVar
  if used then
    return { m with
      mergeBuffer := Function.update m.mergeBuffer colVar (some (bufferEntry, false)) }
  else return m.addEntry target colVar (mult * entry.coefficient)

variable [LinearOrder T]

/-- The buffered entry of the column is marked as used and added to the entry. -/
def addBuffered (mult : T) (id : EntryID) (m : Matrix T) : Option (Matrix T) := do
  let entry := m.entries.get id
  let colVar ← entry.colVar
  match m.mergeBuffer colVar with
  | none => return m
  | some (bufferEntry, _) =>
      let coeff := entry.coefficient + mult * (m.entries.get bufferEntry).coefficient
      let m := { m with
        mergeBuffer := Function.update m.mergeBuffer colVar (some (bufferEntry, true)) }
      let m := m.setCoefficient id coeff
      if SignType.sign coeff = 0 then m.removeEntry id else return m

def rowPlusBufferTimesConstant (m : Matrix T) (target : RowIndex) (mult : T)
    : Option (Matrix T) := do
  let m ← whileEach nextInRow (addBuffered mult) m.fuel (m.rows.get target).head m
  let rid ← m.rowInMergeBuffer
  forEach nextInRow (fillIn target mult) m.fuel (m.rows.get rid).head m

def rowPlusRowTimesConstant (m : Matrix T) (target source : RowIndex) (mult : T)
    : Option (Matrix T) := do
  let m ← m.loadRowIntoBuffer source
  let m ← m.rowPlusBufferTimesConstant target mult
  return m.clearBuffer

variable {σ : Type}

/-- An entry is only removed when its sign changes. -/
def addBufferedNotifying (cb : CoefficientChangeCallback σ) (target : RowIndex) (mult : T)
    (id : EntryID) : Matrix T × σ → Option (Matrix T × σ)
  | (m, s) => do
      let entry := m.entries.get id
      let colVar ← entry.colVar
      match m.mergeBuffer colVar with
      | none => return (m, s)
      | some (bufferEntry, _) =>
          let coeff := entry.coefficient + mult * (m.entries.get bufferEntry).coefficient
          let coeffOldSgn := SignType.sign entry.coefficient
          let coeffNewSgn := SignType.sign coeff
          let m := { m with
            mergeBuffer := Function.update m.mergeBuffer colVar (some (bufferEntry, true)) }
          let m := m.setCoefficient id coeff
          if coeffOldSgn ≠ coeffNewSgn then
            let s := cb.update target colVar coeffOldSgn coeffNewSgn s
            if coeffNewSgn = 0 then return (← m.removeEntry id, s) else return (m, s)
          else return (m, s)

def fillInNotifying (cb : CoefficientChangeCallback σ) (target : RowIndex) (mult : T)
    (id : EntryID) : Matrix T × σ → Option (Matrix T × σ)
  | (m, s) => do
      let entry := m.entries.get id
      let colVar ← entry.colVar
      let (bufferEntry, used) ← m.mergeBuffer colVar
      if used then
        return ({ m with
          mergeBuffer := Function.update m.mergeBuffer colVar (some (bufferEntry, false)) }, s)
      else
        let newCoeff := mult * entry.coefficient
        return (m.addEntry target colVar newCoeff,
          cb.update target colVar 0 (SignType.sign newCoeff) s)

def rowPlusBufferTimesConstantNotifying (cb : CoefficientChangeCallback σ) (m : Matrix T)
    (target : RowIndex) (mult : T) (s : σ) : Option (Matrix T × σ) := do
  let (m, s) ← whileEach (fun (m, _) => m.nextInRow) (addBufferedNotifying cb target mult) m.fuel
    (m.rows.get target).head (m, s)
  let rid ← m.rowInMergeBuffer
  forEach (fun (m, _) => m.nextInRow) (fillInNotifying cb target mult) m.fuel (m.rows.get rid).head
    (m, s)

end Arithmetic

end Matrix

end Ava6.Arith.Linear

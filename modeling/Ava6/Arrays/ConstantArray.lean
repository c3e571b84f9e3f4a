import Mathlib

/-! Constant arrays: chains of stores of constants over a constant array, the test whether such a
node is a constant in normal form, and the rewrite to that normal form.
-/

namespace Ava6.Arrays

variable {I V : Type}

/-- STORE nodes over a STORE_ALL. The order on indices and on values is the order of nodes. -/
inductive ArrayNode (I V : Type)
  | storeAll (value : V)
  | store (array : ArrayNode I V) (index : I) (value : V)
  deriving DecidableEq

namespace ArrayNode

def denote [DecidableEq I] : ArrayNode I V → I → V
  | storeAll value => fun _ => value
  | store array index value => Function.update array.denote index value

/-- The nested stores, outermost first. -/
def entries : ArrayNode I V → List (I × V)
  | storeAll _ => []
  | store array index value => (index, value) :: array.entries

/-- The value of the STORE_ALL at the bottom of the nested stores. -/
def defaultValue : ArrayNode I V → V
  | storeAll value => value
  | store array _ _ => array.defaultValue

end ArrayNode

open ArrayNode

variable [LinearOrder I] [LinearOrder V]

/-- The value and the count of the most frequently written value, as stored in the attributes of a
node. A node without attributes has a null value and count zero.
-/
structure MostFrequent (V : Type) where
  value : Option V
  count : Nat

/-- Compute the most frequently written value when `value` is written `valCount` times. -/
def MostFrequent.update (old : MostFrequent V) (value : V) (valCount : Nat) : MostFrequent V :=
  if valCount > old.count ∨ (valCount = old.count ∧ old.value.any (value < ·))
    then ⟨some value, valCount⟩ else old

/-- Adds the stores below to the number of stores and to the number of writes of `value`. -/
def countStores (value : V) : ArrayNode I V → (depth valCount : Nat) → Nat × Nat
  | .storeAll _, depth, valCount => (depth, valCount)
  | .store array _ v, depth, valCount =>
      countStores value array (depth + 1) (if value = v then valCount + 1 else valCount)

/-- The sum of a count and a number of stores, in 32 bits. -/
def sum32 (count depth : Nat) : Nat := (count + depth) % 2 ^ 32

/-- `computeIsConst`, with the attributes it sets. The cardinality of an infinite index sort is
`none`; there no attributes are set.
-/
def computeIsConst (indexCard : Option Nat) : ArrayNode I V → Bool × MostFrequent V
  | .storeAll _ => (true, ⟨none, 0⟩)
  | .store array index value =>
      let (arrayIsConst, attributes) := computeIsConst indexCard array
      let inOrder :=
        match array with
        | .store _ below _ => decide (below < index)
        | .storeAll _ => true
      let (depth, valCount) := countStores value array 1 1
      let defaultValue := array.defaultValue
      if arrayIsConst && inOrder && value ≠ defaultValue then
        match indexCard with
        | none => (true, ⟨none, 0⟩)
        | some card =>
            let mostFrequent := attributes.update value valCount
            let sum := sum32 mostFrequent.count depth
            if card < sum ∨ (card = sum ∧ ¬mostFrequent.value.any (defaultValue < ·)) then
              (false, ⟨none, 0⟩)
            else (true, mostFrequent)
      else (false, ⟨none, 0⟩)

def isConst (indexCard : Option Nat) (n : ArrayNode I V) : Bool := (computeIsConst indexCard n).1

def getMostFrequentValue (indexCard : Option Nat) (n : ArrayNode I V) : MostFrequent V :=
  (computeIsConst indexCard n).2

/-- Where the index is inserted: the stores above it, the last one first, and what is below. -/
structure Descent (I V : Type) where
  above : List (I × V)
  replacedValue : Option V
  below : ArrayNode I V
  depth : Nat
  valCount : Nat

/-- Go through nested stores looking for where to insert index. -/
def descend (index : I) (value : V)
    : ArrayNode I V → List (I × V) → (depth valCount : Nat) → Descent I V
  | .storeAll d, above, depth, valCount => ⟨above, none, .storeAll d, depth, valCount⟩
  | .store array i v, above, depth, valCount =>
      if index = i then ⟨above, some v, array, depth, valCount⟩
      else if i ≤ index then ⟨above, none, .store array i v, depth, valCount⟩
      else descend index value array ((i, v) :: above) (depth + 1)
        (if value = v then valCount + 1 else valCount)

/-- Build the rest of the store after inserting or deleting. -/
def rebuild (n : ArrayNode I V) (above : List (I × V)) : ArrayNode I V :=
  above.foldl (fun n entry => .store n entry.1 entry.2) n

/-- The value counts of the bad case; the innermost entry comes first. -/
structure Recount (I V : Type) where
  entries : List (I × V)
  elementsMap : V → Nat
  max : Nat
  maxValue : Option V

def recount : ArrayNode I V → Recount I V → Recount I V
  | .storeAll _, counts => counts
  | .store array i v, counts =>
      let count := counts.elementsMap v + 1
      let isMax := count > counts.max ∨ (count = counts.max ∧ counts.maxValue.any (v < ·))
      recount array {
        entries := (i, v) :: counts.entries
        elementsMap := Function.update counts.elementsMap v count
        max := if isMax then count else counts.max
        maxValue := if isMax then some v else counts.maxValue }

/-- Whether an index is not greater than the one before it. -/
def needToSort : List I → Bool
  | first :: second :: rest => !decide (first < second) || needToSort (second :: rest)
  | _ => false

/-- The indices that are not stored to, in order. -/
def newIndices (card : Nat) (enumeration : List I) (indexSet : List I) : List I :=
  let found := (enumeration.take card).filter (· ∉ indexSet)
  if needToSort found then found.insertionSort (· ≤ ·) else found

/-- Stores the old default value to the new indices and the other values to the old ones. An index
in both lists would not be passed.
-/
def swapDefault (defaultValue maxValue : V)
    : ArrayNode I V → List I → List (I × V) → Option (ArrayNode I V)
  | n, [], [] => some n
  | n, new :: news, [] => swapDefault defaultValue maxValue (.store n new defaultValue) news []
  | n, [], old :: olds =>
      swapDefault defaultValue maxValue
        (if old.2 ≠ maxValue then .store n old.1 old.2 else n) [] olds
  | n, new :: news, old :: olds =>
      if new < old.1 then
        swapDefault defaultValue maxValue (.store n new defaultValue) news (old :: olds)
      else if old.1 < new then
        swapDefault defaultValue maxValue
          (if old.2 ≠ maxValue then .store n old.1 old.2 else n) (new :: news) olds
      else none
  termination_by _ news olds => news.length + olds.length

/-- Whether the default value is more frequent than a value written `count` times, or as frequent
and less.
-/
def defaultStays (card sum : Nat) (defaultValue : V) (mostFrequentValue : Option V) : Bool :=
  sum < card || (sum == card && mostFrequentValue.any (defaultValue < ·))

/-- Keeps the default value, or switches to a more frequent one: the end of `normalizeConstant` with
a finite index sort, where `n` has `depth` stores.
-/
def chooseDefault (card : Nat) (enumeration : List I) (n : ArrayNode I V) (defaultValue : V)
    (depth : Nat) (mostFrequent : MostFrequent V) : Option (ArrayNode I V) :=
  if defaultStays card (sum32 mostFrequent.count depth) defaultValue mostFrequent.value then some n
  else
    let counts := recount n ⟨[], fun _ => 0, 0, none⟩
    if defaultStays card (sum32 counts.max depth) defaultValue counts.maxValue then some n
    else do
      let maxValue ← counts.maxValue
      swapDefault defaultValue maxValue (.storeAll maxValue)
        (newIndices card enumeration (counts.entries.map Prod.fst)) counts.entries

/-- `normalizeConstant` with a cardinality, on a store to a constant array. -/
def normalizeStore (indexCard : Option Nat) (enumeration : List I) (array : ArrayNode I V)
    (index : I) (value : V) : Option (ArrayNode I V) :=
  let descent := descend index value array [] 1 1
  let (depth, valCount) := countStores value descent.below descent.depth descent.valCount
  let defaultValue := descent.below.defaultValue
  if value = defaultValue then
    if descent.replacedValue.isNone then some array
    else some (rebuild descent.below descent.above)
  else
    let n := rebuild (.store descent.below index value) descent.above
    match indexCard with
    | none => some n
    | some card =>
        chooseDefault card enumeration n defaultValue depth
          ((getMostFrequentValue indexCard array).update value valCount)

def normalizeConstant (indexCard : Option Nat) (enumeration : List I)
    : ArrayNode I V → Option (ArrayNode I V)
  | .storeAll value => some (.storeAll value)
  | .store array index value =>
      if isConst indexCard (.store array index value) then some (.store array index value)
      else normalizeStore indexCard enumeration array index value

/-- The rewriting of a chain of stores from the inside out. -/
def rewriteChain (indexCard : Option Nat) (enumeration : List I)
    : ArrayNode I V → Option (ArrayNode I V)
  | .storeAll value => some (.storeAll value)
  | .store array index value => do
      let array ← rewriteChain indexCard enumeration array
      normalizeConstant indexCard enumeration (.store array index value)

/-- The EQUAL case of `postRewrite`, where it answers. -/
def postRewriteEqual (indexCard : Option Nat) (a b : ArrayNode I V) : Option Bool :=
  if a = b then some true
  else if isConst indexCard a && isConst indexCard b then some false
  else none

end Ava6.Arrays

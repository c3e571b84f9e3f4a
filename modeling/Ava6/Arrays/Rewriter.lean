import Ava6.Arrays.ConstantArray
import Ava6.Arrays.Node

/-! The rewriter of the theory of arrays: reads over writes, the reordering of writes, and equalities. The
order on nodes and the rewriting of equalities between indices are arbitrary.
-/

namespace Ava6.Arrays

variable [LinearOrder Node]

/-- What is known of the sorts: the cardinality, if it is finite, and the type enumerator. -/
structure Sorts where
  cardinality : TypeNode → Option Nat
  enumerate : TypeNode → List Node

omit [LinearOrder Node] in
/-- The nested stores over a STORE_ALL. -/
def Node.chain : Node → Option (ArrayNode Node Node)
  | .storeAll _ value => some (.storeAll value)
  | .store array index value => array.chain.map (fun below => .store below index value)
  | _ => none

omit [LinearOrder Node] in
def ofChain (indexType : TypeNode) : ArrayNode Node Node → Node
  | .storeAll value => .storeAll indexType value
  | .store array index value => .store (ofChain indexType array) index value

def Sorts.indexCard (sorts : Sorts) (index : Node) : Option Nat := index.getType.bind sorts.cardinality

/-- A store is a constant if its children are and it is in normal form. -/
def Node.isConst (sorts : Sorts) : Node → Bool
  | .constBoolean _ | .constant _ _ => true
  | .storeAll _ value => value.isConst sorts
  | .store array index value =>
      array.isConst sorts && index.isConst sorts && value.isConst sorts
        && (Node.store array index value).chain.any (Arrays.isConst (sorts.indexCard index))
  | _ => false

namespace TheoryArraysRewriter

variable (sorts : Sorts) (mkEqNode : Node → Node → Node)

def normalizeConstant (array index value : Node) : Option Node := do
  let indexType ← index.getType
  let below ← array.chain
  let normal ← Arrays.normalizeConstant (sorts.cardinality indexType) (sorts.enumerate indexType)
    (.store below index value)
  return ofChain indexType normal

omit [LinearOrder Node] in
/-- The value of a constant of type Bool. -/
def constBoolean? : Node → Option Bool
  | .constBoolean value => some value
  | _ => none

/-- Whether the index is the one of a store, where this can be decided without rewriting. -/
def compareSyntactic (index stored : Node) : Option Bool :=
  if index = stored then some true
  else if index.isConst sorts && stored.isConst sorts then some false
  else none

/-- Whether the index is the one of a store, where this can be decided. -/
def compareIndices (index stored : Node) : Option Bool :=
  if index = stored then some true
  else if index.isConst sorts && stored.isConst sorts then some false
  else constBoolean? (mkEqNode stored index)

/-- Where a walk through the stores ends: at the value read, or at an array below some stores, the innermost
one of them first. -/
inductive Walk
  | found (value : Node)
  | stopped (array : Node) (skipped : List (Node × Node))

/-- Whether the store to an index can be moved past, where the index is another one. -/
def canMovePast (index stored : Node) : Bool :=
  if index.isConst sorts then stored.isConst sorts
  else constBoolean? (mkEqNode stored index) = some false

/-- The loop of `computeNormalizeOp`; only the stores of a STORE are ordered. -/
def normalizeWalk (isStore : Bool) (index : Node) : Node → List (Node × Node) → Walk
  | .store array stored value, skipped =>
      if stored = index then
        if isStore then .stopped array skipped else .found value
      else if isStore && stored < index then .stopped (.store array stored value) skipped
      else if canMovePast sorts mkEqNode index stored then
        normalizeWalk isStore index array ((stored, value) :: skipped)
      else .stopped (.store array stored value) skipped
  | array, skipped => .stopped array skipped

omit [LinearOrder Node] in
/-- Add back the stores that were skipped. -/
def addBack (array : Node) (skipped : List (Node × Node)) : Node :=
  skipped.foldl (fun n entry => .store n entry.1 entry.2) array

/-- Nothing if no store is skipped. -/
def computeNormalizeOp : Node → Option Node
  | .select array index =>
      match normalizeWalk sorts mkEqNode false index array [] with
      | .found value => some value
      | .stopped _ [] => none
      | .stopped below _ => some (.select below index)
  | .store array index value =>
      match normalizeWalk sorts mkEqNode true index array [] with
      | .found _ => none
      | .stopped _ [] => none
      | .stopped below skipped => some (addBack (.store below index value) skipped)
  | _ => none

inductive RewriteStatus
  | done | again | againFull

structure RewriteResponse where
  status : RewriteStatus
  node : Node

omit [LinearOrder Node] in
/-- Reads through the stores as far as the indices can be compared. -/
def readStores (compare : Node → Option Bool) : Node → Walk
  | .store array stored value =>
      match compare stored with
      | none => .stopped (.store array stored value) []
      | some true => .found value
      | some false => readStores compare array
  | array => .stopped array []

/-- A SELECT from the array where reading stopped. -/
def selectBelow (array index below : Node) : RewriteResponse :=
  match below with
  | .storeAll _ value => ⟨.done, value⟩
  | _ => if below ≠ array then ⟨.done, .select below index⟩ else ⟨.done, .select array index⟩

/-- Finds where a store is inserted among the others; a store to the same index is dropped. -/
def insertionWalk (index : Node) : Node → List (Node × Node) → Node × List (Node × Node)
  | .store array stored value, skipped =>
      match compareIndices sorts mkEqNode index stored with
      | none => (.store array stored value, skipped)
      | some true => (array, skipped)
      | some false =>
          if index < stored then insertionWalk index array ((stored, value) :: skipped)
          else (.store array stored value, skipped)
  | array, skipped => (array, skipped)

/-- The store moved below others, unless it writes what is there already. -/
def reorderStores (array stored element index value : Node) : Node :=
  let (below, skipped) := insertionWalk sorts mkEqNode index array [(stored, element)]
  addBack (if value = .select below index then below else .store below index value) skipped

/-- The STORE case; nothing if the assertion that the reordered node is another one fails. -/
def postRewriteStore (array index value : Node) : Option RewriteResponse :=
  let node := Node.store array index value
  if value = .select array index then some ⟨.done, array⟩
  else if array.isConst sorts && index.isConst sorts && value.isConst sorts then
    (normalizeConstant sorts array index value).map (RewriteResponse.mk .done)
  else
    match array with
    | .store array' stored element =>
        match compareIndices sorts mkEqNode index stored with
        | none => some ⟨.done, node⟩
        | some true => some ⟨.again, .store array' index value⟩
        | some false =>
            if index < stored then
              let n := reorderStores sorts mkEqNode array' stored element index value
              if n ≠ node then some ⟨.againFull, n⟩ else none
            else some ⟨.done, node⟩
    | _ => some ⟨.done, node⟩

def postRewrite : Node → Option RewriteResponse
  | .select array index =>
      match readStores (compareIndices sorts mkEqNode index) array with
      | .found value => some ⟨.done, value⟩
      | .stopped below _ => some (selectBelow array index below)
  | .store array index value => postRewriteStore sorts mkEqNode array index value
  | .equal left right =>
      if left = right then some ⟨.done, .constBoolean true⟩
      else if left.isConst sorts && right.isConst sorts then some ⟨.done, .constBoolean false⟩
      else if left > right then some ⟨.done, .equal right left⟩
      else some ⟨.done, .equal left right⟩
  | node => some ⟨.done, node⟩

def preRewrite : Node → RewriteResponse
  | .select array index =>
      match readStores (compareSyntactic sorts index) array with
      | .found value => ⟨.again, value⟩
      | .stopped below _ => selectBelow array index below
  | .store array index value =>
      if value = .select array index then ⟨.again, array⟩
      else
        match array with
        | .store array' stored _ =>
            match compareSyntactic sorts index stored with
            | some true => ⟨.again, .store array' index value⟩
            | _ => ⟨.done, .store array index value⟩
        | _ => ⟨.done, .store array index value⟩
  | .equal left right =>
      if left = right then ⟨.done, .constBoolean true⟩ else ⟨.done, .equal left right⟩
  | node => ⟨.done, node⟩

end TheoryArraysRewriter

end Ava6.Arrays

import Mathlib.Data.List.Basic
import Mathlib.Logic.Function.Iterate

/-! The data of the context-dependent objects: what each operation does to it, what a saved
copy holds and how a copy is restored.
-/

namespace Ava6.CD

variable {α K D I : Type} [DecidableEq K]

structure CDList (α : Type) where
  dList : List α
  dSize : Nat

namespace CDList

def empty : CDList α := ⟨[], 0⟩

def pushBack (l : CDList α) (data : α) : CDList α := ⟨l.dList ++ [data], l.dSize + 1⟩

def truncateList (l : CDList α) (size : Nat) : CDList α := ⟨l.dList.take size, size⟩

end CDList

/-- `dIter` is the next element to dequeue and `dLastsave` the size at the last save. -/
structure CDQueue (α : Type) extends CDList α where
  dIter : Nat
  dLastsave : Nat

namespace CDQueue

def empty : CDQueue α := ⟨CDList.empty, 0, 0⟩

def isEmpty (q : CDQueue α) : Bool := q.dIter == q.dSize

def push (q : CDQueue α) (data : α) : CDQueue α := { q with toCDList := q.pushBack data }

/-- Undefined on an empty queue. Once the queue is empty, the elements enqueued since the last
save go. -/
def pop (q : CDQueue α) : Option (CDQueue α) :=
  if q.isEmpty then none
  else
    let q := { q with dIter := q.dIter + 1 }
    if q.isEmpty && q.dLastsave != q.dSize then
      some { q with toCDList := q.truncateList q.dLastsave, dIter := q.dLastsave }
    else some q

end CDQueue

/-- The keys as a stack and the table for lookups. -/
structure InsertHashMap (K D : Type) where
  dKeys : List K
  dHashMap : List (K × D)

namespace InsertHashMap

def find (m : InsertHashMap K D) (k : K) : Option D :=
  (m.dHashMap.find? (·.1 = k)).map (·.2)

def contains (m : InsertHashMap K D) (k : K) : Bool := (m.find k).isSome

/-- Undefined when the key is mapped. -/
def pushBack (m : InsertHashMap K D) (k : K) (d : D) : Option (InsertHashMap K D) :=
  if m.contains k then none else some ⟨m.dKeys ++ [k], m.dHashMap ++ [(k, d)]⟩

def popBack (m : InsertHashMap K D) : InsertHashMap K D :=
  match m.dKeys.getLast? with
  | none => m
  | some back => ⟨m.dKeys.dropLast, m.dHashMap.filter (·.1 ≠ back)⟩

/-- Pops while there are more than `s` keys. -/
def popToSize (m : InsertHashMap K D) (s : Nat) : InsertHashMap K D :=
  popBack^[m.dKeys.length - s] m

end InsertHashMap

structure CDInsertHashMap (K D : Type) where
  dInsertMap : InsertHashMap K D
  dSize : Nat

namespace CDInsertHashMap

def empty : CDInsertHashMap K D := ⟨⟨[], []⟩, 0⟩

def insert (m : CDInsertHashMap K D) (k : K) (d : D) : Option (CDInsertHashMap K D) :=
  (m.dInsertMap.pushBack k d).map fun inserted => ⟨inserted, m.dSize + 1⟩

end CDInsertHashMap

/-- An element of a `CDHashMap`, a context-dependent object of its own. `dMap` is null until
the element is linked into its map. -/
structure CDOhashMap (K D I : Type) where
  key : K
  data : D
  dMap : Option I

/-- The table from keys to elements and the ring of the elements in the order of insertion,
from the first one on. -/
structure CDHashMap (K I : Type) where
  dMap : List (K × I)
  ring : List I

namespace CDHashMap

def empty : CDHashMap K I := ⟨[], []⟩

def find (h : CDHashMap K I) (k : K) : Option I := (h.dMap.find? (·.1 = k)).map (·.2)

/-- Links a new element in before the first one, at the end of the ring. -/
def link (h : CDHashMap K I) (k : K) (e : I) : CDHashMap K I :=
  ⟨h.dMap ++ [(k, e)], h.ring ++ [e]⟩

def unlink [DecidableEq I] (h : CDHashMap K I) (k : K) (e : I) : CDHashMap K I :=
  ⟨h.dMap.filter (·.1 ≠ k), h.ring.filter (· ≠ e)⟩

end CDHashMap

inductive Payload (α K D I : Type)
  | cdList (l : CDList α)
  | cdQueue (q : CDQueue α)
  | cdInsertHashMap (m : CDInsertHashMap K D)
  | cdHashMap (h : CDHashMap K I)
  | element (e : CDOhashMap K D I)

/-- What the copy constructors copy. -/
inductive Saved (D I : Type)
  | cdList (dSize : Nat)
  | cdQueue (dSize dIter dLastsave : Nat)
  | cdInsertHashMap (dSize : Nat)
  | element (data : D) (dMap : Option I)

namespace Payload

/-- The copy and the object after saving; a `CDHashMap` itself is never saved. -/
def save : Payload α K D I → Option (Saved D I × Payload α K D I)
  | .cdList l => some (.cdList l.dSize, .cdList l)
  | .cdQueue q =>
      some (.cdQueue q.dSize q.dIter q.dLastsave, .cdQueue { q with dLastsave := q.dSize })
  | .cdInsertHashMap m => some (.cdInsertHashMap m.dSize, .cdInsertHashMap m)
  | .cdHashMap _ => none
  | .element e => some (.element e.data e.dMap, .element e)

/-- The data after restoring the copy. -/
def restore : Payload α K D I → Saved D I → Payload α K D I
  | .cdList l, .cdList dSize => .cdList (l.truncateList dSize)
  | .cdQueue q, .cdQueue dSize dIter dLastsave =>
      .cdQueue ⟨q.truncateList dSize, dIter, dLastsave⟩
  | .cdInsertHashMap m, .cdInsertHashMap dSize =>
      .cdInsertHashMap ⟨m.dInsertMap.popToSize dSize, dSize⟩
  | .element ⟨key, _, some m⟩, .element data (some _) => .element ⟨key, data, some m⟩
  | p, _ => p

/-- The key under which, and the map from which, restoring the copy removes an element. -/
def leaves : Payload α K D I → Saved D I → Option (K × I)
  | .element e, .element _ none => e.dMap.map (e.key, ·)
  | _, _ => none

end Payload

end Ava6.CD

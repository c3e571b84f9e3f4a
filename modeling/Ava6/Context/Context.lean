import Ava6.Context.Objects
import Ava6.Library.Snapshot

/-! The context: its scopes with the objects that have a version in them, the lazy saving of
an object before it is modified in a new scope, and the restoring of a scope's objects when
the scope is popped.
-/

namespace Ava6.CD

/-- `scope` is the level of `d_pScope`. `restore` are the saved copies the restore pointers
lead to, each with the level it belongs to, latest first. -/
structure ContextObj (α K D I : Type) where
  scope : Nat
  restore : List (Nat × Saved D I)
  payload : Payload α K D I

/-- The chain of the bottom scope, the chains of the scopes above it from the top one down, and
the objects by address. A saved copy takes the place of its object in the chain, so a chain
lists the objects with a version in the scope. -/
@[ext]
structure Context (α K D I : Type) where
  bottom : List I
  upper : List (List I)
  objs : I → Option (ContextObj α K D I)

namespace Context

variable {α K D I : Type} [DecidableEq K] [DecidableEq I]

def initial : Context α K D I := ⟨[], [], fun _ => none⟩

def getLevel (s : Context α K D I) : Nat := s.upper.length

def setObj (s : Context α K D I) (id : I) (o : ContextObj α K D I) : Context α K D I :=
  { s with objs := Function.update s.objs id (some o) }

/-- Adds an object at the front of the chain of the top scope. -/
def addToTopChain (s : Context α K D I) (id : I) : Context α K D I :=
  match s.upper with
  | [] => { s with bottom := id :: s.bottom }
  | chain :: rest => { s with upper := (id :: chain) :: rest }

/-- Saves the object and moves it to the top scope. -/
def update (s : Context α K D I) (id : I) (o : ContextObj α K D I)
    : Option (Context α K D I × ContextObj α K D I) :=
  o.payload.save.map fun (saved, payload) =>
    let moved := ⟨s.getLevel, (o.scope, saved) :: o.restore, payload⟩
    ((s.setObj id moved).addToTopChain id, moved)

def makeCurrent (s : Context α K D I) (id : I) (o : ContextObj α K D I)
    : Option (Context α K D I × ContextObj α K D I) :=
  if o.scope = s.getLevel then some (s, o) else s.update id o

/-- Makes an object current and changes its data. -/
def modify (s : Context α K D I) (id : I)
    (change : Payload α K D I → Option (Payload α K D I)) : Option (Context α K D I) := do
  let o ← s.objs id
  let (s, o) ← s.makeCurrent id o
  let payload ← change o.payload
  return s.setObj id { o with payload := payload }

def push (s : Context α K D I) : Context α K D I := { s with upper := [] :: s.upper }

/-- Takes an element out of its map. -/
def unlinkElement (objs : I → Option (ContextObj α K D I)) (k : K) (m e : I)
    : I → Option (ContextObj α K D I) :=
  match objs m with
  | some ⟨scope, restore, .cdHashMap h⟩ =>
      Function.update objs m (some ⟨scope, restore, .cdHashMap (h.unlink k e)⟩)
  | _ => objs

/-- Restores one object of the scope that is popped. An element that leaves its map is put on
the garbage of the scope. -/
def restoreAndContinue (state : (I → Option (ContextObj α K D I)) × List I) (id : I)
    : (I → Option (ContextObj α K D I)) × List I :=
  match state.1 id with
  | some ⟨_, (scope, saved) :: rest, payload⟩ =>
      let (objs, garbage) :=
        match payload.leaves saved with
        | some (k, m) => (unlinkElement state.1 k m id, state.2 ++ [id])
        | none => state
      (Function.update objs id (some ⟨scope, rest, payload.restore saved⟩), garbage)
  | _ => state

/-- Destroys an object: it and its saved copies leave their chains. -/
def deleteSelf (s : Context α K D I) (id : I) : Context α K D I where
  bottom := s.bottom.filter (· ≠ id)
  upper := s.upper.map (·.filter (· ≠ id))
  objs := Function.update s.objs id none

/-- Restores the objects of the top scope and deletes its garbage. -/
def pop (s : Context α K D I) : Option (Context α K D I) :=
  match s.upper with
  | [] => none
  | chain :: rest =>
      let (objs, garbage) := chain.foldl restoreAndContinue (s.objs, [])
      some (garbage.foldl deleteSelf ⟨s.bottom, rest, objs⟩)

/-- The constructor of an object registers it in the bottom scope, whatever the level is. -/
def register (s : Context α K D I) (id : I) (payload : Payload α K D I)
    : Option (Context α K D I) :=
  match s.objs id with
  | some _ => none
  | none => some { (s.setObj id ⟨0, [], payload⟩) with bottom := id :: s.bottom }

def changeList (data : α) : Payload α K D I → Option (Payload α K D I)
  | .cdList l => some (.cdList (l.pushBack data))
  | _ => none

def changeQueuePush (data : α) : Payload α K D I → Option (Payload α K D I)
  | .cdQueue q => some (.cdQueue (q.push data))
  | _ => none

def changeQueuePop : Payload α K D I → Option (Payload α K D I)
  | .cdQueue q => q.pop.map .cdQueue
  | _ => none

def changeInsert (k : K) (d : D) : Payload α K D I → Option (Payload α K D I)
  | .cdInsertHashMap m => (m.insert k d).map .cdInsertHashMap
  | _ => none

def changeElement (d : D) : Payload α K D I → Option (Payload α K D I)
  | .element e => some (.element { e with data := d })
  | _ => none

/-- Points an element to its map, after it was made current. -/
def setMap (m : I) : Payload α K D I → Payload α K D I
  | .element e => .element { e with dMap := some m }
  | p => p

/-- The constructor of an element at the address `e`: registers the object, sets its data while
the map is still null, and links it into the map. -/
def newElement (s : Context α K D I) (m : I) (k : K) (d : D) (e : I)
    : Option (Context α K D I) := do
  let s ← s.register e (.element ⟨k, d, none⟩)
  let s ← s.modify e (changeElement d)
  let o ← s.objs e
  let s := s.setObj e { o with payload := setMap m o.payload }
  match s.objs m with
  | some ⟨scope, restore, .cdHashMap h⟩ =>
      return s.setObj m ⟨scope, restore, .cdHashMap (h.link k e)⟩
  | _ => none

/-- The map at an address. -/
def hashMapAt (s : Context α K D I) (m : I) : Option (CDHashMap K I) :=
  match s.objs m with
  | some ⟨_, _, .cdHashMap h⟩ => some h
  | _ => none

/-- The `CDInsertHashMap` at an address. -/
def insertMapAt (s : Context α K D I) (m : I) : Option (CDInsertHashMap K D) :=
  match s.objs m with
  | some ⟨_, _, .cdInsertHashMap h⟩ => some h
  | _ => none

/-- `CDHashMap::insert`. -/
def hashInsert (s : Context α K D I) (m : I) (k : K) (d : D) (e : I)
    : Option (Context α K D I) := do
  let h ← s.hashMapAt m
  match h.find k with
  | some old => s.modify old (changeElement d)
  | none => s.newElement m k d e

/-- `CDHashMap::operator[]`, which inserts the default value under a new key. -/
def subscript [Inhabited D] (s : Context α K D I) (m : I) (k : K) (e : I)
    : Option (Context α K D I) := do
  let h ← s.hashMapAt m
  match h.find k with
  | some _ => return s
  | none => s.newElement m k default e

/-- Assigns to what `operator[]` returns. -/
def subscriptAssign [Inhabited D] (s : Context α K D I) (m : I) (k : K) (d : D) (e : I)
    : Option (Context α K D I) := do
  let s ← s.subscript m k e
  let h ← s.hashMapAt m
  let old ← h.find k
  s.modify old (changeElement d)

/-- The mutating operations. `e` is the address the allocator returns when the operation
creates an element. -/
inductive Step (α K D I : Type)
  | listPushBack (id : I) (data : α)
  | queuePush (id : I) (data : α)
  | queuePop (id : I)
  | insert (id : I) (k : K) (d : D)
  | insertSafe (id : I) (k : K) (d : D)
  | hashInsert (id : I) (k : K) (d : D) (e : I)
  | subscript (id : I) (k : K) (e : I)
  | subscriptAssign (id : I) (k : K) (d : D) (e : I)

/-- The kinds of containers. -/
inductive Kind
  | cdList | cdQueue | cdInsertHashMap | cdHashMap
  deriving DecidableEq, Repr

/-- Creating a container at an address. -/
structure Creation (I : Type) where
  id : I
  kind : Kind

/-- The data of a new container. -/
def Kind.new : Kind → Payload α K D I
  | .cdList => .cdList CDList.empty
  | .cdQueue => .cdQueue CDQueue.empty
  | .cdInsertHashMap => .cdInsertHashMap CDInsertHashMap.empty
  | .cdHashMap => .cdHashMap CDHashMap.empty

variable [Inhabited D]

def step (s : Context α K D I) : Step α K D I → Option (Context α K D I)
  | .listPushBack id data => s.modify id (changeList data)
  | .queuePush id data => s.modify id (changeQueuePush data)
  | .queuePop id => s.modify id changeQueuePop
  | .insert id k d => s.modify id (changeInsert k d)
  | .insertSafe id k d => do
      let m ← s.insertMapAt id
      if m.dInsertMap.contains k then return s else s.modify id (changeInsert k d)
  | .hashInsert id k d e => s.hashInsert id k d e
  | .subscript id k e => s.subscript id k e
  | .subscriptAssign id k d e => s.subscriptAssign id k d e

open Ava6.Library.Snapshot in
/-- The context as a store with levels. -/
def store : Store (Context α K D I) (Step α K D I) (Creation I) where
  step := step
  extend s creation := s.register creation.id creation.kind.new
  push := push
  pop := pop
  level := getLevel

end Context

end Ava6.CD

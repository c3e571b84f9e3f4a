import Ava6.Context.Creation

/-! What can be observed of the containers, and the containers an implementation would have
that copies them as a whole.
-/

set_option linter.unusedSectionVars false

namespace Ava6.CD

open Context (Kind Step Creation)

variable {α K D I : Type} [DecidableEq K] [DecidableEq I]

/-- The contents of a container: the elements of a list, the remaining elements of a queue, the
entries of a map in the order of insertion. -/
inductive Container (α K D : Type)
  | list (items : List α)
  | queue (items : List α)
  | insertMap (entries : List (K × D))
  | hashMap (entries : List (K × D))

namespace Container

def lookup (entries : List (K × D)) (k : K) : Option D := (entries.find? (·.1 = k)).map (·.2)

/-- Replaces the data of a mapped key where it stands, and appends a new key. -/
def assign (entries : List (K × D)) (k : K) (d : D) : List (K × D) :=
  if (lookup entries k).isSome then entries.map fun entry => if entry.1 = k then (k, d) else entry
  else entries ++ [(k, d)]

def new : Kind → Container α K D
  | .cdList => .list []
  | .cdQueue => .queue []
  | .cdInsertHashMap => .insertMap []
  | .cdHashMap => .hashMap []

end Container

/-- The containers by address. -/
abbrev Containers (α K D I : Type) := I → Option (Container α K D)

namespace Containers

/-- Changes the container at an address. -/
def change (c : Containers α K D I) (id : I)
    (f : Container α K D → Option (Container α K D)) : Option (Containers α K D I) := do
  let container ← c id
  let changed ← f container
  return Function.update c id (some changed)

/-- The operations on plain containers. -/
def step [Inhabited D] (c : Containers α K D I) : Step α K D I → Option (Containers α K D I)
  | .listPushBack id data => c.change id fun
      | .list items => some (.list (items ++ [data]))
      | _ => none
  | .queuePush id data => c.change id fun
      | .queue items => some (.queue (items ++ [data]))
      | _ => none
  | .queuePop id => c.change id fun
      | .queue (_ :: items) => some (.queue items)
      | _ => none
  | .insert id k d => c.change id fun
      | .insertMap entries =>
          if (Container.lookup entries k).isSome then none else some (.insertMap (entries ++ [(k, d)]))
      | _ => none
  | .insertSafe id k d => c.change id fun
      | .insertMap entries =>
          if (Container.lookup entries k).isSome then some (.insertMap entries)
          else some (.insertMap (entries ++ [(k, d)]))
      | _ => none
  | .hashInsert id k d _ | .subscriptAssign id k d _ => c.change id fun
      | .hashMap entries => some (.hashMap (Container.assign entries k d))
      | _ => none
  | .subscript id k _ => c.change id fun
      | .hashMap entries =>
          if (Container.lookup entries k).isSome then some (.hashMap entries)
          else some (.hashMap (entries ++ [(k, default)]))
      | _ => none

def create (c : Containers α K D I) (creation : Creation I) : Option (Containers α K D I) :=
  if (c creation.id).isNone then
    some (Function.update c creation.id (some (Container.new creation.kind)))
  else none

end Containers

/-- The observations of the containers; `get` is `operator[]` of a list. -/
inductive Query (K : Type)
  | contents
  | size
  | empty
  | get (i : Nat)
  | front
  | back
  | find (k : K)
  | keys

inductive Answer (α K D : Type)
  | items (items : List α)
  | entries (entries : List (K × D))
  | keys (keys : List K)
  | number (n : Nat)
  | flag (b : Bool)
  | item (item : Option α)
  | data (d : Option D)

/-- The answer of a plain container; none where the container has no such observation. -/
def Container.answer : Container α K D → Query K → Option (Answer α K D)
  | .list items, .contents => some (.items items)
  | .list items, .size => some (.number items.length)
  | .list items, .empty => some (.flag items.isEmpty)
  | .list items, .get i => some (.item items[i]?)
  | .list items, .back => some (.item items.getLast?)
  | .queue items, .contents => some (.items items)
  | .queue items, .size => some (.number items.length)
  | .queue items, .empty => some (.flag items.isEmpty)
  | .queue items, .front => some (.item items.head?)
  | .queue items, .back => some (.item items.getLast?)
  | .insertMap entries, .size => some (.number entries.length)
  | .insertMap entries, .empty => some (.flag entries.isEmpty)
  | .insertMap entries, .find k => some (.data (lookup entries k))
  | .insertMap entries, .keys => some (.keys (entries.map (·.1)))
  | .hashMap entries, .contents => some (.entries entries)
  | .hashMap entries, .size => some (.number entries.length)
  | .hashMap entries, .empty => some (.flag entries.isEmpty)
  | .hashMap entries, .find k => some (.data (lookup entries k))
  | _, _ => none

namespace Context

/-- The data of the object at an address. -/
def payloadAt (s : Context α K D I) (id : I) : Option (Payload α K D I) :=
  (s.objs id).map (·.payload)

/-- The key and the data of an element. -/
def valueAt (payloads : I → Option (Payload α K D I)) (e : I) : Option (K × D) :=
  match payloads e with
  | some (.element x) => some (x.key, x.data)
  | _ => none

/-- What the code returns for an observation. -/
def answerAt (payloads : I → Option (Payload α K D I))
    : Payload α K D I → Query K → Option (Answer α K D)
  | .cdList l, .contents => some (.items l.dList)
  | .cdList l, .size => some (.number l.dList.length)
  | .cdList l, .empty => some (.flag l.dList.isEmpty)
  | .cdList l, .get i => some (.item (if i < l.dSize then l.dList[i]? else none))
  | .cdList l, .back => some (.item (if 0 < l.dSize then l.dList[l.dSize - 1]? else none))
  | .cdQueue q, .contents => some (.items (q.dList.drop q.dIter))
  | .cdQueue q, .size => some (.number (q.dSize - q.dIter))
  | .cdQueue q, .empty => some (.flag q.isEmpty)
  | .cdQueue q, .front => some (.item (if q.isEmpty then none else q.dList[q.dIter]?))
  | .cdQueue q, .back => some (.item (if q.isEmpty then none else q.dList[q.dSize - 1]?))
  | .cdInsertHashMap m, .size => some (.number m.dSize)
  | .cdInsertHashMap m, .empty => some (.flag (m.dSize == 0))
  | .cdInsertHashMap m, .find k => some (.data (m.dInsertMap.find k))
  | .cdInsertHashMap m, .keys => some (.keys m.dInsertMap.dKeys)
  | .cdHashMap h, .contents => some (.entries (h.ring.filterMap (valueAt payloads)))
  | .cdHashMap h, .size => some (.number h.dMap.length)
  | .cdHashMap h, .empty => some (.flag h.dMap.isEmpty)
  | .cdHashMap h, .find k => some (.data ((h.find k).bind fun e => (valueAt payloads e).map (·.2)))
  | _, _ => none

def answer (s : Context α K D I) (id : I) (query : Query K) : Option (Answer α K D) :=
  (s.payloadAt id).bind (answerAt s.payloadAt · query)

/-- The contents of an object; an element is part of its map. -/
def contentOf (payloads : I → Option (Payload α K D I))
    : Payload α K D I → Option (Container α K D)
  | .cdList l => some (.list l.dList)
  | .cdQueue q => some (.queue (q.dList.drop q.dIter))
  | .cdInsertHashMap m => some (.insertMap m.dInsertMap.dHashMap)
  | .cdHashMap h => some (.hashMap (h.ring.filterMap (valueAt payloads)))
  | .element _ => none

/-- The plain containers a context stands for. -/
def view (s : Context α K D I) : Containers α K D I :=
  fun id => (s.payloadAt id).bind (contentOf s.payloadAt)

/-- Elements listed with their keys, by induction on the list. -/
theorem values_of_entries {payloads : I → Option (Payload α K D I)} {entries : List (K × I)}
    (all : ∀ entry ∈ entries, ∃ d, valueAt payloads entry.2 = some (entry.1, d))
    : ((entries.map (·.2)).filterMap (valueAt payloads)).map (·.1) = entries.map (·.1)
      ∧ ∀ k, Container.lookup ((entries.map (·.2)).filterMap (valueAt payloads)) k
        = ((entries.find? (·.1 = k)).map (·.2)).bind fun e => (valueAt payloads e).map (·.2) := by
  induction entries with
  | nil => exact ⟨rfl, fun _ => rfl⟩
  | cons entry rest ih =>
    obtain ⟨d, value⟩ := all entry (List.mem_cons_self ..)
    obtain ⟨keys, lookups⟩ := ih fun other inside => all other (List.mem_cons_of_mem _ inside)
    rw [List.map_cons, List.filterMap_cons_some value]
    refine ⟨by rw [List.map_cons, keys, List.map_cons], fun k => ?_⟩
    have rest := lookups k
    simp only [Container.lookup] at rest ⊢
    by_cases same : entry.1 = k
    · simp [same, value]
    · simp only [List.find?_cons, same, decide_false]
      exact rest

section Map
variable {s : Context α K D I} (inv : s.Inv) {m : I} {h : CDHashMap K I}
  (found : s.payloadAt m = some (.cdHashMap h))
include inv found

theorem links_of_payload : s.links m = some (.map h) := by
  obtain ⟨o, isObj, isMap⟩ := Option.map_eq_some_iff.mp found
  rw [links, isObj, Option.map_some, isMap, Payload.links]

/-- Every entry of the table has its element. -/
theorem value_of_entry {k : K} {e : I} (inside : (k, e) ∈ h.dMap)
    : ∃ d, s.payloadAt e = some (.element ⟨k, d, some m⟩)
      ∧ valueAt s.payloadAt e = some (k, d) := by
  have element := inv.linked.entry (links_of_payload inv found) inside
  obtain ⟨o, isObj, isElement⟩ := Option.map_eq_some_iff.mp element
  have payload : s.payloadAt e = some o.payload := by rw [payloadAt, isObj, Option.map_some]
  match shape : o.payload, isElement with
  | .element ⟨_, d, _⟩, rfl =>
    rw [shape] at payload
    exact ⟨d, payload, by rw [valueAt, payload]⟩

theorem ring_values : (h.ring.filterMap (valueAt s.payloadAt)).map (·.1) = h.dMap.map (·.1)
    ∧ ∀ k, Container.lookup (h.ring.filterMap (valueAt s.payloadAt)) k
      = (h.find k).bind fun e => (valueAt s.payloadAt e).map (·.2) := by
  rw [← (inv.linked.keys (links_of_payload inv found)).2]
  refine values_of_entries fun entry inside => ?_
  obtain ⟨d, _, value⟩ := value_of_entry inv found (k := entry.1) (e := entry.2) inside
  exact ⟨d, value⟩

end Map

/-- The code answers as the plain containers do. -/
theorem answer_view {s : Context α K D I} (inv : s.Inv) (id : I) (query : Query K)
    : s.answer id query = (s.view id).bind (·.answer query) := by
  unfold answer view
  cases found : s.payloadAt id with
  | none => rfl
  | some p =>
    obtain ⟨o, isObj, isPayload⟩ := Option.map_eq_some_iff.mp found
    have valid := (inv.object isObj).valid
    rw [isPayload] at valid
    rw [Option.bind_some, Option.bind_some]
    cases p with
    | cdList l =>
      simp only [Payload.Valid] at valid
      cases query with
      | get i =>
        simp only [answerAt, contentOf, Option.bind_some, Container.answer, valid]
        split
        · rfl
        · next outside => rw [List.getElem?_eq_none (by omega)]
      | back =>
        simp only [answerAt, contentOf, Option.bind_some, Container.answer, valid, List.getLast?_eq_getElem?]
        split
        · rfl
        · next empty => rw [List.getElem?_eq_none (by omega)]
      | _ => rfl
    | cdQueue q =>
      obtain ⟨size, iter, _⟩ := valid
      have length : (q.dList.drop q.dIter).length = q.dSize - q.dIter := by rw [List.length_drop, size]
      have empty : (q.dList.drop q.dIter).isEmpty = q.isEmpty := by
        rw [Bool.eq_iff_iff, List.isEmpty_iff, List.drop_eq_nil_iff, CDQueue.isEmpty, beq_iff_eq]
        omega
      cases query with
      | size => simp only [answerAt, contentOf, Option.bind_some, Container.answer, length]
      | empty => simp only [answerAt, contentOf, Option.bind_some, Container.answer, empty]
      | front =>
        simp only [answerAt, contentOf, Option.bind_some, Container.answer, List.head?_drop]
        split
        · next isEmpty =>
          rw [CDQueue.isEmpty, beq_iff_eq] at isEmpty
          rw [List.getElem?_eq_none (by omega)]
        · rfl
      | back =>
        simp only [answerAt, contentOf, Option.bind_some, Container.answer, List.getLast?_eq_getElem?,
          length, List.getElem?_drop]
        split
        · next isEmpty =>
          rw [CDQueue.isEmpty, beq_iff_eq] at isEmpty
          rw [List.getElem?_eq_none (by omega)]
        · next nonempty =>
          rw [CDQueue.isEmpty, beq_iff_eq] at nonempty
          rw [show q.dIter + (q.dSize - q.dIter - 1) = q.dSize - 1 by omega]
      | _ => rfl
    | cdInsertHashMap m =>
      obtain ⟨size, table, _⟩ := valid
      have length : m.dInsertMap.dHashMap.length = m.dSize := by
        rw [size, ← table, List.length_map]
      cases query with
      | size => simp only [answerAt, contentOf, Option.bind_some, Container.answer, length]
      | empty =>
        simp only [answerAt, contentOf, Option.bind_some, Container.answer, ← length]
        cases m.dInsertMap.dHashMap <;> rfl
      | keys => simp only [answerAt, contentOf, Option.bind_some, Container.answer, table]
      | _ => rfl
    | cdHashMap h =>
      obtain ⟨keys, lookups⟩ := ring_values inv found
      have length : (h.ring.filterMap (valueAt s.payloadAt)).length = h.dMap.length := by
        simpa using congrArg List.length keys
      cases query with
      | size => simp only [answerAt, contentOf, Option.bind_some, Container.answer, length]
      | empty =>
        have empty : (h.ring.filterMap (valueAt s.payloadAt)).isEmpty = h.dMap.isEmpty := by
          rw [Bool.eq_iff_iff, List.isEmpty_iff_length_eq_zero, length, List.isEmpty_iff_length_eq_zero]
        simp only [answerAt, contentOf, Option.bind_some, Container.answer, empty]
      | find k => simp only [answerAt, contentOf, Option.bind_some, Container.answer, lookups]
      | _ => rfl
    | element e => cases query <;> rfl

end Context

end Ava6.CD

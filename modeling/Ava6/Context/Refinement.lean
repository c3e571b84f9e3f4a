import Ava6.Context.Observation

/-! The context refines the implementation that copies every container at each push and
reinstates the copies at each pop. -/

set_option linter.unusedSectionVars false

namespace Ava6.CD.Context

open Ava6.Library.Snapshot

variable {α K D I : Type} [DecidableEq K] [DecidableEq I] {s s' : Context α K D I}

-- Changes of one container

/-- The change does to the data what `f` does to the contents. -/
def Simulates (change : Payload α K D I → Option (Payload α K D I))
    (f : Container α K D → Option (Container α K D)) : Prop :=
  ∀ payloads p, p.Valid
    → (contentOf payloads p).bind f = (change p).bind (contentOf payloads)
      ∧ ∀ p', change p = some p' → p.links = .plain ∧ p'.links = .plain

theorem changeList_simulates (data : α)
    : Simulates (K := K) (D := D) (I := I) (changeList data) fun
      | .list items => some (.list (items ++ [data]))
      | _ => none := by
  intro payloads p _
  cases p with
  | cdList l => exact ⟨rfl, fun _ changed => by cases changed; exact ⟨rfl, rfl⟩⟩
  | _ => exact ⟨rfl, fun _ changed => by cases changed⟩

theorem changeQueuePush_simulates (data : α)
    : Simulates (K := K) (D := D) (I := I) (changeQueuePush data) fun
      | .queue items => some (.queue (items ++ [data]))
      | _ => none := by
  intro payloads p valid
  cases p with
  | cdQueue q =>
    obtain ⟨size, iter, _⟩ := valid
    refine ⟨?_, fun _ changed => by cases changed; exact ⟨rfl, rfl⟩⟩
    simp only [contentOf, changeQueuePush, CDQueue.push, CDList.pushBack, Option.bind_some]
    rw [List.drop_append_of_le_length (by omega)]
  | _ => exact ⟨rfl, fun _ changed => by cases changed⟩

/-- A pop is defined on a nonempty queue and removes the front element; the truncation only
happens when nothing remains. -/
theorem pop_contents {q : CDQueue α} (size : q.dSize = q.dList.length) (nonempty : q.dIter < q.dSize)
    : ∃ q', q.pop = some q' ∧ q'.dList.drop q'.dIter = q.dList.drop (q.dIter + 1) := by
  have some_left : q.isEmpty = false := by simp [CDQueue.isEmpty, Nat.ne_of_lt nonempty]
  unfold CDQueue.pop
  simp only [some_left, Bool.false_eq_true, if_false]
  split
  · next cut =>
    refine ⟨_, rfl, ?_⟩
    simp only [CDQueue.isEmpty, Bool.and_eq_true, beq_iff_eq] at cut
    simp only [CDList.truncateList]
    rw [List.drop_eq_nil_of_le (List.length_take_le ..), List.drop_eq_nil_of_le (by omega)]
  · exact ⟨_, rfl, rfl⟩

theorem changeQueuePop_simulates
    : Simulates (α := α) (K := K) (D := D) (I := I) changeQueuePop fun
      | .queue (_ :: items) => some (.queue items)
      | _ => none := by
  intro payloads p valid
  cases p with
  | cdQueue q =>
    obtain ⟨size, iter, _⟩ := valid
    rcases Nat.eq_or_lt_of_le iter with empty | nonempty
    · have none_left : q.pop = none := by simp [CDQueue.pop, CDQueue.isEmpty, empty]
      rw [contentOf, changeQueuePop, none_left, List.drop_eq_nil_of_le (by omega)]
      exact ⟨rfl, fun _ changed => by cases changed⟩
    · obtain ⟨q', popped, contents⟩ := pop_contents size nonempty
      rw [contentOf, changeQueuePop, popped, Option.map_some, Option.bind_some, Option.bind_some,
        contentOf, contents, List.drop_eq_getElem_cons (by omega)]
      exact ⟨rfl, fun p' changed => by cases changed; exact ⟨rfl, rfl⟩⟩
  | _ => exact ⟨rfl, fun _ changed => by cases changed⟩

theorem changeInsert_simulates (k : K) (d : D)
    : Simulates (α := α) (I := I) (changeInsert k d) fun
      | .insertMap entries =>
          if (Container.lookup entries k).isSome then none else some (.insertMap (entries ++ [(k, d)]))
      | _ => none := by
  intro payloads p _
  cases p with
  | cdInsertHashMap m =>
    have same : Container.lookup m.dInsertMap.dHashMap k = m.dInsertMap.find k := rfl
    by_cases mapped : (m.dInsertMap.find k).isSome
    · simp [contentOf, changeInsert, CDInsertHashMap.insert, InsertHashMap.pushBack,
        InsertHashMap.contains, same, mapped]
    · refine ⟨by simp [contentOf, changeInsert, CDInsertHashMap.insert, InsertHashMap.pushBack,
        InsertHashMap.contains, same, mapped], fun p' changed => ?_⟩
      obtain ⟨m', _, rfl⟩ := Option.map_eq_some_iff.mp changed
      exact ⟨rfl, rfl⟩
  | _ => exact ⟨rfl, fun _ changed => by cases changed⟩

variable {payloads : I → Option (Payload α K D I)} {p : Payload α K D I}

/-- Saving does not show. -/
theorem contentOf_save {current : Payload α K D I}
    {saved : Saved D I} (copied : p.save = some (saved, current))
    : contentOf payloads current = contentOf payloads p := by
  cases p <;> cases copied <;> rfl

variable {id : I} {change : Payload α K D I → Option (Payload α K D I)}

/-- What a change does to the data, whether or not a copy was saved before. -/
theorem modify_payload
    (ran : s.modify id change = some s')
    : ∃ p current p', s.payloadAt id = some p
      ∧ (current = p ∨ ∃ saved, p.save = some (saved, current))
      ∧ change current = some p'
      ∧ s'.payloadAt = Function.update s.payloadAt id (some p') := by
  obtain ⟨o, found, ⟨_, p', changed, rfl⟩ | ⟨_, saved, current, p', copied, changed, rfl⟩⟩ := modify_cases ran
  · refine ⟨o.payload, o.payload, p', by rw [payloadAt, found, Option.map_some], .inl rfl, changed, ?_⟩
    funext y
    rw [payloadAt, objs_setObj, Function.update_apply]
    split <;> rfl
  · refine ⟨o.payload, current, p', by rw [payloadAt, found, Option.map_some], .inr ⟨saved, copied⟩,
      changed, ?_⟩
    have objs : ((s.setObj id ⟨s.getLevel, (o.scope, saved) :: o.restore, p'⟩).addToTopChain id).objs
        = (s.setObj id ⟨s.getLevel, (o.scope, saved) :: o.restore, p'⟩).objs := by
      unfold addToTopChain
      split <;> rfl
    funext y
    rw [payloadAt, objs, objs_setObj, Function.update_apply]
    split <;> rfl

/-- A change is defined when it is on the data that is or will be current. -/
theorem modify_isSome {o : ContextObj α K D I}
    (found : s.objs id = some o)
    (copies : o.payload.save.isSome) (direct : (change o.payload).isSome)
    (after : ∀ saved current, o.payload.save = some (saved, current) → (change current).isSome)
    : (s.modify id change).isSome := by
  by_cases atTop : o.scope = s.getLevel
  · obtain ⟨p', changed⟩ := Option.isSome_iff_exists.mp direct
    simp [modify, makeCurrent, found, atTop, changed]
  · obtain ⟨⟨saved, current⟩, copied⟩ := Option.isSome_iff_exists.mp copies
    obtain ⟨p', changed⟩ := Option.isSome_iff_exists.mp (after saved current copied)
    simp [modify, makeCurrent, found, atTop, update, copied, changed]

theorem valueAt_of_plain {e : I}
    (found : payloads e = some p) (plain : p.links = .plain)
    : valueAt payloads e = none := by
  rw [valueAt, found]
  cases p with
  | cdList => rfl
  | cdQueue => rfl
  | cdInsertHashMap => rfl
  | _ => cases plain

/-- Elements are untouched when neither the old nor the new data is one. -/
theorem view_plain {p' : Payload α K D I} (found : s.payloadAt id = some p)
    (plain : p.links = .plain) (plain' : p'.links = .plain)
    (changed : s'.payloadAt = Function.update s.payloadAt id (some p'))
    : s'.view = Function.update s.view id (contentOf s.payloadAt p') := by
  have values : valueAt s'.payloadAt = valueAt s.payloadAt := by
    funext e
    by_cases same : e = id
    · subst same
      rw [valueAt_of_plain found plain,
        valueAt_of_plain (by rw [changed, Function.update_self]) plain']
    · rw [valueAt, valueAt, changed, Function.update_of_ne same]
  have content : contentOf s'.payloadAt = contentOf s.payloadAt := by
    funext q
    cases q <;> simp only [contentOf, values]
  funext y
  rw [view, content, changed, Function.update_apply, Function.update_apply]
  split <;> rfl

variable {f : Container α K D → Option (Container α K D)}

theorem modify_view
    (simulates : Simulates change f)
    (inv : s.Inv) (ran : s.modify id change = some s') : s.view.change id f = some s'.view := by
  obtain ⟨p, current, p', found, isCurrent, changed, payloads⟩ := modify_payload ran
  obtain ⟨o, isObj, rfl⟩ := Option.map_eq_some_iff.mp found
  have valid := (inv.object isObj).valid
  have content : contentOf s.payloadAt current = contentOf s.payloadAt o.payload
      ∧ current.Valid ∧ current.links = o.payload.links := by
    rcases isCurrent with rfl | ⟨saved, copied⟩
    · exact ⟨rfl, valid, rfl⟩
    · obtain ⟨_, _, valid', links, _⟩ := Payload.restore_save valid copied
      exact ⟨contentOf_save copied, valid', links⟩
  obtain ⟨sameContent, valid', links⟩ := content
  obtain ⟨agrees, plain⟩ := simulates s.payloadAt current valid'
  obtain ⟨plainOld, plainNew⟩ := plain p' changed
  rw [view_plain found (links ▸ plainOld) plainNew payloads]
  rw [changed, Option.bind_some, sameContent] at agrees
  obtain ⟨c', isContent⟩ : ∃ c', contentOf s.payloadAt p' = some c' := by
    match p', plainNew with
    | .cdList _, _ => exact ⟨_, rfl⟩
    | .cdQueue _, _ => exact ⟨_, rfl⟩
    | .cdInsertHashMap _, _ => exact ⟨_, rfl⟩
  rw [isContent] at agrees
  obtain ⟨c, isOld, isNew⟩ := Option.bind_eq_some_iff.mp agrees
  have here : s.view id = some c := by rw [view, found, Option.bind_some, isOld]
  simp [Containers.change, here, isNew, isContent]

/-- A change is defined where the change of the contents is. -/
theorem modify_defined
    (simulates : Simulates change f)
    (inv : s.Inv) (defined : (s.view.change id f).isSome) : (s.modify id change).isSome := by
  obtain ⟨c', isChanged⟩ := Option.isSome_iff_exists.mp defined
  simp only [Containers.change, Option.bind_eq_bind, Option.bind_eq_some_iff] at isChanged
  obtain ⟨c, here, new, isNew, _⟩ := isChanged
  obtain ⟨p, found, isContent⟩ := Option.bind_eq_some_iff.mp here
  obtain ⟨o, isObj, rfl⟩ := Option.map_eq_some_iff.mp found
  have valid := (inv.object isObj).valid
  have direct : (change o.payload).isSome := by
    have agrees := (simulates s.payloadAt o.payload valid).1
    rw [isContent, Option.bind_some, isNew] at agrees
    obtain ⟨p', changed, _⟩ := Option.bind_eq_some_iff.mp agrees.symm
    rw [changed, Option.isSome_some]
  obtain ⟨p', changed⟩ := Option.isSome_iff_exists.mp direct
  have plain := ((simulates s.payloadAt o.payload valid).2 p' changed).1
  refine modify_isSome isObj ?_ direct fun saved current copied => ?_
  · cases payload : o.payload with
    | cdList => rfl
    | cdQueue => rfl
    | cdInsertHashMap => rfl
    | _ =>
        rw [payload] at plain
        cases plain
  · obtain ⟨_, _, valid', _, _⟩ := Payload.restore_save valid copied
    have agrees := (simulates s.payloadAt current valid').1
    rw [contentOf_save copied, isContent, Option.bind_some, isNew] at agrees
    obtain ⟨p', changed', _⟩ := Option.bind_eq_some_iff.mp agrees.symm
    rw [changed', Option.isSome_some]

-- Changes of a map

/-- New data for one element shows under its key, by induction on the entries. -/
theorem values_assign {payloads' : I → Option (Payload α K D I)}
    {entries : List (K × I)} {k : K} {d : D} {e : I}
    (all : ∀ entry ∈ entries, ∃ d, valueAt payloads entry.2 = some (entry.1, d))
    (own : ∀ entry ∈ entries, entry.2 = e ↔ entry.1 = k)
    (changed : ∀ y, valueAt payloads' y = if y = e then some (k, d) else valueAt payloads y)
    : (entries.map (·.2)).filterMap (valueAt payloads')
      = ((entries.map (·.2)).filterMap (valueAt payloads)).map
        fun entry => if entry.1 = k then (k, d) else entry := by
  induction entries with
  | nil => rfl
  | cons entry rest ih =>
    obtain ⟨d', value⟩ := all entry (List.mem_cons_self ..)
    have same := own entry (List.mem_cons_self ..)
    have tail := ih (fun other inside => all other (List.mem_cons_of_mem _ inside))
      (fun other inside => own other (List.mem_cons_of_mem _ inside))
    rw [List.map_cons, List.filterMap_cons_some value, List.map_cons, ← tail]
    by_cases isOwn : entry.2 = e
    · rw [List.filterMap_cons_some (by rw [changed, if_pos isOwn]), if_pos (same.mp isOwn)]
    · rw [List.filterMap_cons_some (by rw [changed, if_neg isOwn, value]),
        if_neg (mt same.mpr isOwn)]

section Map
variable (inv : s.Inv) {m : I} {h : CDHashMap K I} (found : s.payloadAt m = some (.cdHashMap h))
  {k : K} {d : D}
include inv found

theorem view_map : s.view m = some (.hashMap (h.ring.filterMap (valueAt s.payloadAt))) := by
  rw [view, found, Option.bind_some, contentOf]

/-- The element found under a key. -/
theorem element_of_find {e : I} (mapped : h.find k = some e)
    : (k, e) ∈ h.dMap ∧ ∃ d, s.payloadAt e = some (.element ⟨k, d, some m⟩) := by
  obtain ⟨entry, isEntry, rfl⟩ := Option.map_eq_some_iff.mp mapped
  have key : entry.1 = k := by simpa using List.find?_some isEntry
  have inside : (k, entry.2) ∈ h.dMap := by
    rw [← key]
    exact List.mem_of_find?_eq_some isEntry
  obtain ⟨d, payload, _⟩ := value_of_entry inv found inside
  exact ⟨inside, d, payload⟩

/-- The key is mapped in the contents exactly when the table has it. -/
theorem lookup_isSome : (Container.lookup (h.ring.filterMap (valueAt s.payloadAt)) k).isSome
    = (h.find k).isSome := by
  rw [(ring_values inv found).2 k]
  cases mapped : h.find k with
  | none => rfl
  | some e =>
    obtain ⟨_, d, payload⟩ := element_of_find inv found mapped
    rw [Option.bind_some, valueAt, payload]
    rfl

/-- A map that does not have the element looks the same. -/
theorem content_of_other {payloads' : I → Option (Payload α K D I)} {e y : I}
    {p : Payload α K D I} (foundY : s.payloadAt y = some p)
    (outside : ∀ h', p.links = .map h' → e ∉ h'.ring)
    (others : ∀ id ≠ e, valueAt payloads' id = valueAt s.payloadAt id)
    : contentOf payloads' p = contentOf s.payloadAt p := by
  cases p with
  | cdHashMap h' =>
    have same : h'.ring.filterMap (valueAt payloads') = h'.ring.filterMap (valueAt s.payloadAt) :=
      List.filterMap_congr fun id inside =>
        others id fun isElement => outside h' rfl (isElement ▸ inside)
    rw [contentOf, contentOf, same]
  | _ => rfl

theorem setElement_view {e : I} (mapped : h.find k = some e)
    (ran : s.modify e (changeElement d) = some s')
    : s'.view = Function.update s.view m
        (some (.hashMap (Container.assign (h.ring.filterMap (valueAt s.payloadAt)) k d))) := by
  obtain ⟨inside, d₀, payload⟩ := element_of_find inv found mapped
  obtain ⟨p, current, p', foundE, isCurrent, changed, payloads⟩ := modify_payload ran
  rw [payload] at foundE
  cases foundE
  have isSame : current = .element ⟨k, d₀, some m⟩ := by
    rcases isCurrent with rfl | ⟨saved, copied⟩
    · rfl
    · cases copied
      rfl
  subst isSame
  cases changed
  have map := links_of_payload inv found
  have isElement := inv.linked.entry map inside
  have different : e ≠ m := by
    rintro rfl
    rw [found] at payload
    cases payload
  have values (y : I) : valueAt s'.payloadAt y = if y = e then some (k, d) else valueAt s.payloadAt y := by
    by_cases same : y = e
    · rw [if_pos same, valueAt, payloads, same, Function.update_self]
    · rw [if_neg same, valueAt, valueAt, payloads, Function.update_of_ne same]
  have own {m' : I} {h' : CDHashMap K I} (isMap : s.links m' = some (.map h')) (entry : K × I)
      (member : entry ∈ h'.dMap) : entry.2 = e ↔ m' = m ∧ entry.1 = k :=
    entry_iff inv isElement isMap (l := entry.1) (e := entry.2) member
  have assigned : h.ring.filterMap (valueAt s'.payloadAt)
      = Container.assign (h.ring.filterMap (valueAt s.payloadAt)) k d := by
    rw [Container.assign, lookup_isSome inv found, mapped, Option.isSome_some, if_pos rfl,
      ← (inv.linked.keys map).2]
    refine values_assign (e := e) (fun entry member => ?_) (fun entry member => ?_) values
    · obtain ⟨d', _, value⟩ := value_of_entry inv found (k := entry.1) (e := entry.2) member
      exact ⟨d', value⟩
    · rw [own map entry member]
      exact and_iff_right rfl
  funext y
  by_cases isMap : y = m
  · rw [isMap, Function.update_self, view, payloads, Function.update_of_ne different.symm, found,
      Option.bind_some, contentOf, ← payloads, assigned]
  rw [Function.update_of_ne isMap, view, view]
  by_cases isE : y = e
  · rw [isE, payloads, Function.update_self, payload]
    rfl
  · rw [payloads, Function.update_of_ne isE, ← payloads]
    cases foundY : s.payloadAt y with
    | none => rfl
    | some q =>
      rw [Option.bind_some, Option.bind_some]
      refine content_of_other inv found foundY (e := e) (fun h' isMap' member => ?_)
        fun id other => by rw [values, if_neg other]
      have links : s.links y = some (.map h') := by
        rw [Payload.eq_of_links isMap'] at foundY
        exact links_of_payload inv foundY
      rw [← (inv.linked.keys links).2] at member
      obtain ⟨entry, member', isEntry⟩ := List.mem_map.mp member
      exact isMap ((own links entry member').mp isEntry).1

theorem newElement_view {e : I} (ran : s.newElement m k d e = some s')
    : s'.view = Function.update s.view m
        (some (.hashMap (h.ring.filterMap (valueAt s.payloadAt) ++ [(k, d)]))) := by
  obtain ⟨absent, scope, restore, h', foundM, isNew⟩ := newElement_cases ran
  rw [payloadAt, foundM, Option.map_some] at found
  cases found
  have found : s.payloadAt m = some (.cdHashMap h) := by rw [payloadAt, foundM, Option.map_some]
  have absentE : s.payloadAt e = none := by rw [payloadAt, absent, Option.map_none]
  have different : e ≠ m := by
    rintro rfl
    rw [foundM] at absent
    cases absent
  have payloads (y : I) : s'.payloadAt y = if y = m then some (.cdHashMap (h.link k e))
      else if y = e then some (.element ⟨k, d, some m⟩) else s.payloadAt y := by
    simp only [isNew, payloadAt, withElement]
    split
    · rfl
    · split <;> rfl
  have values (y : I) : valueAt s'.payloadAt y = if y = e then some (k, d) else valueAt s.payloadAt y := by
    rw [valueAt, payloads]
    by_cases isE : y = e
    · rw [if_pos isE, isE, if_neg different, if_pos rfl]
    · rw [if_neg isE, if_neg isE, valueAt]
      by_cases isMap : y = m
      · rw [if_pos isMap, isMap, found]
      · rw [if_neg isMap]
  -- the new address is in no map yet
  have outside {m' : I} {h' : CDHashMap K I} (foundM' : s.payloadAt m' = some (.cdHashMap h'))
      : e ∉ h'.ring := by
    intro member
    rw [← (inv.linked.keys (links_of_payload inv foundM')).2] at member
    obtain ⟨entry, inside, isEntry⟩ := List.mem_map.mp member
    obtain ⟨_, payload, _⟩ := value_of_entry inv foundM' (k := entry.1) (e := entry.2) inside
    rw [isEntry, absentE] at payload
    cases payload
  funext y
  by_cases isMap : y = m
  · have old : h.ring.filterMap (valueAt s'.payloadAt) = h.ring.filterMap (valueAt s.payloadAt) := by
      refine List.filterMap_congr fun id inside => ?_
      have other : id ≠ e := fun isE => outside found (isE ▸ inside)
      rw [values, if_neg other]
    rw [isMap, Function.update_self, view, payloads, if_pos rfl, Option.bind_some, contentOf,
      CDHashMap.link, List.filterMap_append, old,
      List.filterMap_cons_some (by rw [values, if_pos rfl]), List.filterMap_nil]
  rw [Function.update_of_ne isMap, view, view, payloads, if_neg isMap]
  by_cases isE : y = e
  · rw [if_pos isE, isE, absentE]
    rfl
  · rw [if_neg isE]
    cases foundY : s.payloadAt y with
    | none => rfl
    | some q =>
      rw [Option.bind_some, Option.bind_some]
      refine content_of_other inv found foundY (e := e) (fun h' isMap' => ?_)
        fun id other => by rw [values, if_neg other]
      rw [Payload.eq_of_links isMap'] at foundY
      exact outside foundY

theorem setElement_isSome {e : I} (mapped : h.find k = some e)
    : (s.modify e (changeElement d)).isSome := by
  obtain ⟨_, d₀, payload⟩ := element_of_find inv found mapped
  obtain ⟨o, isObj, isElement⟩ := Option.map_eq_some_iff.mp payload
  refine modify_isSome isObj ?_ ?_ fun saved current copied => ?_
  · rw [isElement]
    rfl
  · rw [isElement]
    rfl
  · rw [isElement] at copied
    cases copied
    rfl

theorem newElement_isSome {e : I} (free : s.objs e = none) : (s.newElement m k d e).isSome := by
  obtain ⟨o, isObj, isMap⟩ := Option.map_eq_some_iff.mp found
  have different : m ≠ e := by
    rintro rfl
    rw [free] at isObj
    cases isObj
  obtain ⟨s₁, isS₁⟩ : ∃ s₁ : Context α K D I,
      s₁ = { (s.setObj e ⟨0, [], .element ⟨k, d, none⟩⟩) with bottom := e :: s.bottom } := ⟨_, rfl⟩
  have foundE : s₁.objs e = some ⟨0, [], .element ⟨k, d, none⟩⟩ := by simp [isS₁]
  have defined : (s₁.modify e (changeElement d)).isSome :=
    modify_isSome foundE rfl rfl fun saved current copied => by
      cases copied
      rfl
  obtain ⟨s₂, changed⟩ := Option.isSome_iff_exists.mp defined
  obtain ⟨p, current, p', _, _, _, payloads⟩ := modify_payload changed
  have atE : s₂.payloadAt e = some p' := by rw [payloads, Function.update_self]
  have atM : s₂.payloadAt m = some (.cdHashMap h) := by
    rw [payloads, Function.update_of_ne different, payloadAt, isS₁, ← found, payloadAt]
    simp [different]
  obtain ⟨o₂, isObj₂, _⟩ := Option.map_eq_some_iff.mp atE
  obtain ⟨⟨scope, restore, payload⟩, isMap₂, isPayload⟩ := Option.map_eq_some_iff.mp atM
  cases isPayload
  have registered : s.register e (.element ⟨k, d, none⟩) = some s₁ := by
    rw [register, free, isS₁]
  simp [newElement, registered, changed, isObj₂, different, isMap₂]

end Map

-- Steps

theorem payloadAt_of_hashMapAt {m : I} {h : CDHashMap K I} (map : s.hashMapAt m = some h)
    : s.payloadAt m = some (.cdHashMap h) := by
  unfold hashMapAt at map
  split at map
  · next found =>
    cases map
    rw [payloadAt, found, Option.map_some]
  · contradiction

theorem hashMapAt_of_payloadAt {m : I} {h : CDHashMap K I}
    (found : s.payloadAt m = some (.cdHashMap h)) : s.hashMapAt m = some h := by
  obtain ⟨⟨_, _, _⟩, isObj, rfl⟩ := Option.map_eq_some_iff.mp found
  rw [hashMapAt, isObj]

/-- What every step does: it keeps the invariant and what lies below, and it does to the
containers what the plain step does. -/
def Refined (s : Context α K D I) (plain : Option (Containers α K D I))
    (s' : Context α K D I) : Prop :=
  s'.Inv ∧ plain = some s'.view ∧ s'.pop = s.pop ∧ s'.getLevel = s.getLevel

theorem modify_refined
    (keeps : Keeps change)
    (simulates : Simulates change f) (inv : s.Inv) (ran : s.modify id change = some s')
    : Refined s (s.view.change id f) s' := by
  obtain ⟨inv', pop, level⟩ := modify_backtracks keeps inv ran
  exact ⟨inv', modify_view simulates inv ran, pop, level⟩

section Map
variable (inv : s.Inv) {m e : I} {h : CDHashMap K I} (map : s.hashMapAt m = some h) {k : K} {d : D}
include inv map

theorem setElement_refined {old : I} (mapped : h.find k = some old)
    (ran : s.modify old (changeElement d) = some s')
    : Refined s (some (Function.update s.view m (some (.hashMap
        (Container.assign (h.ring.filterMap (valueAt s.payloadAt)) k d))))) s' := by
  obtain ⟨inv', pop, level⟩ := modify_backtracks (changeElement_keeps d) inv ran
  exact ⟨inv', by rw [setElement_view inv (payloadAt_of_hashMapAt map) mapped ran], pop, level⟩

theorem newElement_refined (new : h.find k = none) (ran : s.newElement m k d e = some s')
    : Refined s (some (Function.update s.view m (some (.hashMap
        (h.ring.filterMap (valueAt s.payloadAt) ++ [(k, d)]))))) s' := by
  obtain ⟨inv', pop, level⟩ := newElement_backtracks inv map new ran
  exact ⟨inv', by rw [newElement_view inv (payloadAt_of_hashMapAt map) ran], pop, level⟩

theorem view_hashMapAt : s.view m = some (.hashMap (h.ring.filterMap (valueAt s.payloadAt))) :=
  view_map inv (payloadAt_of_hashMapAt map)

end Map

theorem Refined.trans {middle : Context α K D I} {first second : Option (Containers α K D I)}
    (one : Refined s first middle) (two : Refined middle second s') : Refined s second s' :=
  ⟨two.1, two.2.1, two.2.2.1.trans one.2.2.1, two.2.2.2.trans one.2.2.2⟩

theorem Refined.refl (inv : s.Inv) : Refined s (some s.view) s := ⟨inv, rfl, rfl, rfl⟩

/-- Assigning to a key that was just appended replaces its data. -/
theorem assign_append {entries : List (K × D)} {k : K} {d d₀ : D}
    (new : (Container.lookup entries k).isSome = false)
    : Container.assign (entries ++ [(k, d₀)]) k d = entries ++ [(k, d)] := by
  have absent : ∀ entry ∈ entries, entry.1 ≠ k := by
    simpa [Container.lookup] using new
  have mapped : (Container.lookup (entries ++ [(k, d₀)]) k).isSome = true := by
    simp [Container.lookup]
  have unchanged : entries.map (fun entry => if entry.1 = k then (k, d) else entry) = entries := by
    refine (List.map_congr_left fun entry inside => ?_).trans (List.map_id _)
    rw [if_neg (absent entry inside), id]
  rw [Container.assign, if_pos mapped, List.map_append, unchanged, List.map_cons, if_pos rfl,
    List.map_nil]

section Step
variable [Inhabited D] (inv : s.Inv) {m e : I} {k : K} {d : D}
include inv

theorem hashInsert_refined (ran : s.hashInsert m k d e = some s')
    : Refined s (s.view.step (.hashInsert m k d e)) s' := by
  obtain ⟨h, map, rest⟩ := Option.bind_eq_some_iff.mp ran
  have here := view_hashMapAt inv map
  have mapped := lookup_isSome inv (payloadAt_of_hashMapAt map) (k := k)
  split at rest
  · next old isMapped =>
    have refined := setElement_refined inv map isMapped rest
    simpa [Containers.step, Containers.change, here] using refined
  · next new =>
    have refined := newElement_refined inv map new rest
    simpa [Containers.step, Containers.change, here, Container.assign, mapped, new] using refined

theorem subscript_refined (ran : s.subscript m k e = some s')
    : Refined s (s.view.step (.subscript m k e)) s' := by
  obtain ⟨h, map, rest⟩ := Option.bind_eq_some_iff.mp ran
  have here := view_hashMapAt inv map
  have mapped := lookup_isSome inv (payloadAt_of_hashMapAt map) (k := k)
  split at rest
  · next old isMapped =>
    cases rest
    have unchanged : s.view.step (.subscript m k e) = some s.view := by
      simp [Containers.step, Containers.change, here, mapped, isMapped]
    rw [unchanged]
    exact Refined.refl inv
  · next new =>
    have refined := newElement_refined inv map new rest
    simpa [Containers.step, Containers.change, here, mapped, new] using refined

theorem subscriptAssign_refined (ran : s.subscriptAssign m k d e = some s')
    : Refined s (s.view.step (.subscriptAssign m k d e)) s' := by
  simp only [subscriptAssign, Option.bind_eq_bind, Option.bind_eq_some_iff] at ran
  obtain ⟨middle, first, h', map', old, isMapped, second⟩ := ran
  have one := subscript_refined inv first
  have two := setElement_refined one.1 map' isMapped second
  obtain ⟨h, map, rest⟩ := Option.bind_eq_some_iff.mp first
  have here := view_hashMapAt inv map
  have mapped := lookup_isSome inv (payloadAt_of_hashMapAt map) (k := k)
  have assigned : s.view.step (.subscriptAssign m k d e) = some (Function.update s.view m
      (some (.hashMap (Container.assign (h.ring.filterMap (valueAt s.payloadAt)) k d)))) := by
    simp [Containers.step, Containers.change, here]
  rw [assigned]
  split at rest
  · cases rest
    rw [map] at map'
    cases map'
    exact one.trans two
  · next new =>
    have content : middle.view = _ := (Option.some.inj (newElement_refined inv map new rest).2.1).symm
    have here' := view_hashMapAt one.1 map'
    rw [content, Function.update_self, Option.some.injEq, Container.hashMap.injEq] at here'
    have unmapped : (Container.lookup (h.ring.filterMap (valueAt s.payloadAt)) k).isSome = false := by
      rw [mapped, new, Option.isSome_none]
    rw [content, Function.update_idem, ← here', assign_append unmapped] at two
    rw [Container.assign, if_neg (Bool.eq_false_iff.mp unmapped)]
    exact one.trans two

theorem insertSafe_refined (ran : s.step (.insertSafe m k d) = some s')
    : Refined s (s.view.step (.insertSafe m k d)) s' := by
  obtain ⟨map, isMap, rest⟩ := Option.bind_eq_some_iff.mp ran
  have here : s.view m = some (.insertMap map.dInsertMap.dHashMap) := by
    unfold insertMapAt at isMap
    split at isMap
    · next found =>
      cases isMap
      rw [view, payloadAt, found, Option.map_some, Option.bind_some, contentOf]
    · contradiction
  have same : Container.lookup map.dInsertMap.dHashMap k = map.dInsertMap.find k := rfl
  split at rest
  · next mapped =>
    cases rest
    rw [InsertHashMap.contains] at mapped
    have unchanged : s.view.step (.insertSafe m k d) = some s.view := by
      simp [Containers.step, Containers.change, here, same, mapped]
    rw [unchanged]
    exact Refined.refl inv
  · next unmapped =>
    rw [InsertHashMap.contains] at unmapped
    have refined := modify_refined (changeInsert_keeps k d) (changeInsert_simulates k d) inv rest
    have agrees : s.view.step (.insertSafe m k d) = s.view.step (.insert m k d) := by
      simp [Containers.step, Containers.change, here, same, unmapped]
    rw [agrees]
    exact refined

/-- Every step, by the cases of the step. -/
theorem step_refined {c : Step α K D I} (ran : s.step c = some s')
    : Refined s (s.view.step c) s' := by
  cases c with
  | listPushBack id data =>
    exact modify_refined (changeList_keeps data) (changeList_simulates data) inv ran
  | queuePush id data =>
    exact modify_refined (changeQueuePush_keeps data) (changeQueuePush_simulates data) inv ran
  | queuePop id => exact modify_refined changeQueuePop_keeps changeQueuePop_simulates inv ran
  | insert id k d =>
    exact modify_refined (changeInsert_keeps k d) (changeInsert_simulates k d) inv ran
  | insertSafe id k d => exact insertSafe_refined inv ran
  | hashInsert id k d e => exact hashInsert_refined inv ran
  | subscript id k e => exact subscript_refined inv ran
  | subscriptAssign id k d e => exact subscriptAssign_refined inv ran

end Step

-- Runs

theorem view_withContainer (absent : s.objs id = none) (kind : Kind)
    : (s.withContainer id kind).view = Function.update s.view id (some (Container.new kind)) := by
  have payloads : (s.withContainer id kind).payloadAt
      = Function.update s.payloadAt id (some kind.new) := by
    funext y
    simp only [payloadAt, withContainer, objs_setObj, Function.update_apply]
    split <;> rfl
  have values : valueAt (s.withContainer id kind).payloadAt = valueAt s.payloadAt := by
    funext y
    rw [valueAt, payloads, valueAt]
    by_cases same : y = id
    · rw [same, Function.update_self, payloadAt, absent]
      cases kind <;> rfl
    · rw [Function.update_of_ne same]
  have content : contentOf (s.withContainer id kind).payloadAt = contentOf s.payloadAt := by
    funext q
    cases q <;> simp only [contentOf, values]
  funext y
  rw [view, content, payloads, Function.update_apply, Function.update_apply]
  split
  · cases kind <;> rfl
  · rfl

/-- The invariant holds of a context without objects. -/
theorem initial_inv : (initial : Context α K D I).Inv where
  object := nofun
  chain := nofun
  listed _ := ⟨List.not_mem_nil, nofun⟩
  linked := ⟨nofun, nofun, nofun⟩

theorem view_initial : (initial : Context α K D I).view = fun _ => none := rfl

/-- The context is a store that backtracks. -/
theorem backtracks [Inhabited D] : Backtracks (store : Store (Context α K D I) _ _) Inv view
    Containers.step Containers.create where
  pop_bottom level := pop_bottom level
  step inv ran := step_refined inv ran
  push inv := ⟨push_inv inv, rfl, pop_push inv, rfl⟩
  extend {s s' creation} inv ran := by
    simp only [store, register_eq] at ran
    split at ran
    · next absent =>
      rw [Option.isNone_iff_eq_none] at absent
      cases ran
      refine ⟨withContainer_inv inv absent _, ?_, rfl⟩
      have free : s.view creation.id = none := by
        rw [view, payloadAt, absent]
        rfl
      rw [Containers.create, free, view_withContainer absent]
      rfl
    · contradiction
  extend_pop inv below ran := register_pop inv below ran

/-- The address at which a command creates an object, where it creates one. -/
def allocates : Command (Step α K D I) (Creation I) → Option I
  | .step (.hashInsert _ _ _ e) | .step (.subscript _ _ e) | .step (.subscriptAssign _ _ _ e) => some e
  | .extend creation => some creation.id
  | _ => none

section Defined
variable [Inhabited D] (inv : s.Inv)
include inv

/-- The map whose contents are given. -/
theorem map_of_view {m : I} {entries : List (K × D)} (here : s.view m = some (.hashMap entries))
    : ∃ h, s.payloadAt m = some (.cdHashMap h) := by
  obtain ⟨p, found, content⟩ := Option.bind_eq_some_iff.mp here
  cases p with
  | cdHashMap h => exact ⟨h, found⟩
  | _ => cases content

/-- A change of a map is only defined on a map. -/
theorem map_of_change {m : I} {f : List (K × D) → Option (Container α K D)}
    (defined : (s.view.change m fun
      | .hashMap entries => f entries
      | _ => none).isSome) : ∃ h, s.payloadAt m = some (.cdHashMap h) := by
  obtain ⟨c', changed⟩ := Option.isSome_iff_exists.mp defined
  simp only [Containers.change, Option.bind_eq_bind, Option.bind_eq_some_iff] at changed
  obtain ⟨c, here, _, isNew, _⟩ := changed
  cases c with
  | hashMap entries => exact map_of_view inv here
  | _ => cases isNew

theorem subscript_isSome {m e : I} {k : K} {h : CDHashMap K I}
    (found : s.payloadAt m = some (.cdHashMap h)) (free : s.objs e = none)
    : (s.subscript m k e).isSome := by
  rw [subscript, hashMapAt_of_payloadAt found]
  cases mapped : h.find k with
  | some old => simp [mapped]
  | none => simpa [mapped] using newElement_isSome inv found free

/-- A safe insertion is defined where it is in the abstract model. -/
theorem insertSafe_isSome {m : I} {k : K} {d : D}
    (defined : (s.view.step (.insertSafe m k d)).isSome) : (s.step (.insertSafe m k d)).isSome := by
  obtain ⟨c', changed⟩ := Option.isSome_iff_exists.mp defined
  simp only [Containers.step, Containers.change, Option.bind_eq_bind, Option.bind_eq_some_iff] at changed
  obtain ⟨c, here, _, isNew, _⟩ := changed
  obtain ⟨p, found, content⟩ := Option.bind_eq_some_iff.mp here
  cases p with
  | cdInsertHashMap map =>
    obtain ⟨⟨_, _, _⟩, isObj, rfl⟩ := Option.map_eq_some_iff.mp found
    have isMap : s.insertMapAt m = some map := by rw [insertMapAt, isObj]
    by_cases mapped : map.dInsertMap.contains k = true
    · simp [step, isMap, mapped]
    · cases content
      have same : Container.lookup map.dInsertMap.dHashMap k = map.dInsertMap.find k := rfl
      have inserted : (s.modify m (changeInsert k d)).isSome := by
        refine modify_defined (changeInsert_simulates k d) inv ?_
        rw [InsertHashMap.contains] at mapped
        simp [Containers.change, here, same, mapped]
      simpa [step, isMap, mapped] using inserted
  | _ => cases content <;> cases isNew

omit inv in
/-- After a subscript the key is mapped. -/
theorem subscript_mapped {c c' : Containers α K D I} {m e : I} {k : K}
    (ran : c.step (.subscript m k e) = some c')
    : ∃ entries, c' m = some (.hashMap entries) ∧ (Container.lookup entries k).isSome := by
  simp only [Containers.step, Containers.change, Option.bind_eq_bind, Option.bind_eq_some_iff] at ran
  obtain ⟨container, here, changed, isChanged, result⟩ := ran
  cases result
  rw [Function.update_self]
  cases container with
  | hashMap entries =>
    simp only at isChanged
    split at isChanged
    · next mapped =>
      cases isChanged
      exact ⟨entries, rfl, mapped⟩
    · cases isChanged
      exact ⟨_, rfl, by simp [Container.lookup]⟩
  | _ => cases isChanged

/-- A step is defined where the plain step is, if the allocator returns a free address. -/
theorem step_defined {c : Step α K D I} (free : ∀ e, allocates (.step c) = some e → s.objs e = none)
    (defined : (s.view.step c).isSome) : (s.step c).isSome := by
  cases c with
  | listPushBack id data => exact modify_defined (changeList_simulates data) inv defined
  | queuePush id data => exact modify_defined (changeQueuePush_simulates data) inv defined
  | queuePop id => exact modify_defined changeQueuePop_simulates inv defined
  | insert id k d => exact modify_defined (changeInsert_simulates k d) inv defined
  | insertSafe id k d => exact insertSafe_isSome inv defined
  | hashInsert id k d e =>
    obtain ⟨h, found⟩ := map_of_change inv defined
    rw [step, hashInsert, hashMapAt_of_payloadAt found]
    cases mapped : h.find k with
    | some old => simpa [mapped] using setElement_isSome inv found mapped
    | none => simpa [mapped] using newElement_isSome inv found (free e rfl)
  | subscript id k e =>
    obtain ⟨h, found⟩ := map_of_change inv defined
    exact subscript_isSome inv found (free e rfl)
  | subscriptAssign id k d e =>
    obtain ⟨h, found⟩ := map_of_change inv defined
    obtain ⟨middle, first⟩ := Option.isSome_iff_exists.mp
      (subscript_isSome inv found (free e rfl) (k := k))
    obtain ⟨inv', content, _, _⟩ := subscript_refined inv first
    obtain ⟨entries, here, mapped⟩ := subscript_mapped content
    obtain ⟨h', found'⟩ := map_of_view inv' here
    rw [view_map inv' found', Option.some.injEq, Container.hashMap.injEq] at here
    rw [← here, lookup_isSome inv' found'] at mapped
    obtain ⟨old, isOld⟩ := Option.isSome_iff_exists.mp mapped
    rw [step, subscriptAssign, first]
    simpa [hashMapAt_of_payloadAt found', isOld] using setElement_isSome inv' found' isOld

end Defined

/-- For every run of the context that creates containers, changes them, and pushes and pops in
any order, the implementation that copies all containers at each push runs too; every
observation of every container is the one of the copying implementation, and every further
command is defined for both or for neither, provided the allocator returns a free address. -/
theorem containers_refine_snapshots [Inhabited D]
    (commands : List (Command (Step α K D I) (Creation I)))
    (ran : store.run initial commands = some s)
    : ∃ copies, (eager Containers.step Containers.create).run ⟨fun _ => none, []⟩ commands = some copies
      ∧ (∀ id query, s.answer id query = (copies.current id).bind (·.answer query))
      ∧ ∀ command, (∀ id, allocates command = some id → s.objs id = none)
        → ((store.exec s command).isSome
          ↔ ((eager Containers.step Containers.create).exec copies command).isSome) := by
  have start : Tracks (store : Store (Context α K D I) _ _) Inv view initial ⟨fun _ => none, []⟩ :=
    .bottom initial_inv rfl
  obtain ⟨copies, copied, tracks⟩ := backtracks.run commands start ran
  refine ⟨copies, copied, fun id query => ?_, fun command free => ⟨fun defined => ?_, fun defined => ?_⟩⟩
  · rw [tracks.current_eq, answer_view tracks.inv_current]
  · obtain ⟨s', ran'⟩ := Option.isSome_iff_exists.mp defined
    obtain ⟨copies', copied', _⟩ := backtracks.exec tracks ran'
    rw [copied', Option.isSome_some]
  · cases command with
    | step c =>
      refine step_defined tracks.inv_current free ?_
      simpa [Store.exec, eager, tracks.current_eq] using defined
    | extend creation =>
      simp [Store.exec, store, register_eq, free creation.id rfl]
    | push => rfl
    | pop => exact tracks.pop_defined defined
    | popto toLevel =>
      rw [Store.exec, Store.popto] at defined ⊢
      rw [tracks.level_eq]
      exact tracks.popTimes_defined _ defined

/-- A queue emptied above the level where it was filled. -/
theorem containers_refine_snapshots_queue
    : ∃ copies, (eager (Containers.step : Containers Nat Nat Nat Nat → _ → _) Containers.create).run
        ⟨fun _ => none, []⟩ [.extend ⟨0, .cdQueue⟩, .step (.queuePush 0 7), .push, .step (.queuePush 0 8),
          .step (.queuePop 0), .step (.queuePop 0), .pop] = some copies
      ∧ (copies.current 0).bind (·.answer .contents) = some (.items [7]) := by
  obtain ⟨copies, copied, observed, _⟩ := containers_refine_snapshots (α := Nat) (K := Nat) (D := Nat)
    (I := Nat) [.extend ⟨0, .cdQueue⟩, .step (.queuePush 0 7), .push, .step (.queuePush 0 8),
      .step (.queuePop 0), .step (.queuePop 0), .pop] rfl
  exact ⟨copies, copied, by rw [← observed]; rfl⟩

end Ava6.CD.Context

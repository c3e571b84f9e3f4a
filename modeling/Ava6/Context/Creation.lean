import Ava6.Context.Backtrack

/-! New objects: elements that a pop removes from their map again, and containers that exist
at every level once they are created. -/

set_option linter.unusedSectionVars false

namespace Ava6.CD

variable {α K D I : Type} [DecidableEq K] [DecidableEq I]

theorem CDHashMap.not_mem_of_find {h : CDHashMap K I} {k : K} (absent : h.find k = none)
    : k ∉ h.dMap.map (·.1) := by
  simp only [CDHashMap.find, Option.map_eq_none_iff, List.find?_eq_none, decide_eq_true_iff] at absent
  rintro inside
  obtain ⟨entry, member, same⟩ := List.mem_map.mp inside
  exact absent entry member same

/-- A new element under a new key keeps maps and elements linked. -/
theorem Linked.link {links : I → Option (Links K I)} (linked : Linked links) {m e : I} {k : K}
    {h : CDHashMap K I} (fresh : links e = none) (map : links m = some (.map h))
    (new : k ∉ h.dMap.map (·.1))
    : Linked fun y => if y = m then some (.map (h.link k e))
        else if y = e then some (.element k (some m)) else links y := by
  have different : e ≠ m := by
    rintro rfl
    rw [fresh] at map
    contradiction
  have old {k' : K} {e' : I} {n : Option I} (element : links e' = some (.element k' n))
      : e' ≠ m ∧ e' ≠ e := by
    constructor
    · rintro rfl
      rw [map] at element
      cases element
    · rintro rfl
      rw [fresh] at element
      cases element
  constructor
  case keys =>
    intro m' h' isMap
    split at isMap
    · cases isMap
      obtain ⟨distinct, ring⟩ := linked.keys map
      refine ⟨?_, by simp [CDHashMap.link, ring]⟩
      rw [CDHashMap.link, List.map_append]
      refine List.nodup_append.mpr ⟨distinct, List.nodup_singleton _, fun a inside b only same => ?_⟩
      rw [same, List.mem_singleton.mp only] at inside
      exact new inside
    · split at isMap
      · cases isMap
      · exact linked.keys isMap
  case entry =>
    intro m' h' k' e' isMap inside
    split at isMap
    · next same =>
      cases isMap
      rcases List.mem_append.mp inside with inside | inside
      · have element := linked.entry map inside
        rw [if_neg (old element).1, if_neg (old element).2, element, same]
      · cases List.mem_singleton.mp inside
        rw [if_neg different, if_pos rfl, same]
    · split at isMap
      · cases isMap
      · have element := linked.entry isMap inside
        rw [if_neg (old element).1, if_neg (old element).2, element]
  case element =>
    intro e' k' dMap element
    split at element
    · cases element
    · split at element
      · next same =>
        cases element
        exact ⟨m, h.link k e, rfl, by rw [if_pos rfl], by simp [CDHashMap.link, same]⟩
      · obtain ⟨m', h', isDMap, isMap, inside⟩ := linked.element element
        by_cases same : m' = m
        · subst same
          rw [map] at isMap
          cases isMap
          exact ⟨m', h.link k e, isDMap, by rw [if_pos rfl], List.mem_append_left _ inside⟩
        · refine ⟨m', h', isDMap, ?_, inside⟩
          rw [if_neg same, if_neg (fun isNew => ?_), isMap]
          rw [isNew, fresh] at isMap
          contradiction

/-- So does a new object that is in no map and has no elements. -/
theorem Linked.add {links : I → Option (Links K I)} (linked : Linked links) {id : I}
    {new : Links K I} (fresh : links id = none) (empty : new = .plain ∨ new = .map CDHashMap.empty)
    : Linked fun y => if y = id then some new else links y := by
  constructor
  case keys =>
    intro m h isMap
    split at isMap
    · rcases empty with rfl | rfl
      · cases isMap
      · cases isMap
        exact ⟨List.nodup_nil, rfl⟩
    · exact linked.keys isMap
  case entry =>
    intro m h k e isMap inside
    split at isMap
    · rcases empty with rfl | rfl
      · cases isMap
      · cases isMap
        cases inside
    · have element := linked.entry isMap inside
      rw [if_neg (fun same => ?_), element]
      rw [same, fresh] at element
      cases element
  case element =>
    intro e k dMap element
    split at element
    · rcases empty with rfl | rfl <;> cases element
    · obtain ⟨m, h, isDMap, isMap, inside⟩ := linked.element element
      refine ⟨m, h, isDMap, ?_, inside⟩
      rw [if_neg (fun same => ?_), isMap]
      rw [same, fresh] at isMap
      cases isMap

namespace Context

variable {s s' : Context α K D I}

-- Elements

/-- A new element. Above the bottom scope its copy says that it was in no map. -/
def elementObj (s : Context α K D I) (m : I) (k : K) (d : D) : ContextObj α K D I :=
  ⟨s.getLevel, if s.getLevel = 0 then [] else [(0, .element d none)], .element ⟨k, d, some m⟩⟩

/-- The state with a new element in the bottom chain and the top chain. -/
def withElement (s : Context α K D I) (m : I) (k : K) (d : D) (e : I)
    (linked : ContextObj α K D I) : Context α K D I where
  bottom := e :: s.bottom
  upper :=
    match s.upper with
    | [] => []
    | chain :: rest => (e :: chain) :: rest
  objs y := if y = m then some linked else if y = e then some (s.elementObj m k d) else s.objs y

theorem newElement_cases {m e : I} {k : K} {d : D} (ran : s.newElement m k d e = some s')
    : s.objs e = none ∧ ∃ scope restore h, s.objs m = some ⟨scope, restore, .cdHashMap h⟩
      ∧ s' = s.withElement m k d e ⟨scope, restore, .cdHashMap (h.link k e)⟩ := by
  simp only [newElement, register, Option.bind_eq_bind, Option.bind_eq_some_iff] at ran
  obtain ⟨s₁, registered, s₂, changed, o, found, linked⟩ := ran
  split at registered
  · contradiction
  · next absent =>
    cases registered
    refine ⟨absent, ?_⟩
    -- both ways of making the new object current lead to the same kind of state
    have current : ∃ upper, upper = (match s.upper with
          | [] => []
          | chain :: rest => (e :: chain) :: rest)
        ∧ s₂ = ⟨e :: s.bottom, upper, Function.update s.objs e (some ⟨s.getLevel,
          if s.getLevel = 0 then [] else [(0, .element d none)], .element ⟨k, d, none⟩⟩)⟩ := by
      obtain ⟨o', found', inPlace | moved⟩ := modify_cases changed
      · obtain ⟨atTop, payload, this, rfl⟩ := inPlace
        simp only [objs_setObj, if_true, Option.some.injEq] at found'
        subst found'
        cases this
        have zero : s.upper = [] := List.length_eq_zero_iff.mp atTop.symm
        exact ⟨[], by rw [zero], by simp [setObj, zero, getLevel]⟩
      · obtain ⟨below, saved, p, payload, copied, this, rfl⟩ := moved
        simp only [objs_setObj, if_true, Option.some.injEq] at found'
        subst found'
        cases copied
        cases this
        cases upper : s.upper with
        | nil => exact absurd (by simp [getLevel, upper]) below
        | cons chain rest => exact ⟨_, rfl, by simp [setObj, addToTopChain, upper, getLevel]⟩
    obtain ⟨upper, isUpper, rfl⟩ := current
    simp only [Function.update_self, Option.some.injEq] at found
    subst found
    simp only [setMap, setObj, Function.update_idem] at linked
    split at linked
    · next scope restore h foundMap =>
      have different : m ≠ e := by
        rintro rfl
        simp at foundMap
      rw [Function.update_of_ne different] at foundMap
      refine ⟨scope, restore, h, foundMap, ?_⟩
      cases linked
      rw [withElement, isUpper]
      refine congrArg (Context.mk _ _) (funext fun y => ?_)
      simp only [Function.update_apply, elementObj]
    · contradiction

section Element
variable (inv : s.Inv) {m e : I} {k : K} {d : D} {scope : Nat} {restore : List (Nat × Saved D I)}
  {h : CDHashMap K I} (absent : s.objs e = none)
  (found : s.objs m = some ⟨scope, restore, .cdHashMap h⟩)
include inv absent found

theorem withElement_level (linked : ContextObj α K D I)
    : (s.withElement m k d e linked).getLevel = s.getLevel := by
  unfold withElement getLevel
  cases s.upper <;> rfl

theorem withElement_inv (new : h.find k = none)
    : (s.withElement m k d e ⟨scope, restore, .cdHashMap (h.link k e)⟩).Inv := by
  have level := withElement_level inv absent found (k := k) (d := d)
    ⟨scope, restore, .cdHashMap (h.link k e)⟩
  have bottomScope : scope = 0 := (inv.object found).map_scope rfl
  have different : e ≠ m := by
    rintro rfl
    rw [found] at absent
    contradiction
  constructor
  case object =>
    intro y o found'
    rw [level]
    simp only [withElement] at found'
    split at found'
    · cases found'
      exact ⟨(inv.object found).scope_le, fun up => absurd bottomScope up, trivial, fun _ => bottomScope⟩
    · split at found'
      · cases found'
        refine ⟨Nat.le_refl _, fun up => ?_, rfl, nofun⟩
        exact ⟨0, .element d none, [], if_neg up, trivial⟩
      · exact inv.object found'
  case chain =>
    intro top rest isTop
    rw [level]
    cases upper : s.upper with
    | nil => simp [withElement, upper] at isTop
    | cons chain below =>
      simp only [withElement, upper, List.cons.injEq] at isTop
      obtain ⟨rfl, rfl⟩ := isTop
      obtain ⟨distinct, members⟩ := inv.chain upper
      have outside : e ∉ chain := (inv.listed absent).2 chain (upper ▸ List.mem_cons_self ..)
      have positive : s.getLevel ≠ 0 := by simp [getLevel, upper]
      refine ⟨List.nodup_cons.mpr ⟨outside, distinct⟩, fun y => ?_⟩
      rw [List.mem_cons, members]
      simp only [withElement]
      by_cases isMap : y = m
      · subst isMap
        simp [found, different.symm, bottomScope]
      · by_cases isNew : y = e
        · simp [isNew, different, elementObj]
        · simp [isMap, isNew]
  case listed =>
    intro y gone
    simp only [withElement] at gone
    split at gone
    · contradiction
    · split at gone
      · contradiction
      · next isNew =>
        obtain ⟨bottom, upper⟩ := inv.listed gone
        refine ⟨fun listed => (List.mem_cons.mp listed).elim isNew bottom, fun c inside => ?_⟩
        cases isUpper : s.upper with
        | nil => simp [withElement, isUpper] at inside
        | cons chain rest =>
          simp only [withElement, isUpper] at inside
          rw [isUpper] at upper
          rcases List.mem_cons.mp inside with rfl | inside
          · exact fun listed => (List.mem_cons.mp listed).elim isNew (upper chain (List.mem_cons_self ..))
          · exact upper c (List.mem_cons_of_mem _ inside)
  case linked =>
    have links : (s.withElement m k d e ⟨scope, restore, .cdHashMap (h.link k e)⟩).links
        = fun y => if y = m then some (.map (h.link k e))
          else if y = e then some (.element k (some m)) else s.links y := by
      funext y
      simp only [Context.links, withElement]
      split
      · rfl
      · split
        · rfl
        · rfl
    rw [links]
    refine inv.linked.link ?_ ?_ (CDHashMap.not_mem_of_find new)
    · rw [Context.links, absent, Option.map_none]
    · rw [Context.links, found, Option.map_some, Payload.links]

theorem withElement_gone (positive : s.getLevel ≠ 0) (y : I)
    : (s.withElement m k d e ⟨scope, restore, .cdHashMap (h.link k e)⟩).gone y
      = (s.gone y || decide (y = e)) := by
  have level := withElement_level inv absent found (k := k) (d := d)
    ⟨scope, restore, .cdHashMap (h.link k e)⟩
  have bottomScope : scope = 0 := (inv.object found).map_scope rfl
  have below : (0 == s.getLevel) = false := beq_false_of_ne positive.symm
  have different : e ≠ m := by
    rintro rfl
    rw [found] at absent
    contradiction
  unfold Context.gone
  rw [level]
  simp only [withElement]
  by_cases isMap : y = m
  · subst isMap
    simp [found, bottomScope, below, different.symm]
  · by_cases isNew : y = e
    · subst isNew
      simp [isMap, elementObj, positive, ContextObj.leavesMap, Payload.leaves]
    · simp [isMap, isNew]

/-- No map has the new element yet. -/
theorem prune_new (gone : I → Bool) {y : I} {o : ContextObj α K D I} (foundY : s.objs y = some o)
    : o.prune (fun id => gone id || decide (id = e)) = o.prune gone := by
  refine ContextObj.prune_congr fun h' isMap => ?_
  have map : s.links y = some (.map h') := by rw [links, foundY, Option.map_some, isMap]
  refine ⟨fun id inside => ?_, (inv.linked.keys map).2⟩
  obtain ⟨entry, inside', rfl⟩ := List.mem_map.mp inside
  have element := inv.linked.entry map (k := entry.1) (e := entry.2) inside'
  have other : entry.2 ≠ e := by
    intro same
    rw [same, links, absent] at element
    contradiction
  rw [decide_eq_false other, Bool.or_false]

/-- Popping takes the new element out of its map and deletes it. -/
theorem withElement_popped (positive : s.getLevel ≠ 0)
    : (s.withElement m k d e ⟨scope, restore, .cdHashMap (h.link k e)⟩).popped = s.popped := by
  have level := withElement_level inv absent found (k := k) (d := d)
    ⟨scope, restore, .cdHashMap (h.link k e)⟩
  have bottomScope : scope = 0 := (inv.object found).map_scope rfl
  have gone := funext (withElement_gone inv absent found (k := k) (d := d) positive)
  have chain {c : List I} (outside : e ∉ c)
      : c.filter (fun y => !(s.gone y || decide (y = e))) = c.filter (!s.gone ·) := by
    refine List.filter_congr fun y inside => ?_
    have other : y ≠ e := fun same => outside (same ▸ inside)
    rw [decide_eq_false other, Bool.or_false]
  obtain ⟨bottom, upper⟩ := inv.listed absent
  unfold popped
  simp only [gone, level]
  refine congr (congrArg₂ Context.mk ?_ ?_) (funext fun y => ?_)
  · rw [withElement, List.filter_cons_of_neg (by simp)]
    exact chain bottom
  · have tails : (s.withElement m k d e ⟨scope, restore, .cdHashMap (h.link k e)⟩).upper.tail
        = s.upper.tail := by
      unfold withElement
      cases s.upper <;> rfl
    rw [tails]
    exact List.map_congr_left fun c inside => chain (upper c (List.mem_of_mem_tail inside))
  · by_cases isNew : y = e
    · simp [isNew, absent]
    · rw [decide_eq_false isNew, Bool.or_false]
      by_cases isMap : y = m
      · subst isMap
        have old := prune_new inv absent found s.gone found
        have table : (h.dMap ++ [(k, e)]).filter (fun entry => !(s.gone entry.2 || decide (entry.2 = e)))
            = h.dMap.filter fun entry => !(s.gone entry.2 || decide (entry.2 = e)) := by
          simp [List.filter_append]
        have ring : (h.ring ++ [e]).filter (fun id => !(s.gone id || decide (id = e)))
            = h.ring.filter fun id => !(s.gone id || decide (id = e)) := by
          simp [List.filter_append]
        simp only [ContextObj.prune] at old
        simp only [withElement, if_true, found, Option.map_some, bottomScope, positive.symm, if_false,
          ContextObj.prune, CDHashMap.link, table, ring]
        rw [← bottomScope, old]
      · cases foundY : s.objs y with
        | none => simp [withElement, isNew, isMap, foundY]
        | some o => simp [withElement, isNew, isMap, foundY, prune_new inv absent found s.gone foundY]

end Element

theorem newElement_backtracks (inv : s.Inv) {m e : I} {k : K} {d : D} {h : CDHashMap K I}
    (map : s.hashMapAt m = some h) (new : h.find k = none) (ran : s.newElement m k d e = some s')
    : s'.Inv ∧ s'.pop = s.pop ∧ s'.getLevel = s.getLevel := by
  obtain ⟨absent, scope, restore, h', found, rfl⟩ := newElement_cases ran
  rw [hashMapAt, found] at map
  cases map
  have inv' := withElement_inv inv absent found (d := d) new
  have level := withElement_level inv absent found (k := k) (d := d)
    ⟨scope, restore, .cdHashMap (h.link k e)⟩
  exact ⟨inv', pop_congr inv inv' level (withElement_popped inv absent found), level⟩

-- Containers

/-- A new container is valid, is not in a map and has no elements. -/
theorem new_valid (kind : Kind) : (kind.new : Payload α K D I).Valid := by
  cases kind <;> simp [Kind.new, Payload.Valid, CDList.empty, CDQueue.empty, CDInsertHashMap.empty]

theorem links_new (kind : Kind) : (kind.new : Payload α K D I).links = .plain
    ∨ (kind.new : Payload α K D I).links = .map CDHashMap.empty := by
  cases kind
  · exact .inl rfl
  · exact .inl rfl
  · exact .inl rfl
  · exact .inr rfl

section Register
variable (inv : s.Inv) {id : I} (absent : s.objs id = none) (kind : Kind)

/-- The state with a new container. -/
def withContainer (s : Context α K D I) (id : I) (kind : Kind) : Context α K D I :=
  { (s.setObj id ⟨0, [], kind.new⟩) with bottom := id :: s.bottom }

theorem register_eq : s.register id kind.new
    = if (s.objs id).isNone then some (s.withContainer id kind) else none := by
  unfold register withContainer
  cases s.objs id <;> rfl

include inv absent

theorem withContainer_inv : (s.withContainer id kind).Inv := by
  constructor
  case object =>
    intro y o found
    simp only [withContainer, objs_setObj] at found
    split at found
    · cases found
      exact ⟨Nat.zero_le _, fun up => absurd rfl up, new_valid kind, fun _ => rfl⟩
    · exact inv.object found
  case chain =>
    intro top rest isTop
    refine ⟨(inv.chain isTop).1, fun y => ((inv.chain isTop).2 y).trans ?_⟩
    have positive : s.getLevel ≠ 0 := by
      have upper : s.upper = top :: rest := isTop
      simp [getLevel, upper]
    simp only [withContainer, objs_setObj]
    split
    · next this =>
      have level : 0 ≠ s.getLevel := positive.symm
      simpa [this, absent, getLevel] using level
    · rfl
  case listed =>
    intro y gone
    simp only [withContainer, objs_setObj] at gone
    split at gone
    · contradiction
    · next other =>
      obtain ⟨bottom, upper⟩ := inv.listed gone
      exact ⟨fun listed => (List.mem_cons.mp listed).elim other bottom, upper⟩
  case linked =>
    have links : (s.withContainer id kind).links
        = fun y => if y = id then some (kind.new : Payload α K D I).links else s.links y := by
      funext y
      simp only [Context.links, withContainer, objs_setObj]
      split <;> rfl
    rw [links]
    exact inv.linked.add (by rw [Context.links, absent, Option.map_none]) (links_new kind)

theorem withContainer_popped (positive : s.getLevel ≠ 0)
    : (s.withContainer id kind).popped = s.popped.withContainer id kind := by
  have below : (0 == s.getLevel) = false := beq_false_of_ne positive.symm
  have gone : (s.withContainer id kind).gone = s.gone := by
    funext y
    unfold Context.gone
    by_cases same : y = id
    · have level : (s.withContainer id kind).getLevel = s.getLevel := rfl
      rw [same, absent, level]
      simp [withContainer, below]
    · simp only [withContainer, objs_setObj, if_neg same]
      rfl
  have stays : s.gone id = false := gone_of_none absent
  have level : (s.withContainer id kind).getLevel = s.getLevel := rfl
  ext1
  · simp only [popped, gone]
    simp [withContainer, stays]
  · simp only [popped, gone]
    rfl
  · funext y
    by_cases same : y = id
    · have empty : (⟨0, [], kind.new⟩ : ContextObj α K D I).prune s.gone = ⟨0, [], kind.new⟩ := by
        cases kind <;> rfl
      have here : (s.withContainer id kind).objs id = some ⟨0, [], kind.new⟩ := by
        simp [withContainer]
      simp only [popped, gone, level, same, here, stays, Option.map_some, positive.symm, if_false,
        empty, Bool.false_eq_true]
      simp [withContainer]
    · have here : (s.withContainer id kind).objs y = s.objs y := by simp [withContainer, same]
      have there : (s.popped.withContainer id kind).objs y = s.popped.objs y := by
        simp [withContainer, same]
      rw [there]
      simp only [popped, gone, level, here]

end Register

/-- Creating a container commutes with popping. -/
theorem register_pop {t : Context α K D I} {id : I} {kind : Kind} (inv : s.Inv)
    (below : s.pop = some t) (ran : s.register id kind.new = some s')
    : s'.pop = t.register id kind.new ∧ (t.register id kind.new).isSome := by
  rw [register_eq] at ran
  split at ran
  · next absent =>
    rw [Option.isNone_iff_eq_none] at absent
    cases ran
    have positive : s.getLevel ≠ 0 := fun zero => by
      rw [pop_bottom zero] at below
      contradiction
    obtain ⟨chain, rest, top⟩ := List.exists_cons_of_ne_nil
      (fun empty => positive (by simp [getLevel, empty]) : s.upper ≠ [])
    rw [pop_eq inv top] at below
    cases below
    have gone : s.popped.objs id = none := by simp [popped, absent]
    rw [pop_eq (withContainer_inv inv absent kind) (top : _ = chain :: rest),
      withContainer_popped inv absent kind positive, register_eq, gone]
    exact ⟨rfl, rfl⟩
  · contradiction

theorem push_inv (inv : s.Inv) : s.push.Inv where
  object found := by
    have old := inv.object found
    exact ⟨Nat.le_succ_of_le old.scope_le, old.saved, old.valid, old.map_scope⟩
  chain isTop := by
    cases isTop
    refine ⟨List.nodup_nil, fun y => ⟨nofun, ?_⟩⟩
    rintro ⟨o, found, atTop⟩
    have bound := (inv.object found).scope_le
    simp only [push, getLevel, List.length_cons] at atTop bound
    omega
  listed absent := by
    obtain ⟨bottom, upper⟩ := inv.listed absent
    refine ⟨bottom, fun c inside => ?_⟩
    rcases List.mem_cons.mp inside with rfl | inside
    · exact List.not_mem_nil
    · exact upper c inside
  linked := inv.linked

theorem pop_push (inv : s.Inv) : s.push.pop = some s := by
  have higher {y : I} {o : ContextObj α K D I} (found : s.objs y = some o)
      : o.scope ≠ s.push.getLevel := by
    have bound := (inv.object found).scope_le
    simp only [push, getLevel, List.length_cons] at bound ⊢
    omega
  have gone : s.push.gone = fun _ => false := by
    funext y
    unfold Context.gone
    cases found : s.objs y with
    | none => simp [push, found]
    | some o =>
      have foundPush : s.push.objs y = some o := found
      simp [foundPush, higher found]
  rw [pop_eq (push_inv inv) (rfl : _ = [] :: s.upper), popped, gone]
  refine congrArg some (congr (congrArg₂ Context.mk ?_ ?_) (funext fun y => ?_))
  · simp [push]
  · simp [push]
  · cases found : s.objs y with
    | none => simp [push, found]
    | some o =>
      have foundPush : s.push.objs y = some o := found
      simp [foundPush, higher found, ContextObj.prune_none]

end Context

end Ava6.CD

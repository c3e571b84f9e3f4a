import Ava6.Context.Pop

/-! No operation of the current scope touches what a pop returns to: popping after it leads
exactly to the state popping before it leads to. -/

set_option linter.unusedSectionVars false

namespace Ava6.CD.Context

variable {α K D I : Type} [DecidableEq K] [DecidableEq I] {s s' : Context α K D I} {id : I}

/-- What a state has to share with another one for a pop to return to the same state. -/
theorem pop_congr (inv : s.Inv) (inv' : s'.Inv) (level : s'.getLevel = s.getLevel)
    (same : s.getLevel ≠ 0 → s'.popped = s.popped) : s'.pop = s.pop := by
  by_cases zero : s.getLevel = 0
  · rw [pop_bottom zero, pop_bottom (level.trans zero)]
  · have nonempty {t : Context α K D I} (positive : t.getLevel ≠ 0) : t.upper ≠ [] :=
      fun empty => positive (by simp [getLevel, empty])
    obtain ⟨chain, rest, top⟩ := List.exists_cons_of_ne_nil (nonempty zero)
    obtain ⟨chain', rest', top'⟩ := List.exists_cons_of_ne_nil (nonempty (level ▸ zero))
    rw [pop_eq inv top, pop_eq inv' top', same zero]

/-- The two ways an object is changed: in place, or after a copy of it was saved. -/
theorem modify_cases {change : Payload α K D I → Option (Payload α K D I)}
    (ran : s.modify id change = some s')
    : ∃ o, s.objs id = some o
      ∧ ((o.scope = s.getLevel ∧ ∃ payload, change o.payload = some payload
          ∧ s' = s.setObj id { o with payload := payload })
        ∨ (o.scope ≠ s.getLevel ∧ ∃ saved current payload, o.payload.save = some (saved, current)
          ∧ change current = some payload
          ∧ s' = (s.setObj id ⟨s.getLevel, (o.scope, saved) :: o.restore, payload⟩).addToTopChain id)) := by
  simp only [modify, Option.bind_eq_bind, Option.bind_eq_some_iff, Option.pure_def,
    Option.some.injEq] at ran
  obtain ⟨o, found, ⟨t, o'⟩, current, payload, changed, rfl⟩ := ran
  refine ⟨o, found, ?_⟩
  unfold makeCurrent at current
  split at current
  · next atTop =>
    cases current
    exact .inl ⟨atTop, payload, changed, rfl⟩
  · next below =>
    obtain ⟨⟨saved, p⟩, copied, moved⟩ := Option.map_eq_some_iff.mp current
    cases moved
    refine .inr ⟨below, saved, p, payload, copied, changed, ?_⟩
    unfold addToTopChain setObj
    cases s.upper <;> simp

@[simp]
theorem objs_setObj (o : ContextObj α K D I) (y : I)
    : (s.setObj id o).objs y = if y = id then some o else s.objs y :=
  Function.update_apply ..

@[simp] theorem upper_setObj (o : ContextObj α K D I) : (s.setObj id o).upper = s.upper := rfl

@[simp] theorem bottom_setObj (o : ContextObj α K D I) : (s.setObj id o).bottom = s.bottom := rfl

@[simp]
theorem getLevel_setObj (o : ContextObj α K D I) : (s.setObj id o).getLevel = s.getLevel := rfl

theorem links_setObj {o p : ContextObj α K D I} (found : s.objs id = some o)
    (same : p.payload.links = o.payload.links) : (s.setObj id p).links = s.links := by
  funext y
  rw [links, objs_setObj]
  split
  · next this => rw [this, links, found, Option.map_some, Option.map_some, same]
  · rfl

section InPlace
variable {o : ContextObj α K D I} {payload : Payload α K D I} (inv : s.Inv)
  (found : s.objs id = some o) (atTop : o.scope = s.getLevel)
include inv found atTop

theorem inPlace_inv (valid : payload.Valid) (links : payload.links = o.payload.links)
    (guards : ∀ saved, o.payload.Guards saved → payload.Guards saved)
    : (s.setObj id { o with payload := payload }).Inv where
  object found' := by
    rw [objs_setObj] at found'
    split at found'
    · cases found'
      have old := inv.object found
      refine ⟨old.scope_le, fun up => ?_, valid, fun isMap => old.map_scope (links ▸ isMap)⟩
      obtain ⟨scope, saved, rest, restore, guarded⟩ := old.saved up
      exact ⟨scope, saved, rest, restore, guards saved guarded⟩
    · exact inv.object found'
  chain isTop := by
    refine ⟨(inv.chain isTop).1, fun y => ((inv.chain isTop).2 y).trans ?_⟩
    rw [objs_setObj]
    split
    · next this => simp [this, found]
    · rfl
  listed absent := by
    rw [objs_setObj] at absent
    split at absent
    · contradiction
    · exact inv.listed absent
  linked := by
    rw [links_setObj found links]
    exact inv.linked

theorem inPlace_popped (positive : s.getLevel ≠ 0)
    (kept : ∀ saved, o.payload.Guards saved → payload.leaves saved = o.payload.leaves saved
      ∧ (o.payload.leaves saved = none → payload.restore saved = o.payload.restore saved))
    : (s.setObj id { o with payload := payload }).popped = s.popped := by
  obtain ⟨scope, saved, rest, restore, guarded⟩ := (inv.object found).saved (atTop ▸ positive)
  obtain ⟨leaves, restores⟩ := kept saved guarded
  have gone (y : I) : (s.setObj id { o with payload := payload }).gone y = s.gone y := by
    unfold gone
    rw [objs_setObj]
    by_cases this : y = id
    · simp [this, found, ContextObj.leavesMap, restore, leaves]
    · rw [if_neg this, getLevel_setObj]
  have goneSame : (s.setObj id { o with payload := payload }).gone = s.gone := funext gone
  unfold popped
  simp only [goneSame, objs_setObj, upper_setObj, bottom_setObj, getLevel_setObj]
  congr 1
  funext y
  split
  · rfl
  · next stays =>
    split
    · next this =>
      subst this
      have remains : o.payload.leaves saved = none := by
        simpa [Context.gone, found, atTop, ContextObj.leavesMap, restore] using stays
      rw [found, Option.map_some, Option.map_some, if_pos atTop, if_pos atTop]
      simp [ContextObj.restoreTop, restore, restores remains]
    · rfl

end InPlace

section Moved
variable {o : ContextObj α K D I} {payload : Payload α K D I} {saved : Saved D I}
  (inv : s.Inv) (found : s.objs id = some o) (below : o.scope ≠ s.getLevel)

/-- The object after a copy of it was saved and it was changed. -/
def moved (s : Context α K D I) (o : ContextObj α K D I) (saved : Saved D I)
    (payload : Payload α K D I) : ContextObj α K D I :=
  ⟨s.getLevel, (o.scope, saved) :: o.restore, payload⟩

include inv found below

theorem upper_of_below : ∃ chain rest, s.upper = chain :: rest ∧ id ∉ chain := by
  have positive : s.upper ≠ [] := fun empty => below (by
    have bound := (inv.object found).scope_le
    simp only [getLevel, empty, List.length_nil] at bound ⊢
    omega)
  obtain ⟨chain, rest, top⟩ := List.exists_cons_of_ne_nil positive
  refine ⟨chain, rest, top, fun inside => ?_⟩
  obtain ⟨o', found', atTop⟩ := ((inv.chain top).2 id).mp inside
  rw [found] at found'
  cases found'
  exact below atTop

theorem moved_inv (valid : payload.Valid) (links : payload.links = o.payload.links)
    (plain : ∀ h, o.payload.links ≠ .map h) (guards : payload.Guards saved)
    : ((s.setObj id (s.moved o saved payload)).addToTopChain id).Inv := by
  obtain ⟨chain, rest, top, new⟩ := upper_of_below inv found below
  have level : ((s.setObj id (s.moved o saved payload)).addToTopChain id).getLevel = s.getLevel := by
    simp [addToTopChain, top, getLevel]
  have objs (y : I) : ((s.setObj id (s.moved o saved payload)).addToTopChain id).objs y
      = if y = id then some (s.moved o saved payload) else s.objs y := by
    simp [addToTopChain, top]
  constructor
  case object =>
    intro y o' found'
    rw [objs] at found'
    rw [level]
    split at found'
    · cases found'
      exact ⟨Nat.le_refl _, fun _ => ⟨_, _, _, rfl, guards⟩, valid,
        fun isMap => absurd (links ▸ isMap) (plain _)⟩
    · exact inv.object found'
  case chain =>
    intro newTop newRest isTop
    simp only [addToTopChain, upper_setObj, top, List.cons.injEq] at isTop
    obtain ⟨rfl, rfl⟩ := isTop
    refine ⟨List.nodup_cons.mpr ⟨new, (inv.chain top).1⟩, fun y => ?_⟩
    rw [objs, level, List.mem_cons, (inv.chain top).2 y]
    by_cases this : y = id
    · simp [this, moved]
    · simp [this]
  case listed =>
    intro y absent
    rw [objs] at absent
    split at absent
    · contradiction
    · next this =>
      obtain ⟨bottom, upper⟩ := inv.listed absent
      rw [top] at upper
      simp only [addToTopChain, upper_setObj, top, bottom_setObj]
      refine ⟨bottom, fun c inside => ?_⟩
      rcases List.mem_cons.mp inside with rfl | inside
      · exact fun listed => (List.mem_cons.mp listed).elim this (upper chain (List.mem_cons_self ..))
      · exact upper c (List.mem_cons_of_mem _ inside)
  case linked =>
    have same : ((s.setObj id (s.moved o saved payload)).addToTopChain id).links = s.links := by
      rw [← links_setObj (p := s.moved o saved payload) found links]
      funext y
      simp only [Context.links, objs, objs_setObj]
    rw [same]
    exact inv.linked

theorem moved_popped (plain : ∀ h, o.payload.links ≠ .map h)
    (restores : payload.restore saved = o.payload) (stays : payload.leaves saved = none)
    : ((s.setObj id (s.moved o saved payload)).addToTopChain id).popped = s.popped := by
  obtain ⟨chain, rest, top, new⟩ := upper_of_below inv found below
  have level : ((s.setObj id (s.moved o saved payload)).addToTopChain id).getLevel = s.getLevel := by
    simp [addToTopChain, top, getLevel]
  have objs (y : I) : ((s.setObj id (s.moved o saved payload)).addToTopChain id).objs y
      = if y = id then some (s.moved o saved payload) else s.objs y := by
    simp [addToTopChain, top]
  have gone : ((s.setObj id (s.moved o saved payload)).addToTopChain id).gone = s.gone := by
    funext y
    unfold Context.gone
    rw [objs, level]
    by_cases this : y = id
    · simp [this, found, ContextObj.leavesMap, moved, stays, below]
    · rw [if_neg this]
  unfold popped
  simp only [gone, objs, level]
  refine congr (congrArg₂ Context.mk ?_ ?_) (funext fun y => ?_)
  · simp [addToTopChain, top]
  · simp [addToTopChain, top]
  · by_cases this : y = id
    · subst this
      rw [if_pos rfl, found, Option.map_some, Option.map_some, if_neg below,
        ContextObj.prune_of_not_map plain]
      simp [moved, ContextObj.restoreTop, restores]
    · rw [if_neg this]

end Moved

/-- A change that keeps what copies restore neither breaks the invariant nor shows after a
pop. -/
theorem modify_backtracks {change : Payload α K D I → Option (Payload α K D I)}
    (keeps : Keeps change) (inv : s.Inv) (ran : s.modify id change = some s')
    : s'.Inv ∧ s'.pop = s.pop ∧ s'.getLevel = s.getLevel := by
  obtain ⟨o, found, ⟨atTop, payload, changed, rfl⟩ | ⟨below, saved, current, payload, copied, changed, rfl⟩⟩
    := modify_cases ran
  · obtain ⟨valid, links, plain, kept⟩ := keeps _ _ changed (inv.object found).valid
    have inv' := inPlace_inv inv found atTop valid links fun saved guarded => (kept saved guarded).1
    refine ⟨inv', pop_congr inv inv' rfl fun positive => ?_, rfl⟩
    exact inPlace_popped inv found atTop positive fun saved guarded => (kept saved guarded).2
  · obtain ⟨restores, guards, valid, links, stays⟩ :=
      Payload.restore_save (inv.object found).valid copied
    obtain ⟨valid', links', plain, kept⟩ := keeps _ _ changed valid
    obtain ⟨guards', leaves, restores'⟩ := kept saved guards
    rw [links] at links' plain
    have inv' := moved_inv inv found below valid' links' plain guards'
    obtain ⟨chain, rest, top, _⟩ := upper_of_below inv found below
    have level : ((s.setObj id (s.moved o saved payload)).addToTopChain id).getLevel = s.getLevel := by
      simp [addToTopChain, top, getLevel]
    refine ⟨inv', pop_congr inv inv' level fun _ => ?_, level⟩
    exact moved_popped inv found below plain ((restores' stays).trans restores) (leaves.trans stays)

end Ava6.CD.Context

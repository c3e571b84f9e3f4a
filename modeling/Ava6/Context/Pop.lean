import Ava6.Context.Saving

/-! The invariant of the context, and what a pop does to it in closed form: every object of
the top scope goes back to its latest copy, and the elements inserted in the top scope leave
their maps.
-/

set_option linter.unusedSectionVars false

namespace Ava6.CD

variable {α K D I : Type} [DecidableEq K] [DecidableEq I]

/-- Maps and elements point to each other. -/
structure Linked (links : I → Option (Links K I)) : Prop where
  keys {m : I} {h : CDHashMap K I} : links m = some (.map h)
    → (h.dMap.map (·.1)).Nodup ∧ h.dMap.map (·.2) = h.ring
  entry {m : I} {h : CDHashMap K I} {k : K} {e : I} : links m = some (.map h)
    → (k, e) ∈ h.dMap → links e = some (.element k (some m))
  element {e : I} {k : K} {dMap : Option I} : links e = some (.element k dMap)
    → ∃ m h, dMap = some m ∧ links m = some (.map h) ∧ (k, e) ∈ h.dMap

namespace ContextObj

/-- An object above the bottom scope has a copy, and its data still holds what the copy
restores. Maps stay in the bottom scope. -/
structure Inv (level : Nat) (o : ContextObj α K D I) : Prop where
  scope_le : o.scope ≤ level
  saved : o.scope ≠ 0
    → ∃ scope saved rest, o.restore = (scope, saved) :: rest ∧ o.payload.Guards saved
  valid : o.payload.Valid
  map_scope {h : CDHashMap K I} : o.payload.links = .map h → o.scope = 0

/-- The object after its latest copy is restored. -/
def restoreTop (o : ContextObj α K D I) : ContextObj α K D I :=
  match o.restore with
  | [] => o
  | (scope, saved) :: rest => ⟨scope, rest, o.payload.restore saved⟩

/-- Restoring the latest copy removes the element. -/
def leavesMap (o : ContextObj α K D I) : Bool :=
  match o.restore with
  | [] => false
  | (_, saved) :: _ => (o.payload.leaves saved).isSome

/-- The object without the elements that are gone. -/
def prune (gone : I → Bool) (o : ContextObj α K D I) : ContextObj α K D I :=
  match o.payload with
  | .cdHashMap h =>
      { o with payload := .cdHashMap ⟨h.dMap.filter (!gone ·.2), h.ring.filter (!gone ·)⟩ }
  | _ => o

theorem prune_of_not_map {gone : I → Bool} {o : ContextObj α K D I}
    (plain : ∀ h, o.payload.links ≠ .map h) : o.prune gone = o := by
  unfold prune
  split
  · next h payload =>
    rw [payload] at plain
    exact absurd rfl (plain h)
  · rfl

theorem prune_none (o : ContextObj α K D I) : o.prune (fun _ => false) = o := by
  unfold prune
  split
  · next h payload =>
    simp only [Bool.not_false, List.filter_true]
    rw [← payload]
  · rfl

/-- Elements that are not in the map may be gone or not. -/
theorem prune_congr {gone gone' : I → Bool} {o : ContextObj α K D I}
    (same : ∀ h, o.payload.links = .map h → (∀ e ∈ h.dMap.map (·.2), gone e = gone' e)
      ∧ h.dMap.map (·.2) = h.ring) : o.prune gone = o.prune gone' := by
  unfold prune
  split
  · next h payload =>
    obtain ⟨agree, ring⟩ := same h (by rw [payload]; rfl)
    have table : h.dMap.filter (!gone ·.2) = h.dMap.filter (!gone' ·.2) :=
      List.filter_congr fun entry member => by rw [agree _ (List.mem_map_of_mem member)]
    have order : h.ring.filter (!gone ·) = h.ring.filter (!gone' ·) :=
      List.filter_congr fun e member => by rw [agree e (ring ▸ member)]
    rw [table, order]
  · rfl

end ContextObj

namespace Context

variable {s s' : Context α K D I}

def links (s : Context α K D I) (id : I) : Option (Links K I) :=
  (s.objs id).map (·.payload.links)

/-- The invariant of a context. Only the top chain is described: the others were described when
they were on top, and a pop returns to that state. -/
structure Inv (s : Context α K D I) : Prop where
  object {id : I} {o : ContextObj α K D I} : s.objs id = some o → o.Inv s.getLevel
  chain {top : List I} {rest : List (List I)} : s.upper = top :: rest
    → top.Nodup ∧ ∀ id, id ∈ top ↔ ∃ o, s.objs id = some o ∧ o.scope = s.getLevel
  listed {id : I} : s.objs id = none → id ∉ s.bottom ∧ ∀ chain ∈ s.upper, id ∉ chain
  linked : Linked s.links

/-- The element was inserted in the top scope. -/
def gone (s : Context α K D I) (id : I) : Bool :=
  match s.objs id with
  | none => false
  | some o => o.scope == s.getLevel && o.leavesMap

theorem gone_of_none {id : I} (absent : s.objs id = none) : s.gone id = false := by
  rw [gone, absent]

/-- The state a pop leads to. -/
def popped (s : Context α K D I) : Context α K D I where
  bottom := s.bottom.filter (!s.gone ·)
  upper := s.upper.tail.map (·.filter (!s.gone ·))
  objs id :=
    if s.gone id then none
    else (s.objs id).map fun o =>
      if o.scope = s.getLevel then o.restoreTop else o.prune s.gone

/-- The objects when the given ones of the top chain are restored. -/
def restored (s : Context α K D I) (done : List I) (id : I) : Option (ContextObj α K D I) :=
  (s.objs id).map fun o =>
    if id ∈ done then o.restoreTop else o.prune fun e => decide (e ∈ done) && s.gone e

theorem foldl_deleteSelf (garbage : List I) (t : Context α K D I)
    : garbage.foldl deleteSelf t = ⟨t.bottom.filter (· ∉ garbage),
        t.upper.map (·.filter (· ∉ garbage)), fun id => if id ∈ garbage then none else t.objs id⟩ := by
  induction garbage generalizing t with
  | nil => simp
  | cons id garbage ih =>
    rw [List.foldl_cons, ih, deleteSelf]
    refine congr (congrArg₂ Context.mk ?_ ?_) ?_
    · rw [List.filter_filter]
      exact List.filter_congr fun e _ => by simp [Bool.and_comm]
    · rw [List.map_map]
      refine List.map_congr_left fun chain _ => ?_
      rw [Function.comp_apply, List.filter_filter]
      exact List.filter_congr fun e _ => by simp [Bool.and_comm]
    · funext e
      by_cases same : e = id
      · simp [same]
      · simp [same]

/-- The element that leaves its map is the one under its key, and it is in no other map. -/
theorem entry_iff (inv : s.Inv) {id m m' : I} {k l : K} {h : CDHashMap K I} {e : I}
    (element : s.links id = some (.element k (some m))) (map : s.links m' = some (.map h))
    (member : (l, e) ∈ h.dMap) : e = id ↔ m' = m ∧ l = k := by
  have entry := inv.linked.entry map member
  constructor
  · rintro rfl
    rw [entry] at element
    cases element
    exact ⟨rfl, rfl⟩
  · rintro ⟨rfl, rfl⟩
    obtain ⟨n, own, same, found, inside⟩ := inv.linked.element element
    cases same
    rw [map] at found
    cases found
    exact congrArg Prod.snd (List.inj_on_of_nodup_map (inv.linked.keys map).1 member inside rfl)

section Chain
variable (inv : s.Inv) {chain : List I} {rest : List (List I)} (top : s.upper = chain :: rest)
include inv top

/-- An object of the top chain has a copy, and it is not a map. -/
theorem top_object {id : I} (member : id ∈ chain)
    : ∃ scope saved rest payload, s.objs id = some ⟨s.getLevel, (scope, saved) :: rest, payload⟩
      ∧ (∀ h, payload.links ≠ .map h) ∧ payload.Guards saved := by
  obtain ⟨o, found, atTop⟩ := ((inv.chain top).2 id).mp member
  have positive : s.getLevel ≠ 0 := by simp [getLevel, top]
  obtain ⟨scope, saved, copies, restore, guards⟩ := (inv.object found).saved (atTop ▸ positive)
  obtain ⟨_, _, payload⟩ := o
  cases atTop
  cases restore
  refine ⟨scope, saved, copies, payload, found, fun h isMap => ?_, guards⟩
  exact positive ((inv.object found).map_scope isMap)

/-- One object restored after the others. -/
theorem restoreAndContinue_restored {done : List I} (earlier : ∀ y ∈ done, y ∈ chain) {id : I}
    (member : id ∈ chain) (new : id ∉ done)
    : restoreAndContinue (s.restored done, done.filter s.gone) id
      = (s.restored (done ++ [id]), (done ++ [id]).filter s.gone) := by
  obtain ⟨scope, saved, copies, payload, found, plain, guards⟩ := top_object inv top member
  have now : s.restored done id = some ⟨s.getLevel, (scope, saved) :: copies, payload⟩ := by
    rw [restored, found, Option.map_some, if_neg new, ContextObj.prune_of_not_map plain]
  have isGone : s.gone id = (payload.leaves saved).isSome := by
    simp [gone, found, ContextObj.leavesMap]
  unfold restoreAndContinue
  simp only [now]
  cases leaving : payload.leaves saved with
  | none =>
    rw [leaving, Option.isSome_none] at isGone
    refine Prod.ext (funext fun y => ?_) (by simp [List.filter_append, isGone])
    by_cases same : y = id
    · subst same
      simp [restored, found, ContextObj.restoreTop]
    · have others : (fun e => decide (e ∈ done ++ [id]) && s.gone e)
          = fun e => decide (e ∈ done) && s.gone e := by
        funext e
        by_cases this : e = id
        · simp [this, isGone]
        · simp [this]
      simp only [Function.update_of_ne same, restored, others]
      simp [same]
  | some pair =>
    obtain ⟨k, m⟩ := pair
    rw [leaving, Option.isSome_some] at isGone
    have element : s.links id = some (.element k (some m)) := by
      rw [links, found, Option.map_some, Payload.links_of_leaves leaving]
    obtain ⟨_, h, own, map, _⟩ := inv.linked.element element
    cases own
    obtain ⟨o, foundMap, mapLinks⟩ := Option.map_eq_some_iff.mp map
    obtain ⟨mapScope, mapRestore, mapPayload⟩ := o
    obtain rfl : mapPayload = .cdHashMap h := Payload.eq_of_links mapLinks
    have different : m ≠ id := by
      rintro rfl
      rw [found] at foundMap
      cases foundMap
      exact plain h rfl
    have outside : m ∉ done := fun inside => by
      obtain ⟨_, _, _, _, found', plain', _⟩ := top_object inv top (earlier m inside)
      rw [foundMap] at found'
      cases found'
      exact plain' h rfl
    have more (e : I) : (decide (e ∈ done ++ [id]) && s.gone e)
        = ((decide (e ∈ done) && s.gone e) || decide (e = id)) := by
      by_cases this : e = id
      · simp [this, isGone]
      · simp [this]
    have mapNow : s.restored done m = some (ContextObj.prune (fun e => decide (e ∈ done) && s.gone e)
        ⟨mapScope, mapRestore, .cdHashMap h⟩) := by
      rw [restored, foundMap, Option.map_some, if_neg outside]
    refine Prod.ext (funext fun y => ?_) (by simp [List.filter_append, isGone])
    simp only [unlinkElement, mapNow, ContextObj.prune]
    by_cases same : y = id
    · subst same
      simp [restored, found, ContextObj.restoreTop]
    rw [Function.update_of_ne same]
    by_cases isMap : y = m
    · subst isMap
      have table : (h.dMap.filter fun entry => !(decide (entry.2 ∈ done) && s.gone entry.2)).filter
            (·.1 ≠ k) = h.dMap.filter fun entry => !(decide (entry.2 ∈ done ++ [id]) && s.gone entry.2) := by
        rw [List.filter_filter]
        refine List.filter_congr fun entry inside => ?_
        have own := entry_iff inv element map (l := entry.1) (e := entry.2) inside
        simp only [true_and] at own
        simp only [more, Bool.not_or, own]
        rw [Bool.and_comm]
        simp
      have order : (h.ring.filter fun e => !(decide (e ∈ done) && s.gone e)).filter (· ≠ id)
          = h.ring.filter fun e => !(decide (e ∈ done ++ [id]) && s.gone e) := by
        rw [List.filter_filter]
        refine List.filter_congr fun e _ => ?_
        simp only [more, Bool.not_or]
        rw [Bool.and_comm]
        simp
      rw [Function.update_self, restored, foundMap, Option.map_some, if_neg (by simp [outside, same]),
        CDHashMap.unlink, table, order]
      rfl
    · rw [Function.update_of_ne isMap, restored, restored]
      cases objY : s.objs y with
      | none => rfl
      | some o =>
        have unchanged : (o.prune fun e => decide (e ∈ done) && s.gone e)
            = o.prune fun e => decide (e ∈ done ++ [id]) && s.gone e := by
          refine ContextObj.prune_congr fun h' isMap' => ?_
          have map' : s.links y = some (.map h') := by rw [links, objY, Option.map_some, isMap']
          refine ⟨fun e inside => ?_, (inv.linked.keys map').2⟩
          obtain ⟨entry, inside', rfl⟩ := List.mem_map.mp inside
          have own := entry_iff inv element map' (l := entry.1) (e := entry.2) inside'
          rw [more, decide_eq_false (fun this => isMap (own.mp this).1), Bool.or_false]
        simp only [Option.map_some, unchanged, List.mem_append, List.mem_singleton, same, or_false]

/-- The whole chain, by induction on what is left of it. -/
theorem foldl_restoreAndContinue (todo done : List I) (parts : done ++ todo = chain)
    : todo.foldl restoreAndContinue (s.restored done, done.filter s.gone)
      = (s.restored chain, chain.filter s.gone) := by
  induction todo generalizing done with
  | nil => rw [List.foldl_nil, ← parts, List.append_nil]
  | cons id todo ih =>
    have distinct := (inv.chain top).1
    rw [← parts, List.nodup_append] at distinct
    rw [List.foldl_cons, restoreAndContinue_restored inv top
      (fun y inside => parts ▸ List.mem_append_left _ inside)
      (parts ▸ List.mem_append_right _ (List.mem_cons_self ..))
      (fun inside => distinct.2.2 id inside id (List.mem_cons_self ..) rfl)]
    exact ih (done ++ [id]) (by rw [List.append_assoc, List.singleton_append, parts])

theorem mem_of_gone {id : I} (isGone : s.gone id = true) : id ∈ chain := by
  unfold gone at isGone
  split at isGone
  · contradiction
  · next o found =>
    rw [Bool.and_eq_true, beq_iff_eq] at isGone
    exact ((inv.chain top).2 id).mpr ⟨o, found, isGone.1⟩

theorem pop_eq : s.pop = some s.popped := by
  have start : s.restored [] = s.objs := by
    funext id
    simp [restored, ContextObj.prune_none]
  have all := foldl_restoreAndContinue inv top chain [] rfl
  rw [start, List.filter_nil] at all
  have garbage (id : I) : id ∈ chain.filter s.gone ↔ s.gone id = true := by
    rw [List.mem_filter]
    exact ⟨And.right, fun isGone => ⟨mem_of_gone inv top isGone, isGone⟩⟩
  have keep (id : I) : decide (id ∉ chain.filter s.gone) = !s.gone id := by
    rw [Bool.eq_iff_iff, decide_eq_true_iff, garbage, Bool.not_eq_true, Bool.not_eq_true']
  simp only [pop, top, all, foldl_deleteSelf, popped, keep, List.tail_cons, Option.some.injEq,
    Context.mk.injEq, true_and]
  funext id
  simp only [garbage, restored]
  split
  · rfl
  · cases found : s.objs id with
    | none => rfl
    | some o =>
      have inChain : id ∈ chain ↔ o.scope = s.getLevel := by
        rw [(inv.chain top).2 id, found]
        simp
      have all : (fun e => decide (e ∈ chain) && s.gone e) = s.gone := by
        funext e
        cases isGone : s.gone e with
        | false => rw [Bool.and_false]
        | true => rw [Bool.and_true, decide_eq_true (mem_of_gone inv top isGone)]
      simp only [Option.map_some, inChain, all]

end Chain

/-- Without an upper scope there is nothing to pop. -/
theorem pop_bottom (level : s.getLevel = 0) : s.pop = none := by
  have upper : s.upper = [] := List.length_eq_zero_iff.mp level
  rw [pop, upper]

end Context

end Ava6.CD

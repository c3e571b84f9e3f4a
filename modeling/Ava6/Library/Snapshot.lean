import Mathlib.Data.List.Basic

/-! Stores that go back to earlier states. A store may keep what it needs for that in any
way; the eager store copies its whole content at each push. A store whose operations leave
its earlier states alone refines the eager one.
-/

namespace Ava6.Library.Snapshot

variable {State Content Step Extension : Type*}

/-- A step changes the current state; an extension adds something to the state of every
level. -/
inductive Command (Step Extension : Type*)
  | step (c : Step)
  | extend (e : Extension)
  | push
  | pop
  | popto (toLevel : Nat)

/-- A store with levels. `pop` is undefined at level zero. -/
structure Store (State Step Extension : Type*) where
  step : State → Step → Option State
  extend : State → Extension → Option State
  push : State → State
  pop : State → Option State
  level : State → Nat

namespace Store

variable (store : Store State Step Extension)

def popTimes : Nat → State → Option State
  | 0, s => some s
  | n + 1, s => (store.pop s).bind (popTimes n)

/-- Pops while the level is above the given one. -/
def popto (toLevel : Nat) (s : State) : Option State := store.popTimes (store.level s - toLevel) s

def exec (s : State) : Command Step Extension → Option State
  | .step c => store.step s c
  | .extend e => store.extend s e
  | .push => some (store.push s)
  | .pop => store.pop s
  | .popto toLevel => store.popto toLevel s

def run : State → List (Command Step Extension) → Option State
  | s, [] => some s
  | s, command :: rest => (store.exec s command).bind (run · rest)

end Store

/-- The content of the current level and the copies made at the pushes, latest first. -/
structure Copies (Content : Type*) where
  current : Content
  copies : List Content

/-- Copies the content at each push and reinstates the copy at each pop. -/
def eager (step : Content → Step → Option Content)
    (extend : Content → Extension → Option Content) : Store (Copies Content) Step Extension where
  step s c := (step s.current c).map ({ s with current := · })
  extend s e := do
    let current ← extend s.current e
    let copies ← s.copies.mapM (extend · e)
    return ⟨current, copies⟩
  push s := ⟨s.current, s.current :: s.copies⟩
  pop s :=
    match s.copies with
    | [] => none
    | copy :: rest => some ⟨copy, rest⟩
  level s := s.copies.length

/-- What a store has to do: a step leaves alone what the next pop returns to, a push is undone
by the next pop, and an extension commutes with pop. -/
structure Backtracks (store : Store State Step Extension) (inv : State → Prop)
    (view : State → Content) (step : Content → Step → Option Content)
    (extend : Content → Extension → Option Content) : Prop where
  pop_bottom {s : State} : store.level s = 0 → store.pop s = none
  step {s s' : State} {c : Step} : inv s → store.step s c = some s'
    → inv s' ∧ step (view s) c = some (view s') ∧ store.pop s' = store.pop s
      ∧ store.level s' = store.level s
  push {s : State} : inv s
    → inv (store.push s) ∧ view (store.push s) = view s ∧ store.pop (store.push s) = some s
      ∧ store.level (store.push s) = store.level s + 1
  extend {s s' : State} {e : Extension} : inv s → store.extend s e = some s'
    → inv s' ∧ extend (view s) e = some (view s') ∧ store.level s' = store.level s
  extend_pop {s s' t : State} {e : Extension} : inv s → store.pop s = some t
    → store.extend s e = some s' → store.pop s' = store.extend t e ∧ (store.extend t e).isSome

/-- The state and the ones below it have the given contents. -/
inductive Tracks (store : Store State Step Extension) (inv : State → Prop)
    (view : State → Content) : State → Copies Content → Prop
  | bottom {s : State} : inv s → store.level s = 0 → Tracks store inv view s ⟨view s, []⟩
  | above {s t : State} {copies : Copies Content} : inv s → store.pop s = some t
    → store.level s = store.level t + 1 → Tracks store inv view t copies
    → Tracks store inv view s ⟨view s, copies.current :: copies.copies⟩

namespace Tracks

variable {store : Store State Step Extension} {inv : State → Prop} {view : State → Content}
  {s : State} {copies : Copies Content}

theorem inv_current (tracks : Tracks store inv view s copies) : inv s := by
  cases tracks with
  | bottom holds _ => exact holds
  | above holds _ _ _ => exact holds

theorem current_eq (tracks : Tracks store inv view s copies) : copies.current = view s := by
  cases tracks with
  | bottom _ _ => rfl
  | above _ _ _ _ => rfl

theorem level_eq (tracks : Tracks store inv view s copies)
    : store.level s = copies.copies.length := by
  induction tracks with
  | bottom _ zero => exact zero
  | above _ _ level _ ih => rw [level, ih, List.length_cons]

/-- A state with the same state below and its own content tracks the same copies. -/
theorem replace {s' : State} (tracks : Tracks store inv view s copies) (holds : inv s')
    (pop : store.pop s' = store.pop s) (level : store.level s' = store.level s)
    : Tracks store inv view s' ⟨view s', copies.copies⟩ := by
  cases tracks with
  | bottom _ zero => exact .bottom holds (level.trans zero)
  | above _ popped up below => exact .above holds (pop.trans popped) (level.trans up) below

variable {step : Content → Step → Option Content}
  {extend : Content → Extension → Option Content}

theorem pop_defined (tracks : Tracks store inv view s copies)
    (defined : ((eager step extend).pop copies).isSome) : (store.pop s).isSome := by
  cases tracks with
  | bottom _ _ => simp [eager] at defined
  | above _ popped _ _ => rw [popped, Option.isSome_some]

/-- The store pops as often as the eager one does. -/
theorem popTimes_defined (n : Nat) (tracks : Tracks store inv view s copies)
    (defined : ((eager step extend).popTimes n copies).isSome) : (store.popTimes n s).isSome := by
  induction n generalizing s copies with
  | zero => rfl
  | succ n ih =>
    cases tracks with
    | bottom _ _ => simp [Store.popTimes, eager] at defined
    | above _ popped _ below =>
      rw [Store.popTimes, popped]
      exact ih below defined

end Tracks

namespace Backtracks

variable {store : Store State Step Extension} {inv : State → Prop} {view : State → Content}
  {step : Content → Step → Option Content} {extend : Content → Extension → Option Content}
  (backtracks : Backtracks store inv view step extend)
  {s s' : State} {copies : Copies Content}
include backtracks

theorem exec_step {c : Step} (tracks : Tracks store inv view s copies)
    (ran : store.step s c = some s')
    : ∃ copies', (eager step extend).step copies c = some copies'
      ∧ Tracks store inv view s' copies' := by
  obtain ⟨holds, content, pop, level⟩ := backtracks.step tracks.inv_current ran
  refine ⟨⟨view s', copies.copies⟩, ?_, tracks.replace holds pop level⟩
  simp [eager, tracks.current_eq, content]

theorem exec_push (tracks : Tracks store inv view s copies)
    : Tracks store inv view (store.push s) ((eager step extend).push copies) := by
  obtain ⟨holds, content, pop, level⟩ := backtracks.push tracks.inv_current
  have pushed := Tracks.above holds pop level tracks
  rw [content, ← tracks.current_eq] at pushed
  exact pushed

theorem exec_pop (tracks : Tracks store inv view s copies) (ran : store.pop s = some s')
    : ∃ copies', (eager step extend).pop copies = some copies'
      ∧ Tracks store inv view s' copies' := by
  cases tracks with
  | bottom _ zero =>
    rw [backtracks.pop_bottom zero] at ran
    contradiction
  | above _ popped _ below =>
    rw [popped] at ran
    cases ran
    exact ⟨_, rfl, below⟩

theorem exec_popTimes (n : Nat) (tracks : Tracks store inv view s copies)
    (ran : store.popTimes n s = some s')
    : ∃ copies', (eager step extend).popTimes n copies = some copies'
      ∧ Tracks store inv view s' copies' := by
  induction n generalizing s copies with
  | zero =>
    cases ran
    exact ⟨copies, rfl, tracks⟩
  | succ n ih =>
    obtain ⟨t, popped, rest⟩ := Option.bind_eq_some_iff.mp ran
    obtain ⟨below, copied, tracks'⟩ := backtracks.exec_pop tracks popped
    obtain ⟨copies', ran', tracks''⟩ := ih tracks' rest
    exact ⟨copies', by rw [Store.popTimes, copied]; exact ran', tracks''⟩

/-- An extension reaches every level, by induction on the levels. -/
theorem exec_extend {e : Extension} (tracks : Tracks store inv view s copies)
    (ran : store.extend s e = some s')
    : ∃ copies', (eager step extend).extend copies e = some copies'
      ∧ Tracks store inv view s' copies' := by
  induction tracks generalizing s' with
  | bottom holds zero =>
    obtain ⟨holds', content, level⟩ := backtracks.extend holds ran
    exact ⟨⟨view s', []⟩, by simp [eager, content], .bottom holds' (level.trans zero)⟩
  | @above s t copies holds popped up below ih =>
    obtain ⟨holds', content, level⟩ := backtracks.extend holds ran
    obtain ⟨pop, defined⟩ := backtracks.extend_pop holds popped ran
    obtain ⟨t', extended⟩ := Option.isSome_iff_exists.mp defined
    obtain ⟨copies', copied, tracks'⟩ := ih extended
    have levels := (backtracks.extend below.inv_current extended).2.2
    refine ⟨⟨view s', copies'.current :: copies'.copies⟩, ?_,
      .above holds' (pop.trans extended) (by omega) tracks'⟩
    simp only [eager, Option.bind_eq_bind, Option.bind_eq_some_iff, Option.pure_def,
      Option.some.injEq] at copied
    obtain ⟨current, first, rest, others, rfl⟩ := copied
    simp [eager, content, first, others]

/-- One command, by the cases of the command. -/
theorem exec {command : Command Step Extension} (tracks : Tracks store inv view s copies)
    (ran : store.exec s command = some s')
    : ∃ copies', (eager step extend).exec copies command = some copies'
      ∧ Tracks store inv view s' copies' := by
  cases command with
  | step c => exact backtracks.exec_step tracks ran
  | extend e => exact backtracks.exec_extend tracks ran
  | push =>
    cases ran
    exact ⟨_, rfl, backtracks.exec_push tracks⟩
  | pop => exact backtracks.exec_pop tracks ran
  | popto toLevel =>
    rw [Store.exec, Store.popto, tracks.level_eq] at ran
    exact backtracks.exec_popTimes _ tracks ran

/-- A whole run, by induction on the commands. -/
theorem run (commands : List (Command Step Extension)) (tracks : Tracks store inv view s copies)
    (ran : store.run s commands = some s')
    : ∃ copies', (eager step extend).run copies commands = some copies'
      ∧ Tracks store inv view s' copies' := by
  induction commands generalizing s copies with
  | nil =>
    cases ran
    exact ⟨copies, rfl, tracks⟩
  | cons command rest ih =>
    obtain ⟨middle, first, others⟩ := Option.bind_eq_some_iff.mp ran
    obtain ⟨between, copied, tracks'⟩ := backtracks.exec tracks first
    obtain ⟨copies', ran', tracks''⟩ := ih tracks' others
    exact ⟨copies', by rw [Store.run, copied]; exact ran', tracks''⟩

end Backtracks

end Ava6.Library.Snapshot

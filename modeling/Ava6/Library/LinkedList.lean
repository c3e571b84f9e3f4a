import Mathlib.Data.List.Nodup
import Mathlib.Logic.Function.Basic

/-! Doubly linked lists in a heap of cells, and loops that follow the links while their body
changes the heap.
-/

namespace Ava6.Library.LinkedList

variable {α σ : Type*}

structure Links (α : Type*) where
  next : α → Option α
  prev : α → Option α

/-- The cells met from `cursor` on are those of the list, and each points back to the cell in
front of it.
-/
def Chain (links : Links α) : (before cursor : Option α) → List α → Prop
  | _, cursor, [] => cursor = none
  | before, cursor, x :: l =>
      cursor = some x ∧ links.prev x = before ∧ Chain links (some x) (links.next x) l

variable {before cursor : Option α} {l : List α}

theorem Chain.head {links : Links α}
    (chain : Chain links before cursor l)
    : cursor = l.head? := by
  cases l with
  | nil => exact chain
  | cons x l => exact chain.1

/-- A chain depends on the links of its own cells only. -/
theorem Chain.congr {links links' : Links α}
    (chain : Chain links before cursor l)
    (same : ∀ x ∈ l, links'.next x = links.next x ∧ links'.prev x = links.prev x)
    : Chain links' before cursor l := by
  induction l generalizing before cursor with
  | nil => exact chain
  | cons x l ih =>
      obtain ⟨sameNext, samePrev⟩ := same x (by simp)
      refine ⟨chain.1, samePrev.trans chain.2.1, ?_⟩
      rw [sameNext]
      exact ih chain.2.2 (fun y member => same y (by simp [member]))

variable {rest : List α}

/-- From the middle of a chain on there is a chain again. -/
theorem Chain.drop {links : Links α}
    (chain : Chain links before cursor (l ++ rest))
    : Chain links (l.getLast?.or before) rest.head? rest := by
  induction l generalizing before cursor with
  | nil => simpa [chain.head] using chain
  | cons x l ih =>
      have tail := ih chain.2.2
      cases l with
      | nil => simpa using tail
      | cons y l => simpa [List.getLast?_cons] using tail

theorem Chain.next_eq {links : Links α} {x : α}
    (chain : Chain links before cursor (l ++ x :: rest))
    : links.next x = rest.head? :=
  chain.drop.2.2.head

theorem Chain.prev_eq {links : Links α} {x : α}
    (chain : Chain links before cursor (l ++ x :: rest))
    : links.prev x = l.getLast?.or before :=
  chain.drop.2.1

/-- Two chains put together. -/
theorem Chain.append {links : Links α}
    (front : ∀ l₁ x l₂, l = l₁ ++ x :: l₂
      → links.prev x = l₁.getLast?.or before ∧ links.next x = (l₂ ++ rest).head?)
    (back : Chain links (l.getLast?.or before) rest.head? rest)
    : Chain links before (l ++ rest).head? (l ++ rest) := by
  induction l generalizing before with
  | nil => simpa using back
  | cons x l ih =>
      obtain ⟨prevEq, nextEq⟩ := front [] x l rfl
      refine ⟨rfl, by simpa using prevEq, ?_⟩
      rw [nextEq]
      refine ih ?_ ?_
      · intro l₁ y l₂ split
        have shifted := front (x :: l₁) y l₂ (by simp [split])
        cases l₁ with
        | nil => simpa using shifted
        | cons z l₁ => simpa [List.getLast?_cons] using shifted
      · cases l with
        | nil => simpa using back
        | cons z l => simpa [List.getLast?_cons] using back

section Update

variable [DecidableEq α]

/-- Makes `x` the cell before the first one. -/
def Links.insert (links : Links α) (first : Option α) (x : α) : Links α where
  next := Function.update links.next x first
  prev :=
    match first with
    | some y => Function.update links.prev y (some x)
    | none => links.prev

/-- Joins the neighbours of `x`. The links of `x` itself are left. -/
def Links.remove (links : Links α) (x : α) : Links α where
  next :=
    match links.prev x with
    | some y => Function.update links.next y (links.next x)
    | none => links.next
  prev :=
    match links.next x with
    | some y => Function.update links.prev y (links.prev x)
    | none => links.prev

variable {links : Links α} {first : Option α} {x y : α}

theorem Links.insert_next_of_ne (other : y ≠ x)
    : (links.insert first x).next y = links.next y := by
  simp [Links.insert, other]

theorem Links.insert_prev_of_ne
    (other : first ≠ some y)
    : (links.insert first x).prev y = links.prev y := by
  cases first with
  | none => rfl
  | some z =>
      have differs : y ≠ z := fun same => other (by rw [same])
      simp [Links.insert, differs]

theorem Links.remove_next_of_ne (other : links.prev x ≠ some y)
    : (links.remove x).next y = links.next y := by
  cases before : links.prev x with
  | none => simp [Links.remove, before]
  | some z =>
      have differs : y ≠ z := fun same => other (by rw [before, same])
      simp [Links.remove, before, differs]

theorem Links.remove_prev_of_ne (other : links.next x ≠ some y)
    : (links.remove x).prev y = links.prev y := by
  cases after : links.next x with
  | none => simp [Links.remove, after]
  | some z =>
      have differs : y ≠ z := fun same => other (by rw [after, same])
      simp [Links.remove, after, differs]

theorem Chain.insert {l : List α}
    (chain : Chain links none first l) (distinct : l.Nodup) (absent : x ∉ l)
    (detached : links.prev x = none)
    : Chain (links.insert first x) none (some x) (x :: l) := by
  have notFirst : first ≠ some x := by
    rw [chain.head]
    intro isFirst
    exact absent (List.mem_of_mem_head? isFirst)
  refine ⟨rfl, by rwa [Links.insert_prev_of_ne notFirst], ?_⟩
  have nextEq : (links.insert first x).next x = first := by simp [Links.insert]
  rw [nextEq]
  cases l with
  | nil => exact chain
  | cons y l =>
      obtain ⟨isFirst, -, tail⟩ := chain
      have differs : y ≠ x := fun same => absent (by simp [same])
      refine ⟨isFirst, by simp [Links.insert, isFirst], ?_⟩
      rw [Links.insert_next_of_ne differs]
      refine tail.congr (fun z member => ⟨?_, ?_⟩)
      · exact Links.insert_next_of_ne (fun same => absent (by simp [← same, member]))
      · refine Links.insert_prev_of_ne ?_
        rw [isFirst]
        exact fun same => (List.nodup_cons.mp distinct).1 (Option.some.inj same ▸ member)

/-- A chain that shares no cell with the one that is extended. -/
theorem Chain.insert_other {before cursor : Option α} {l : List α}
    (chain : Chain links before cursor l) (absent : x ∉ l) (apart : ∀ y ∈ first, y ∉ l)
    : Chain (links.insert first x) before cursor l := by
  refine chain.congr (fun z member => ⟨?_, ?_⟩)
  · exact Links.insert_next_of_ne (fun same => absent (same ▸ member))
  · exact Links.insert_prev_of_ne (fun same => apart z same member)

theorem Chain.remove {l rest : List α}
    (chain : Chain links none first (l ++ x :: rest)) (distinct : (l ++ x :: rest).Nodup)
    : Chain (links.remove x) none (l ++ rest).head? (l ++ rest) := by
  have prevEq : links.prev x = l.getLast? := by simpa using chain.prev_eq
  have nextEq : links.next x = rest.head? := chain.next_eq
  obtain ⟨frontDistinct, backDistinct, apart⟩ := List.nodup_append.mp distinct
  have frontApart {y : α} (member : y ∈ l) : y ∉ rest := fun other =>
    apart y member y (by simp [other]) rfl
  refine Chain.append ?_ ?_
  · rintro l₁ y l₂ rfl
    have chainAt : Chain links none first (l₁ ++ y :: (l₂ ++ x :: rest)) := by
      simpa using chain
    constructor
    · rw [Links.remove_prev_of_ne, chainAt.prev_eq]
      rw [nextEq]
      exact fun same => frontApart (by simp) (List.mem_of_mem_head? same)
    · cases l₂ with
      | nil =>
          simp only [List.nil_append]
          simp [Links.remove, prevEq, nextEq]
      | cons z l₂ =>
          rw [Links.remove_next_of_ne, chainAt.next_eq]
          · simp
          · rw [prevEq]
            intro same
            -- `y` would be the last cell of the front as well.
            have last : y ∈ z :: l₂ := by
              rw [List.getLast?_append_of_ne_nil _ (by simp),
                List.getLast?_cons_cons] at same
              exact List.mem_of_mem_getLast? same
            have split := (List.nodup_append.mp frontDistinct).2.1
            exact (List.nodup_cons.mp split).1 last
  · have tail : Chain links (some x) rest.head? rest := by
      have whole := chain.drop.2.2
      rwa [nextEq] at whole
    cases rest with
    | nil => rfl
    | cons z rest =>
        obtain ⟨-, restDistinct⟩ := List.nodup_cons.mp backDistinct
        refine ⟨rfl, by simp [Links.remove, nextEq, prevEq], ?_⟩
        rw [Links.remove_next_of_ne]
        · refine tail.2.2.congr (fun w member => ⟨?_, ?_⟩)
          · refine Links.remove_next_of_ne ?_
            rw [prevEq]
            exact fun same => frontApart (List.mem_of_mem_getLast? same) (by simp [member])
          · refine Links.remove_prev_of_ne ?_
            rw [nextEq]
            intro same
            rw [List.head?_cons, Option.some.injEq] at same
            exact (List.nodup_cons.mp restDistinct).1 (same ▸ member)
        · rw [prevEq]
          exact fun same => frontApart (List.mem_of_mem_getLast? same) (by simp)

/-- A cursor on the removed cell still finds the next one. -/
theorem Chain.remove_next_self {l : List α}
    (chain : Chain links none first l) (distinct : l.Nodup) (member : x ∈ l)
    : (links.remove x).next x = links.next x := by
  obtain ⟨front, rest, rfl⟩ := List.append_of_mem member
  have prevEq : links.prev x = front.getLast? := by simpa using chain.prev_eq
  refine Links.remove_next_of_ne ?_
  rw [prevEq]
  intro last
  exact (List.nodup_append.mp distinct).2.2 x (List.mem_of_mem_getLast? last) x (by simp) rfl

/-- A chain that does not hold the neighbours of the removed cell. -/
theorem Chain.remove_other {before cursor : Option α} {l : List α}
    (chain : Chain links before cursor l)
    (apartPrev : ∀ y ∈ links.prev x, y ∉ l) (apartNext : ∀ y ∈ links.next x, y ∉ l)
    : Chain (links.remove x) before cursor l := by
  refine chain.congr (fun z member => ⟨?_, ?_⟩)
  · exact Links.remove_next_of_ne (fun same => apartPrev z same member)
  · exact Links.remove_prev_of_ne (fun same => apartNext z same member)

end Update

/-- `for (; i != end; ++i) body`: the cursor moves on after the body. Undefined when the fuel does
not reach to the end.
-/
def forEach (next : σ → α → Option α) (body : α → σ → Option σ) : Nat → Option α → σ → Option σ
  | _, none, s => some s
  | 0, some _, _ => none
  | fuel + 1, some x, s => (body x s).bind (fun s' => forEach next body fuel (next s' x) s')

/-- `while (i != end) { ++i; body }`: the cursor moves on before the body. -/
def whileEach (next : σ → α → Option α) (body : α → σ → Option σ) : Nat → Option α → σ → Option σ
  | _, none, s => some s
  | 0, some _, _ => none
  | fuel + 1, some x, s => (body x s).bind (whileEach next body fuel (next s x))

variable (next : σ → α → Option α) (body : α → σ → Option σ)

/-- A loop that moves on by one cell in each round, with an invariant of the cells passed and the cells ahead, by induction on
those ahead.
-/
theorem loop_of_invariant (loop : Nat → Option α → σ → Option σ) (done : ∀ fuel s, loop fuel none s = some s)
    (Inv : List α → List α → σ → Prop)
    (step : ∀ passed x ahead s, Inv passed (x :: ahead) s
      → ∃ s', (∀ fuel, loop (fuel + 1) (some x) s = loop fuel ahead.head? s') ∧ Inv (passed ++ [x]) ahead s')
    {fuel : Nat} {s : σ} (start : Inv [] l s) (enough : l.length ≤ fuel)
    : ∃ s', loop fuel l.head? s = some s' ∧ Inv l [] s' := by
  suffices general : ∀ (passed ahead : List α) (fuel : Nat) (s : σ), Inv passed ahead s
      → ahead.length ≤ fuel
      → ∃ s', loop fuel ahead.head? s = some s' ∧ Inv (passed ++ ahead) [] s' by
    simpa using general [] l fuel s start enough
  intro passed ahead
  induction ahead generalizing passed with
  | nil =>
      intro fuel s start _
      exact ⟨s, done fuel s, by simpa using start⟩
  | cons x ahead ih =>
      intro fuel s start enough
      cases fuel with
      | zero => simp at enough
      | succ fuel =>
          obtain ⟨s', ran, inv⟩ := step passed x ahead s start
          obtain ⟨last, rest, inv⟩ := ih _ fuel s' inv (by simpa using enough)
          exact ⟨last, (ran fuel).trans rest, by simpa using inv⟩

theorem forEach_of_invariant (Inv : List α → List α → σ → Prop)
    (step : ∀ passed x ahead s, Inv passed (x :: ahead) s
      → ∃ s', body x s = some s' ∧ next s' x = ahead.head? ∧ Inv (passed ++ [x]) ahead s')
    {fuel : Nat} {s : σ} (start : Inv [] l s) (enough : l.length ≤ fuel)
    : ∃ s', forEach next body fuel l.head? s = some s' ∧ Inv l [] s' := by
  refine loop_of_invariant _ (fun fuel _ => by cases fuel <;> rfl) Inv (fun passed x ahead s inv => ?_) start enough
  obtain ⟨s', ran, moved, inv⟩ := step passed x ahead s inv
  exact ⟨s', fun fuel => by rw [forEach, ran, Option.bind_some, moved], inv⟩

theorem whileEach_of_invariant (Inv : List α → List α → σ → Prop)
    (step : ∀ passed x ahead s, Inv passed (x :: ahead) s
      → next s x = ahead.head? ∧ ∃ s', body x s = some s' ∧ Inv (passed ++ [x]) ahead s')
    {fuel : Nat} {s : σ} (start : Inv [] l s) (enough : l.length ≤ fuel)
    : ∃ s', whileEach next body fuel l.head? s = some s' ∧ Inv l [] s' := by
  refine loop_of_invariant _ (fun fuel _ => by cases fuel <;> rfl) Inv (fun passed x ahead s inv => ?_) start enough
  obtain ⟨moved, s', ran, inv⟩ := step passed x ahead s inv
  exact ⟨s', fun fuel => by rw [whileEach, ran, Option.bind_some, moved], inv⟩

end Ava6.Library.LinkedList

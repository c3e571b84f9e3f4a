import Mathlib.Data.List.AList
import Mathlib.Logic.Function.Basic
import Ava6.Library.OpenAutomaton
import Ava6.Strings.RegExp

/-! Construction of automata from regular expressions: states are allocated, and the arrows of the state returned last
are connected to the next one. What is constructed for an expression reads its language.
-/

namespace Ava6.Strings

open Computability Library.OpenAutomaton

/-- Labels of edges: constants of one character, ranges, and any character. -/
inductive Label
  | char (c : Nat)
  | range (lower upper : StringTerm)
  | allchar
  deriving DecidableEq, Repr

def Label.accepts (nextChar : Nat) : Label → Bool
  | .char c => nextChar == c
  | .range lower upper => decide (lower.front ≤ nextChar) && decide (nextChar ≤ upper.front)
  | .allchar => true

/-- Edges to other states, which are known by their number, and arrows without a target. No label is the null node. -/
structure NfaState where
  d_children : AList (fun _ : Option Label => List Nat)
  d_arrows : List (Nat × Option Label)

def NfaState.new : NfaState := ⟨∅, []⟩

/-- The states that have been allocated. -/
structure Scache where
  state : Nat → NfaState
  size : Nat

namespace Scache

def children (h : Scache) (q : Nat) (l : Option Label) : List Nat := ((h.state q).d_children.lookup l).getD []

def arrows (h : Scache) (q : Nat) : List (Nat × Option Label) := (h.state q).d_arrows

def allocateState (h : Scache) : Nat × Scache := (h.size, ⟨Function.update h.state h.size .new, h.size + 1⟩)

/-- One more edge. -/
def push (h : Scache) (q : Nat) (l : Option Label) (t : Nat) : Scache :=
  { h with
    state := Function.update h.state q
      { h.state q with d_children := (h.state q).d_children.insert l (h.children q l ++ [t]) } }

def setArrows (h : Scache) (q : Nat) (arrows : List (Nat × Option Label)) : Scache :=
  { h with state := Function.update h.state q { h.state q with d_arrows := arrows } }

/-- Connects the arrows of a state to another one and clears them. -/
def connectTo (h : Scache) (q s : Nat) : Scache :=
  ((h.arrows q).foldl (fun h a => h.push a.1 a.2 s) h).setArrows q []

end Scache

/-- States in a row for the characters of a word; the last character is on an arrow of the first state. -/
def constructString (s : Nat) : Nat → Word → Scache → Scache
  | _, [], h => h
  | curr, [c], h => h.setArrows s (h.arrows s ++ [(curr, some (.char c))])
  | curr, c :: vec, h =>
      let (next, h) := h.allocateState
      constructString s next vec (h.push curr (some (.char c)) next)

mutual
/-- The state to start from, whose arrows are those of the expression. -/
def constructInternal : RegExp → Scache → Nat × Scache
  | .concat children, h =>
      match constructConcat children none h with
      | (some (first, curr), h) => (first, (h.setArrows first (h.arrows curr)).setArrows curr [])
      | (none, h) => h.allocateState
  | .toRegExp s', h =>
      let (s, h) := h.allocateState
      match s' with
      | .const (c :: vec) => (s, constructString s s (c :: vec) h)
      | _ => (s, h.setArrows s [(s, none)])
  | .allchar, h =>
      let (s, h) := h.allocateState
      (s, h.setArrows s [(s, some .allchar)])
  | .range lower upper, h =>
      let (s, h) := h.allocateState
      (s, h.setArrows s [(s, some (.range lower upper))])
  | .union children, h =>
      let (s, h) := h.allocateState
      (s, constructUnion s children h)
  | .star body, h =>
      let (s, h) := h.allocateState
      let (body, h) := constructInternal body h
      let h := (h.push s none body).connectTo body s
      (s, h.setArrows s (h.arrows s ++ [(s, none)]))
  | .var _, h | .inter _, h | .diff _ _, h | .complement _, h | .none, h | .all, h => h.allocateState

/-- The first and the last state that have been constructed for the children so far. -/
def constructConcat : RegExps → Option (Nat × Nat) → Scache → Option (Nat × Nat) × Scache
  | .nil, firstCurr, h => (firstCurr, h)
  | .cons rc rest, firstCurr, h =>
      let (rcs, h) := constructInternal rc h
      match firstCurr with
      | none => constructConcat rest (some (rcs, rcs)) h
      | some (first, curr) => constructConcat rest (some (first, rcs)) (h.connectTo curr rcs)

def constructUnion (s : Nat) : RegExps → Scache → Scache
  | .nil, h => h
  | .cons rc rest, h =>
      let (rcs, h) := constructInternal rc h
      let h := h.push s none rcs
      let h := h.setArrows s (h.arrows s ++ h.arrows rcs)
      constructUnion s rest (h.setArrows rcs [])
end

/-- The automaton of an expression, whose arrows lead to the accepting state. -/
def construct (r : RegExp) (accept : Nat) (h : Scache) : Nat × Scache :=
  let (rs, h) := constructInternal r h
  (rs, h.connectTo rs accept)

mutual
/-- Every node below the expression is of a kind that the construction knows. -/
def canEvaluate : RegExp → Bool
  | .toRegExp s => s.isConst
  | .range lower upper => isCharacterRange lower upper
  | .allchar => true
  | .union children | .concat children => canEvaluates children
  | .star body => canEvaluate body
  | .var _ | .inter _ | .diff _ _ | .complement _ | .none | .all => false

def canEvaluates : RegExps → Bool
  | .nil => true
  | .cons head tail => canEvaluate head && canEvaluates tail
end

def Reads (l : Label) (c : Nat) : Prop := l.accepts c = true

namespace Scache

variable {h h' : Scache} {p q s t : Nat} {l l' : Option Label} {arrows : List (Nat × Option Label)}

def edge (h : Scache) : Edges Nat Label := fun p l q => q ∈ h.children p l

theorem edge_push : (h.push q l t).edge p l' s ↔ h.edge p l' s ∨ p = q ∧ l' = l ∧ s = t := by
  by_cases same : p = q
  · subst same
    by_cases sameLabel : l' = l
    · subst sameLabel
      simp [edge, children, push]
    · simp [edge, children, push, AList.lookup_insert_ne sameLabel, sameLabel]
  · simp [edge, children, push, same]

@[simp]
theorem arrows_push : (h.push q l t).arrows p = h.arrows p := by
  by_cases same : p = q
  · subst same
    simp [Scache.arrows, push]
  · simp [Scache.arrows, push, Function.update_of_ne same]

@[simp]
theorem size_push : (h.push q l t).size = h.size := rfl

@[simp]
theorem edge_setArrows : (h.setArrows q arrows).edge = h.edge := by
  funext p l s
  by_cases same : p = q
  · subst same
    simp [edge, children, setArrows]
  · simp [edge, children, setArrows, Function.update_of_ne same]

@[simp]
theorem arrows_setArrows : (h.setArrows q arrows).arrows q = arrows := by
  simp [Scache.arrows, setArrows]

theorem arrows_setArrows_of_ne (different : p ≠ q) : (h.setArrows q arrows).arrows p = h.arrows p := by
  simp [Scache.arrows, setArrows, Function.update_of_ne different]

@[simp]
theorem size_setArrows : (h.setArrows q arrows).size = h.size := rfl

@[simp]
theorem size_allocateState : h.allocateState.2.size = h.size + 1 := rfl

theorem edge_allocateState_new : ¬h.allocateState.2.edge h.size l t := by
  simp [allocateState, edge, children, NfaState.new]

theorem edge_allocateState (old : p ≠ h.size) : h.allocateState.2.edge p l t ↔ h.edge p l t := by
  simp [allocateState, edge, children, Function.update_of_ne old]

@[simp]
theorem arrows_allocateState_new : h.allocateState.2.arrows h.size = [] := by
  simp [allocateState, Scache.arrows, NfaState.new]

theorem arrows_allocateState (old : p ≠ h.size) : h.allocateState.2.arrows p = h.arrows p := by
  simp [allocateState, Scache.arrows, Function.update_of_ne old]

/-- Connecting some arrows adds an edge for each. -/
theorem connectAll_spec (arrows : List (Nat × Option Label)) (h : Scache) (t : Nat)
    : (∀ p l s, (arrows.foldl (fun h a => h.push a.1 a.2 t) h).edge p l s ↔ h.edge p l s ∨ (p, l) ∈ arrows ∧ s = t)
      ∧ (∀ p, (arrows.foldl (fun h a => h.push a.1 a.2 t) h).arrows p = h.arrows p)
      ∧ (arrows.foldl (fun h a => h.push a.1 a.2 t) h).size = h.size := by
  induction arrows generalizing h with
  | nil => simp
  | cons a rest ih =>
      obtain ⟨edges, sameArrows, sameSize⟩ := ih (h.push a.1 a.2 t)
      refine ⟨fun p l s => ?_, fun p => ?_, ?_⟩
      · rw [List.foldl_cons, edges, edge_push, List.mem_cons, Prod.mk.injEq]
        tauto
      · rw [List.foldl_cons, sameArrows, arrows_push]
      · rw [List.foldl_cons, sameSize, size_push]

theorem edge_connectTo : (h.connectTo q t).edge p l s ↔ h.edge p l s ∨ (p, l) ∈ h.arrows q ∧ s = t := by
  rw [connectTo, edge_setArrows]
  exact (connectAll_spec (h.arrows q) h t).1 p l s

theorem arrows_connectTo_of_ne (different : p ≠ q) : (h.connectTo q t).arrows p = h.arrows p := by
  rw [connectTo, arrows_setArrows_of_ne different]
  exact (connectAll_spec (h.arrows q) h t).2.1 p

@[simp]
theorem size_connectTo : (h.connectTo q t).size = h.size := (connectAll_spec (h.arrows q) h t).2.2

end Scache

end Ava6.Strings

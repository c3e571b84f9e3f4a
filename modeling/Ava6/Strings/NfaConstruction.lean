import Ava6.Strings.NfaState

/-! What is constructed for an expression is a fragment of new states that reads the language of the expression.
-/

namespace Ava6.Strings

open Computability Library.OpenAutomaton

variable {h h₀ h' : Scache} {I : Interpretation}

-- Fragments of new states

/-- States are only added, and the old ones keep their edges and arrows. -/
structure Scache.Extends (h₀ h : Scache) : Prop where
  grows : h₀.size ≤ h.size
  edges : ∀ p < h₀.size, ∀ l q, h.edge p l q ↔ h₀.edge p l q
  arrows : ∀ p < h₀.size, h.arrows p = h₀.arrows p

theorem Scache.Extends.trans (first : h₀.Extends h) (second : h.Extends h') : h₀.Extends h' where
  grows := first.grows.trans second.grows
  edges p old l q := (second.edges p (Nat.lt_of_lt_of_le old first.grows) l q).trans (first.edges p old l q)
  arrows p old := (second.arrows p (Nat.lt_of_lt_of_le old first.grows)).trans (first.arrows p old)

theorem Scache.extends_allocateState (h : Scache) : h.Extends h.allocateState.2 where
  grows := Nat.le_succ _
  edges _ old _ _ := edge_allocateState (Nat.ne_of_lt old)
  arrows _ old := arrows_allocateState (Nat.ne_of_lt old)

/-- The states allocated between two moments. -/
def between (h₀ h : Scache) (entry : Nat) (arrows : List (Nat × Option Label)) : Fragment Nat Label :=
  ⟨{p | h₀.size ≤ p ∧ p < h.size}, entry, arrows⟩

/-- The new states are a fragment that reads a language. -/
structure Built (h₀ h : Scache) (entry : Nat) (arrows : List (Nat × Option Label)) (L : Language Nat) : Prop where
  ext : h₀.Extends h
  closed : (between h₀ h entry arrows).Closed h.edge
  language : (between h₀ h entry arrows).language Reads h.edge = L

/-- What is read on one edge. -/
def consumed (l : Option Label) : Language Nat := {w | Consumes Reads l w}

/-- A state without edges is left over its arrow at once. -/
theorem language_of_leaf {F : Fragment Nat Label} {edge : Edges Nat Label} {l : Option Label}
    (noEdges : ∀ l q, ¬edge F.entry l q) (onlyArrow : F.arrows = [(F.entry, l)])
    : F.language Reads edge = consumed l := by
  ext w
  constructor
  · rintro ⟨a, isArrow, u, v, path, consumes, rfl⟩
    rw [onlyArrow] at isArrow
    rw [List.mem_singleton.mp isArrow] at path consumes
    have isNil : u = [] := by
      generalize F.entry = p at path noEdges
      cases path with
      | nil => rfl
      | step isEdge => exact absurd isEdge (noEdges _ _)
    rw [isNil]
    exact consumes
  · intro consumes
    exact leaving_arrow (by rw [onlyArrow]; exact List.mem_singleton_self _) consumes

theorem consumes_char {c : Nat} {w : Word} : Consumes Reads (some (.char c)) w ↔ w = [c] := by
  constructor
  · rintro ⟨a, rfl, isRead⟩
    rw [beq_iff_eq.mp isRead]
  · rintro rfl
    exact ⟨c, rfl, beq_self_eq_true c⟩

theorem consumed_char (c : Nat) : consumed (some (.char c)) = {[c]} := by
  ext w
  exact consumes_char

theorem built_leaf (h : Scache) (l : Option Label)
    : Built h (h.allocateState.2.setArrows h.size [(h.size, l)]) h.size [(h.size, l)] (consumed l) where
  ext :=
    { grows := Nat.le_succ _
      edges := fun p old l q => by
        rw [Scache.edge_setArrows]
        exact Scache.edge_allocateState (Nat.ne_of_lt old)
      arrows := fun p old => by
        rw [Scache.arrows_setArrows_of_ne (Nat.ne_of_lt old), Scache.arrows_allocateState (Nat.ne_of_lt old)] }
  closed :=
    { entry_mem := ⟨Nat.le_refl _, Nat.lt_succ_self _⟩
      arrow_mem := fun a isArrow => by
        rw [List.mem_singleton.mp isArrow]
        exact ⟨Nat.le_refl _, Nat.lt_succ_self _⟩
      edge_mem := fun {p l q} inside isEdge => by
        have isNew : p = h.size := Nat.le_antisymm (Nat.lt_succ_iff.mp inside.2) inside.1
        rw [isNew, Scache.edge_setArrows] at isEdge
        exact absurd isEdge Scache.edge_allocateState_new }
  language := by
    refine language_of_leaf (fun l q => ?_) rfl
    rw [Scache.edge_setArrows]
    exact Scache.edge_allocateState_new

-- Words

/-- The states from the current one on read the characters in a row, and the last arrow is with the first state. -/
structure StringBuilt (s curr : Nat) (vec : Word) (h h' : Scache) (last : Nat × Option Label) : Prop where
  grows : h.size ≤ h'.size
  edges : ∀ p < h.size, p ≠ curr → ∀ l q, h'.edge p l q ↔ h.edge p l q
  arrows : ∀ p < h.size, p ≠ s → h'.arrows p = h.arrows p
  firstArrows : h'.arrows s = h.arrows s ++ [last]
  closed : (⟨{p | p = curr ∨ h.size ≤ p ∧ p < h'.size}, curr, [last]⟩ : Fragment Nat Label).Closed h'.edge
  language : (⟨{p | p = curr ∨ h.size ≤ p ∧ p < h'.size}, curr, [last]⟩ : Fragment Nat Label).language Reads h'.edge = {vec}

theorem stringBuilt_singleton {s curr c : Nat} (noEdges : ∀ l q, ¬h.edge curr l q)
    : StringBuilt s curr [c] h (constructString s curr [c] h) (curr, some (.char c)) where
  grows := Nat.le_refl _
  edges p _ _ l q := by rw [constructString, Scache.edge_setArrows]
  arrows p _ different := by rw [constructString, Scache.arrows_setArrows_of_ne different]
  firstArrows := by rw [constructString, Scache.arrows_setArrows]
  closed :=
    { entry_mem := Or.inl rfl
      arrow_mem := fun a isArrow => by
        rw [List.mem_singleton.mp isArrow]
        exact Or.inl rfl
      edge_mem := fun {p l q} inside isEdge => by
        rw [constructString, Scache.edge_setArrows] at isEdge
        rcases inside with rfl | ⟨above, below⟩
        · exact absurd isEdge (noEdges _ _)
        · exact absurd below (Nat.not_lt.mpr above) }
  language := by
    rw [language_of_leaf (l := some (.char c)) (fun l q => by rw [constructString, Scache.edge_setArrows]; exact noEdges l q)
      rfl, consumed_char]

/-- One character before a row of states. -/
theorem stringBuilt_cons {s curr next c : Nat} {vec : Word} {last : Nat × Option Label} {h' : Scache}
    (isNext : next = h.size) (below : curr < h.size) (firstBelow : s < h.size) (noEdges : ∀ l q, ¬h.edge curr l q)
    (built : StringBuilt s next vec (h.allocateState.2.push curr (some (.char c)) next) h' last)
    : StringBuilt s curr (c :: vec) h h' last := by
  subst isNext
  have grows : h.size + 1 ≤ h'.size := built.grows
  have currEdges (l : Option Label) (q : Nat) : h'.edge curr l q ↔ (curr, l) = (curr, some (.char c)) ∧ q = h.size := by
    rw [built.edges curr (Nat.lt_succ_of_lt below) (Nat.ne_of_lt below), Scache.edge_push,
      Scache.edge_allocateState (Nat.ne_of_lt below), Prod.mk.injEq]
    exact ⟨fun isEdge => ⟨⟨rfl, (isEdge.resolve_left (noEdges l q)).2.1⟩, (isEdge.resolve_left (noEdges l q)).2.2⟩,
      fun isEdge => Or.inr ⟨rfl, isEdge.1.2, isEdge.2⟩⟩
  -- The same edges without those of the current state, from which the new edge is an arrow.
  let edge : Edges Nat Label := fun p l q => h'.edge p l q ∧ p ≠ curr
  let F : Fragment Nat Label := ⟨{curr}, curr, [(curr, some (.char c))]⟩
  let G : Fragment Nat Label := ⟨{p | p = h.size ∨ h.size + 1 ≤ p ∧ p < h'.size}, h.size, [last]⟩
  have notInG {p : Nat} (inG : p ∈ G.states) : p ≠ curr := by
    rcases inG with rfl | ⟨above, -⟩ <;> omega
  have agree : ∀ p ∈ G.states, ∀ l q, h'.edge p l q ↔ edge p l q :=
    fun p inG l q => ⟨fun isEdge => ⟨isEdge, notInG inG⟩, And.left⟩
  have closedG : G.Closed edge := built.closed.of_agree (fun p inG l q => (agree p inG l q).symm)
  have closedF : F.Closed edge :=
    ⟨rfl, fun a isArrow => by rw [List.mem_singleton.mp isArrow]; rfl, fun inF isEdge => absurd inF isEdge.2⟩
  have tied : F.TiedTo edge h'.edge G.entry := by
    intro p isCurr l q
    rw [show p = curr from isCurr, currEdges, List.mem_singleton]
    exact ⟨Or.inr, fun cases => cases.resolve_left (fun isEdge => isEdge.2 rfl)⟩
  have disjoint : ∀ p ∈ F.states, p ∉ G.states := by
    intro p isCurr inG
    exact notInG inG isCurr
  have states : (F.seq G).states = {p | p = curr ∨ h.size ≤ p ∧ p < h'.size} := by
    ext p
    change p = curr ∨ (p = h.size ∨ h.size + 1 ≤ p ∧ p < h'.size) ↔ p = curr ∨ h.size ≤ p ∧ p < h'.size
    omega
  have isSeq : (⟨{p | p = curr ∨ h.size ≤ p ∧ p < h'.size}, curr, [last]⟩ : Fragment Nat Label) = F.seq G := by
    rw [← states]
    rfl
  refine ⟨by omega, fun p old different l q => ?_, fun p old different => ?_, ?_, ?_, ?_⟩
  · rw [built.edges p (Nat.lt_succ_of_lt old) (Nat.ne_of_lt old), Scache.edge_push,
      Scache.edge_allocateState (Nat.ne_of_lt old)]
    exact or_iff_left (fun isEdge => different isEdge.1)
  · rw [built.arrows p (Nat.lt_succ_of_lt old) different, Scache.arrows_push,
      Scache.arrows_allocateState (Nat.ne_of_lt old)]
  · rw [built.firstArrows, Scache.arrows_push, Scache.arrows_allocateState (Nat.ne_of_lt firstBelow)]
  · rw [isSeq]
    exact closedF.seq closedG tied agree
  · rw [isSeq, language_seq closedF closedG disjoint tied agree,
      language_of_leaf (l := some (.char c)) (fun l q isEdge => isEdge.2 rfl) rfl, consumed_char,
      ← closedG.language_congr agree]
    have isVec : G.language Reads h'.edge = {vec} := built.language
    rw [isVec]
    ext w
    rw [Language.mem_mul]
    constructor
    · rintro ⟨_, rfl, _, rfl, rfl⟩
      rfl
    · rintro rfl
      exact ⟨[c], rfl, vec, rfl, rfl⟩

theorem exists_stringBuilt {s curr c : Nat} (vec : Word) (below : curr < h.size) (firstBelow : s < h.size)
    (noEdges : ∀ l q, ¬h.edge curr l q)
    : ∃ last, StringBuilt s curr (c :: vec) h (constructString s curr (c :: vec) h) last := by
  induction vec generalizing curr c h with
  | nil => exact ⟨_, stringBuilt_singleton noEdges⟩
  | cons c' vec ih =>
      rw [constructString]
      · have newNoEdges : ∀ l q, ¬(h.allocateState.2.push curr (some (.char c)) h.size).edge h.size l q := by
          intro l q isEdge
          rcases Scache.edge_push.mp isEdge with old | ⟨same, -⟩
          · exact Scache.edge_allocateState_new old
          · omega
        obtain ⟨last, built⟩ := @ih (h.allocateState.2.push curr (some (.char c)) h.size) h.size c'
          (Nat.lt_succ_self _) (Nat.lt_succ_of_lt firstBelow) newNoEdges
        exact ⟨last, stringBuilt_cons rfl below firstBelow noEdges built⟩
      · simp

theorem built_string (h : Scache) (c : Nat) (vec : Word)
    : Built h (constructString h.size h.size (c :: vec) h.allocateState.2) h.size
        ((constructString h.size h.size (c :: vec) h.allocateState.2).arrows h.size) {c :: vec} := by
  obtain ⟨last, built⟩ := @exists_stringBuilt h.allocateState.2 h.size h.size c vec (Nat.lt_succ_self _)
    (Nat.lt_succ_self _) (fun _ _ => Scache.edge_allocateState_new)
  have grows : h.size + 1 ≤ _ := built.grows
  have onlyArrow := built.firstArrows
  rw [Scache.arrows_allocateState_new, List.nil_append] at onlyArrow
  have states : {p | p = h.size ∨ h.size + 1 ≤ p ∧ p < (constructString h.size h.size (c :: vec) h.allocateState.2).size}
      = {p | h.size ≤ p ∧ p < (constructString h.size h.size (c :: vec) h.allocateState.2).size} := by
    ext p
    change p = h.size ∨ h.size + 1 ≤ p ∧ p < _ ↔ h.size ≤ p ∧ p < _
    omega
  have closed := built.closed
  have language := built.language
  rw [Scache.size_allocateState, states] at closed language
  rw [onlyArrow]
  refine ⟨⟨by omega, fun p old l q => ?_, fun p old => ?_⟩, closed, language⟩
  · rw [built.edges p (Nat.lt_succ_of_lt old) (Nat.ne_of_lt old), Scache.edge_allocateState (Nat.ne_of_lt old)]
  · rw [built.arrows p (Nat.lt_succ_of_lt old) (Nat.ne_of_lt old), Scache.arrows_allocateState (Nat.ne_of_lt old)]

-- Operators

section Operators

variable {L L' : Language Nat} {first curr rcs s body : Nat} {arrows : List (Nat × Option Label)} {h₁ : Scache}

theorem between_seq {entry entry' : Nat} {arrows' : List (Nat × Option Label)} (first : h₀.size ≤ h.size)
    (second : h.size ≤ h₁.size)
    : (between h₀ h entry arrows).seq (between h h₁ entry' arrows') = between h₀ h₁ entry arrows' := by
  have states : (between h₀ h entry arrows).states ∪ (between h h₁ entry' arrows').states
      = (between h₀ h₁ entry arrows').states := by
    ext p
    change h₀.size ≤ p ∧ p < h.size ∨ h.size ≤ p ∧ p < h₁.size ↔ h₀.size ≤ p ∧ p < h₁.size
    omega
  rw [Fragment.seq, states]
  rfl

/-- The next child of a concatenation, to which the arrows of the last one are connected. -/
theorem Built.seq (built : Built h₀ h first (h.arrows curr) L) (isNew : h₀.size ≤ curr ∧ curr < h.size)
    (next : Built h h₁ rcs (h₁.arrows rcs) L')
    : Built h₀ (h₁.connectTo curr rcs) first ((h₁.connectTo curr rcs).arrows rcs) (L * L') := by
  have nextNew : h.size ≤ rcs := next.closed.entry_mem.1
  have sameArrows := next.ext.arrows curr isNew.2
  have agreeOld : ∀ p ∈ (between h₀ h first (h.arrows curr)).states, ∀ l q, h₁.edge p l q ↔ h.edge p l q :=
    fun p inside => next.ext.edges p inside.2
  have closed := built.closed.of_agree agreeOld
  have tied : (between h₀ h first (h.arrows curr)).TiedTo h₁.edge (h₁.connectTo curr rcs).edge rcs := by
    intro p _ l q
    rw [Scache.edge_connectTo, sameArrows]
    rfl
  have agree : ∀ p ∈ (between h h₁ rcs (h₁.arrows rcs)).states, ∀ l q,
      (h₁.connectTo curr rcs).edge p l q ↔ h₁.edge p l q := by
    intro p inside l q
    rw [Scache.edge_connectTo, sameArrows]
    exact or_iff_left (fun isArrow => Nat.not_lt.mpr inside.1 (built.closed.arrow_mem _ isArrow.1).2)
  have disjoint : ∀ p ∈ (between h₀ h first (h.arrows curr)).states, p ∉ (between h h₁ rcs (h₁.arrows rcs)).states :=
    fun p old new => Nat.not_lt.mpr new.1 old.2
  have isSeq := @between_seq h h₀ (h.arrows curr) h₁ first rcs (h₁.arrows rcs) built.ext.grows next.ext.grows
  have sameSize : between h₀ (h₁.connectTo curr rcs) first (h₁.arrows rcs) = between h₀ h₁ first (h₁.arrows rcs) := by
    rw [between, Scache.size_connectTo]
    rfl
  rw [Scache.arrows_connectTo_of_ne (show rcs ≠ curr by omega)]
  refine ⟨⟨?_, fun p old l q => ?_, fun p old => ?_⟩, ?_, ?_⟩
  · rw [Scache.size_connectTo]
    exact built.ext.grows.trans next.ext.grows
  · rw [Scache.edge_connectTo, sameArrows, (built.ext.trans next.ext).edges p old]
    exact or_iff_left (fun isArrow => Nat.not_lt.mpr (built.closed.arrow_mem _ isArrow.1).1 old)
  · rw [Scache.arrows_connectTo_of_ne (by omega), (built.ext.trans next.ext).arrows p old]
  · rw [sameSize, ← isSeq]
    exact closed.seq next.closed tied agree
  · rw [sameSize, ← isSeq, language_seq closed next.closed disjoint tied agree, next.language,
      built.closed.language_congr agreeOld, built.language]

/-- The arrows of the last child become those of the first. -/
theorem Built.copyArrows (built : Built h₀ h first (h.arrows curr) L) (isNew : h₀.size ≤ curr)
    (different : first ≠ curr)
    : Built h₀ ((h.setArrows first (h.arrows curr)).setArrows curr []) first
        (((h.setArrows first (h.arrows curr)).setArrows curr []).arrows first) L := by
  have firstNew := built.closed.entry_mem.1
  rw [Scache.arrows_setArrows_of_ne different, Scache.arrows_setArrows]
  refine ⟨⟨built.ext.grows, fun p old l q => ?_, fun p old => ?_⟩, ?_, ?_⟩
  · rw [Scache.edge_setArrows, Scache.edge_setArrows]
    exact built.ext.edges p old l q
  · have notFirst : p ≠ first := Nat.ne_of_lt (Nat.lt_of_lt_of_le old firstNew)
    rw [Scache.arrows_setArrows_of_ne (by omega), Scache.arrows_setArrows_of_ne notFirst]
    exact built.ext.arrows p old
  · rw [Scache.edge_setArrows, Scache.edge_setArrows]
    exact built.closed
  · rw [Scache.edge_setArrows, Scache.edge_setArrows]
    exact built.language

/-- A new state loops over the body. -/
theorem Built.loop (built : Built h.allocateState.2 h₁ body (h₁.arrows body) L)
    {h₂ : Scache} (connected : h₂ = (h₁.push h.size none body).connectTo body h.size)
    : Built h (h₂.setArrows h.size (h₂.arrows h.size ++ [(h.size, none)])) h.size
        ((h₂.setArrows h.size (h₂.arrows h.size ++ [(h.size, none)])).arrows h.size) L∗ := by
  have bodyNew : h.size + 1 ≤ body := built.closed.entry_mem.1
  have grows : h.size + 1 ≤ h₁.size := built.ext.grows
  have sameArrows : (h₁.push h.size none body).arrows body = h₁.arrows body := Scache.arrows_push
  have edges (p : Nat) (l : Option Label) (q : Nat) : h₂.edge p l q
      ↔ (h₁.edge p l q ∨ p = h.size ∧ l = none ∧ q = body) ∨ (p, l) ∈ h₁.arrows body ∧ q = h.size := by
    rw [connected, Scache.edge_connectTo, sameArrows, Scache.edge_push]
  have arrowNew {p : Nat} {l : Option Label} (isArrow : (p, l) ∈ h₁.arrows body) : h.size + 1 ≤ p :=
    (built.closed.arrow_mem _ isArrow).1
  have noArrows : h₂.arrows h.size = [] := by
    rw [connected, Scache.arrows_connectTo_of_ne (by omega), Scache.arrows_push,
      built.ext.arrows _ (Nat.lt_succ_self _), Scache.arrows_allocateState_new]
  have size : h₂.size = h₁.size := by rw [connected, Scache.size_connectTo, Scache.size_push]
  let F := between h.allocateState.2 h₁ body (h₁.arrows body)
  have tied : F.TiedTo h₁.edge h₂.edge h.size := by
    intro p inside l q
    have isNew : h.size + 1 ≤ p := inside.1
    rw [edges, or_iff_left (show ¬(p = h.size ∧ l = none ∧ q = body) by omega)]
    rfl
  have enters : ∀ l q, h₂.edge h.size l q ↔ l = none ∧ q = F.entry := by
    intro l q
    have noEdge : ¬h₁.edge h.size l q := fun isEdge =>
      Scache.edge_allocateState_new ((built.ext.edges _ (Nat.lt_succ_self _) l q).mp isEdge)
    rw [edges, or_iff_left (fun isArrow => by have := arrowNew isArrow.1; omega), or_iff_right noEdge]
    exact and_iff_right rfl
  have new : h.size ∉ F.states := fun inside => Nat.not_lt.mpr inside.1 (Nat.lt_succ_self _)
  have isLoop : F.loop h.size = between h h₂ h.size [(h.size, none)] := by
    have states : insert h.size F.states = {p | h.size ≤ p ∧ p < h₂.size} := by
      ext p
      change p = h.size ∨ h.size + 1 ≤ p ∧ p < h₁.size ↔ h.size ≤ p ∧ p < h₂.size
      omega
    rw [Fragment.loop, states]
    rfl
  rw [noArrows, List.nil_append, Scache.arrows_setArrows]
  refine ⟨⟨?_, fun p old l q => ?_, fun p old => ?_⟩, ?_, ?_⟩
  · rw [Scache.size_setArrows, size]
    omega
  · rw [Scache.edge_setArrows, edges, or_iff_left (fun isArrow => by have := arrowNew isArrow.1; omega),
      or_iff_left (fun isEdge => by omega), built.ext.edges p (Nat.lt_succ_of_lt old),
      Scache.edge_allocateState (Nat.ne_of_lt old)]
  · rw [Scache.arrows_setArrows_of_ne (by omega), connected, Scache.arrows_connectTo_of_ne (by omega),
      Scache.arrows_push, built.ext.arrows p (Nat.lt_succ_of_lt old), Scache.arrows_allocateState (Nat.ne_of_lt old)]
  · rw [Scache.edge_setArrows]
    exact isLoop ▸ built.closed.loop tied enters
  · rw [Scache.edge_setArrows, ← built.language, ← language_loop built.closed new tied enters]
    exact congrArg (fun F => F.language Reads h₂.edge) isLoop.symm

/-- A new state from which the children so far can be chosen. -/
structure ChoiceBuilt (h₀ h : Scache) (L : Language Nat) : Prop where
  ext : h₀.Extends h
  choice : (between h₀ h h₀.size (h.arrows h₀.size)).Choice h.edge
  language : (between h₀ h h₀.size (h.arrows h₀.size)).language Reads h.edge = L

theorem choiceBuilt_nil (h : Scache) : ChoiceBuilt h h.allocateState.2 0 where
  ext := h.extends_allocateState
  choice :=
    { entry_mem := ⟨Nat.le_refl _, Nat.lt_succ_self _⟩
      arrow_mem := fun a isArrow => by
        rw [between, Scache.arrows_allocateState_new] at isArrow
        cases isArrow
      edge_mem := fun {p l q} inside isEdge => by
        have isNew : p = h.size := Nat.le_antisymm (Nat.lt_succ_iff.mp inside.2) inside.1
        rw [isNew] at isEdge
        exact absurd isEdge Scache.edge_allocateState_new }
  language := by
    ext w
    refine iff_of_false (fun member => ?_) (Language.notMem_zero w)
    obtain ⟨a, isArrow, -⟩ := member
    rw [between, Scache.arrows_allocateState_new] at isArrow
    cases isArrow

/-- One more child. -/
theorem ChoiceBuilt.add (built : ChoiceBuilt h₀ h L) (next : Built h h₁ rcs (h₁.arrows rcs) L')
    {h₂ h₃ : Scache} (pushed : h₂ = h₁.push h₀.size none rcs)
    (moved : h₃ = (h₂.setArrows h₀.size (h₂.arrows h₀.size ++ h₂.arrows rcs)).setArrows rcs [])
    : ChoiceBuilt h₀ h₃ (L + L') := by
  have isNew : h₀.size < h.size := built.choice.entry_mem.2
  have nextNew : h.size ≤ rcs := next.closed.entry_mem.1
  have grows := next.ext.grows
  have edges (p : Nat) (l : Option Label) (q : Nat) : h₃.edge p l q
      ↔ h₁.edge p l q ∨ p = h₀.size ∧ l = none ∧ q = rcs := by
    rw [moved, Scache.edge_setArrows, Scache.edge_setArrows, pushed, Scache.edge_push]
  have size : h₃.size = h₁.size := by rw [moved, pushed, Scache.size_setArrows, Scache.size_setArrows, Scache.size_push]
  have allArrows : h₃.arrows h₀.size = h.arrows h₀.size ++ h₁.arrows rcs := by
    rw [moved, Scache.arrows_setArrows_of_ne (by omega), Scache.arrows_setArrows, pushed, Scache.arrows_push,
      Scache.arrows_push, next.ext.arrows _ isNew]
  let F := between h₀ h h₀.size (h.arrows h₀.size)
  let G := between h h₁ rcs (h₁.arrows rcs)
  have agreeOld : ∀ p ∈ F.states, ∀ l q, h₁.edge p l q ↔ h.edge p l q := fun p inside => next.ext.edges p inside.2
  have choice : F.Choice h₁.edge :=
    ⟨built.choice.entry_mem, built.choice.arrow_mem,
      fun {p l q} inside isEdge => built.choice.edge_mem inside ((agreeOld p inside l q).mp isEdge)⟩
  have disjoint : ∀ p ∈ F.states, p ∉ G.states := fun p old new => Nat.not_lt.mpr new.1 old.2
  have entryEdges : ∀ l q, h₃.edge F.entry l q ↔ h₁.edge F.entry l q ∨ l = none ∧ q = G.entry := by
    intro l q
    rw [edges]
    exact or_congr_right (and_iff_right rfl)
  have agree : ∀ p ∈ F.states ∪ G.states, p ≠ F.entry → ∀ l q, h₃.edge p l q ↔ h₁.edge p l q := by
    intro p _ different l q
    rw [edges]
    exact or_iff_left (fun isEdge => different isEdge.1)
  have isAdd : F.add G = between h₀ h₃ h₀.size (h₃.arrows h₀.size) := by
    have states : F.states ∪ G.states = {p | h₀.size ≤ p ∧ p < h₃.size} := by
      ext p
      change h₀.size ≤ p ∧ p < h.size ∨ h.size ≤ p ∧ p < h₁.size ↔ h₀.size ≤ p ∧ p < h₃.size
      omega
    rw [Fragment.add, states, between, allArrows]
    rfl
  refine ⟨⟨by omega, fun p old l q => ?_, fun p old => ?_⟩, ?_, ?_⟩
  · rw [edges, or_iff_left (fun isEdge => by omega), (built.ext.trans next.ext).edges p old]
  · rw [moved, Scache.arrows_setArrows_of_ne (by omega), Scache.arrows_setArrows_of_ne (by omega), pushed,
      Scache.arrows_push, (built.ext.trans next.ext).arrows p old]
  · exact isAdd ▸ choice.add next.closed disjoint entryEdges agree
  · rw [← built.language, ← next.language, ← isAdd, language_add choice next.closed disjoint entryEdges agree,
      built.choice.closed.language_congr agreeOld]

end Operators

-- Expressions

theorem consumed_allchar : consumed (some .allchar) = RegExp.allchar.language I := by
  ext w
  rw [mem_allchar, List.length_eq_one_iff]
  exact ⟨fun ⟨c, isChar, _⟩ => ⟨c, isChar⟩, fun ⟨c, isChar⟩ => ⟨c, isChar, rfl⟩⟩

theorem consumed_range {lower upper : StringTerm} (isRange : isCharacterRange lower upper = true)
    : consumed (some (.range lower upper)) = (RegExp.range lower upper).language I := by
  unfold isCharacterRange at isRange
  split at isRange
  · next a b =>
      ext w
      rw [mem_characterRange]
      have accepts_iff (c : Nat) : Reads (.range (.const [a]) (.const [b])) c ↔ a ≤ c ∧ c ≤ b := by
        rw [Reads, Label.accepts, Bool.and_eq_true, decide_eq_true_eq, decide_eq_true_eq]
        rfl
      exact ⟨fun ⟨c, isChar, isRead⟩ => ⟨c, isChar, (accepts_iff c).mp isRead⟩,
        fun ⟨c, isChar, inRange⟩ => ⟨c, isChar, (accepts_iff c).mpr inRange⟩⟩
  · cases isRange

theorem built_constructString (h : Scache) (w : Word)
    : Built h (constructInternal (.toRegExp (.const w)) h).2 (constructInternal (.toRegExp (.const w)) h).1
        ((constructInternal (.toRegExp (.const w)) h).2.arrows (constructInternal (.toRegExp (.const w)) h).1) {w} := by
  match w with
  | [] =>
      have built := built_leaf h none
      rw [show constructInternal (.toRegExp (.const [])) h
        = (h.size, h.allocateState.2.setArrows h.size [(h.size, none)]) by rw [constructInternal]; rfl,
        Scache.arrows_setArrows]
      exact built
  | c :: vec =>
      rw [show constructInternal (.toRegExp (.const (c :: vec))) h
        = (h.size, constructString h.size h.size (c :: vec) h.allocateState.2) by rw [constructInternal]; rfl]
      exact built_string h c vec

mutual
/-- The states constructed for an expression read its language. -/
theorem built_constructInternal (I : Interpretation) (r : RegExp) (evaluable : canEvaluate r = true)
    (arity : r.wellFormed = true) (h : Scache)
    : Built h (constructInternal r h).2 (constructInternal r h).1
        ((constructInternal r h).2.arrows (constructInternal r h).1) (r.language I) := by
  match r with
  | .toRegExp s =>
      match s with
      | .const w => exact built_constructString h w
      | .var _ | .concat _ | .unit _ | .substr _ _ _ | .replace _ _ _ | .fromInt _ => cases evaluable
  | .allchar =>
      rw [show constructInternal .allchar h
        = (h.size, h.allocateState.2.setArrows h.size [(h.size, some .allchar)]) by rw [constructInternal]; rfl,
        Scache.arrows_setArrows, ← consumed_allchar]
      exact built_leaf h _
  | .range lower upper =>
      rw [show constructInternal (.range lower upper) h
        = (h.size, h.allocateState.2.setArrows h.size [(h.size, some (.range lower upper))]) by
          rw [constructInternal]; rfl,
        Scache.arrows_setArrows, ← consumed_range (by rw [canEvaluate] at evaluable; exact evaluable)]
      exact built_leaf h _
  | .star body =>
      rw [canEvaluate] at evaluable
      rw [RegExp.wellFormed] at arity
      have built := built_constructInternal I body evaluable arity h.allocateState.2
      rw [constructInternal, RegExp.language]
      exact built.loop rfl
  | .union children =>
      rw [canEvaluate] at evaluable
      rw [RegExp.wellFormed, Bool.and_eq_true] at arity
      have built := choiceBuilt_constructUnion I children evaluable arity.2 (choiceBuilt_nil h)
      rw [zero_add] at built
      rw [constructInternal, RegExp.language]
      exact ⟨built.ext, built.choice.closed, built.language⟩
  | .concat children =>
      rw [canEvaluate] at evaluable
      rw [RegExp.wellFormed, Bool.and_eq_true, decide_eq_true_eq] at arity
      match children with
      | .nil | .cons _ .nil => simp [RegExps.toList] at arity
      | .cons rc (.cons rc' rest) =>
          rw [canEvaluates, Bool.and_eq_true] at evaluable
          have first := built_constructInternal I rc evaluable.1
            (by simpa [RegExps.wellFormed] using (Bool.and_eq_true_iff.mp arity.2).1) h
          obtain ⟨curr, isPair, built, later, different⟩ := built_constructConcat I (.cons rc' rest) evaluable.2
            (by simpa [RegExps.wellFormed] using (Bool.and_eq_true_iff.mp arity.2).2) first first.closed.entry_mem
            (Nat.le_refl _)
          have isConcat : constructConcat (.cons rc (.cons rc' rest)) none h
              = (some ((constructInternal rc h).1, curr),
                (constructConcat (.cons rc' rest) (some ((constructInternal rc h).1, (constructInternal rc h).1))
                  (constructInternal rc h).2).2) := by
            rw [constructConcat, ← isPair]
          rw [constructInternal, isConcat, RegExp.language, RegExps.concatLanguage]
          exact built.copyArrows (first.closed.entry_mem.1.trans later) (Nat.ne_of_lt (different (by simp)))
  | .var _ | .inter _ | .diff _ _ | .complement _ | .none | .all => cases evaluable

/-- The children are connected one after the other. -/
theorem built_constructConcat (I : Interpretation) (children : RegExps) (evaluable : canEvaluates children = true)
    (arity : children.wellFormed = true) {h₀ h : Scache} {first curr : Nat} {L : Language Nat}
    (built : Built h₀ h first (h.arrows curr) L) (isNew : h₀.size ≤ curr ∧ curr < h.size) (ordered : first ≤ curr)
    : ∃ curr', (constructConcat children (some (first, curr)) h).1 = some (first, curr')
        ∧ Built h₀ (constructConcat children (some (first, curr)) h).2 first
            ((constructConcat children (some (first, curr)) h).2.arrows curr') (L * children.concatLanguage I)
        ∧ curr ≤ curr' ∧ (children ≠ .nil → first < curr') := by
  match children with
  | .nil =>
      rw [constructConcat, RegExps.concatLanguage, mul_one]
      exact ⟨curr, rfl, built, Nat.le_refl _, fun nonempty => absurd rfl nonempty⟩
  | .cons rc rest =>
      rw [canEvaluates, Bool.and_eq_true] at evaluable
      rw [RegExps.wellFormed, Bool.and_eq_true] at arity
      have next := built_constructInternal I rc evaluable.1 arity.1 h
      have nextNew : h.size ≤ (constructInternal rc h).1 := next.closed.entry_mem.1
      have nextOld : (constructInternal rc h).1 < (constructInternal rc h).2.size := next.closed.entry_mem.2
      obtain ⟨curr', isPair, built', later, -⟩ := built_constructConcat I rest evaluable.2 arity.2
        (built.seq isNew next) ⟨by omega, by rw [Scache.size_connectTo]; exact nextOld⟩ (by omega)
      rw [constructConcat, RegExps.concatLanguage, ← mul_assoc]
      exact ⟨curr', isPair, built', by omega, fun _ => by omega⟩

/-- The children are added one after the other. -/
theorem choiceBuilt_constructUnion (I : Interpretation) (children : RegExps) (evaluable : canEvaluates children = true)
    (arity : children.wellFormed = true) {h₀ h : Scache} {L : Language Nat} (built : ChoiceBuilt h₀ h L)
    : ChoiceBuilt h₀ (constructUnion h₀.size children h) (L + children.unionLanguage I) := by
  match children with
  | .nil =>
      rw [constructUnion, RegExps.unionLanguage, add_zero]
      exact built
  | .cons rc rest =>
      rw [canEvaluates, Bool.and_eq_true] at evaluable
      rw [RegExps.wellFormed, Bool.and_eq_true] at arity
      have next := built_constructInternal I rc evaluable.1 arity.1 h
      have added := choiceBuilt_constructUnion I rest evaluable.2 arity.2 (built.add next rfl rfl)
      rw [constructUnion, RegExps.unionLanguage, ← add_assoc]
      exact added
end

end Ava6.Strings

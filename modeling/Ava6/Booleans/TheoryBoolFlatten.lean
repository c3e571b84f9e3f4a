import Ava6.Booleans.TheoryBoolRewriter

/-! Flattening keeps the meaning of conjunctions and disjunctions, and finds formulas that weigh less. -/

namespace Ava6.Booleans

open Library

/-- What a rule makes of a node weighs less, where equalities and conditionals become other kinds. -/
def Kind.weight : Kind → Nat
  | .ite => 8
  | .equal => 7
  | _ => 2

mutual
def Node.weight : Node → Nat
  | .const _ => 1
  | .constInteger _ => 2
  | .apply k children => k.weight + weights children

def Node.weights : List Node → Nat
  | [] => 0
  | n :: rest => n.weight + weights rest
end

theorem Node.weight_le_weights {c : Node} {children : List Node} (isMem : c ∈ children) : c.weight ≤ weights children := by
  induction children with
  | nil => cases isMem
  | cons n rest ih =>
      rw [weights]
      rcases List.mem_cons.mp isMem with rfl | isRest
      · exact Nat.le_add_right _ _
      · exact Nat.le_trans (ih isRest) (Nat.le_add_left _ _)

theorem Node.weight_lt {c : Node} {k : Kind} {children : List Node} (isMem : c ∈ children)
    : c.weight < (Node.apply k children).weight := by
  have isLess := weight_le_weights isMem
  have isPositive : 0 < k.weight := by cases k <;> simp [Kind.weight]
  rw [weight]
  omega

namespace TheoryBoolRewriter

variable {k : Kind} {dominant : Bool} {truth : Node → Bool} {n skipNode current child : Node} {rest : List Node}
    {except isDone : Node → Prop}

/-- One child with the value is enough for a node of the kind. -/
def IsDominant (truth : Node → Bool) (k : Kind) (dominant : Bool) : Prop :=
  ∀ children, truth (.apply k children) = dominant ↔ ∃ c ∈ children, truth c = dominant

/-- A formula that weighs less than `n` and has the value only if `n` does. -/
structure Part (truth : Node → Bool) (dominant : Bool) (n c : Node) : Prop where
  formula : c.typeOf = some .bool
  lighter : c.weight < n.weight
  value : truth c = dominant → truth n = dominant

theorem Part.of_apply (isDominant : IsDominant truth k dominant) (nary : k = .or ∨ k = .and) (formula : n.typeOf = some .bool)
    {children : List Node} (isPart : .apply k children = n ∨ Part truth dominant n (.apply k children))
    (isMem : child ∈ children)
    : Part truth dominant n child := by
  have isValue (holds : truth child = dominant) := (isDominant children).mpr ⟨child, isMem, holds⟩
  rcases isPart with rfl | isPart
  · exact ⟨((nary_formula_iff nary).mp formula).2 child isMem, Node.weight_lt isMem, isValue⟩
  · exact ⟨((nary_formula_iff nary).mp isPart.formula).2 child isMem, (Node.weight_lt isMem).trans isPart.lighter,
      fun holds => isPart.value (isValue holds)⟩

/-- The node is still to be processed, or what it consists of was found. -/
def Settled (k : Kind) (skipNode : Node) (s : Flattening) (todo : List Node) (v : Node) : Prop :=
  v ∈ todo ∨ v ∈ s.childList ∨ v = skipNode ∨ ∃ children, v = .apply k children ∧ ∀ c ∈ children, c ∈ s.visited

theorem Settled.mono {s s' : Flattening} {todo todo' : List Node} {v : Node} (settled : Settled k skipNode s todo v)
    (moreTodo : todo ⊆ todo') (moreChildren : s.childList ⊆ s'.childList) (moreVisited : s.visited ⊆ s'.visited)
    : Settled k skipNode s' todo' v := by
  rcases settled with isTodo | isChild | isSkip | ⟨children, isNode, areVisited⟩
  · exact .inl (moreTodo isTodo)
  · exact .inr (.inl (moreChildren isChild))
  · exact .inr (.inr (.inl isSkip))
  · exact .inr (.inr (.inr ⟨children, isNode, fun c isMem => moreVisited (areVisited c isMem)⟩))

/-- What was found is part of `n`, nothing was left out, and the nodes that are done were visited. -/
structure Flattened (truth : Node → Bool) (dominant : Bool) (k : Kind) (n skipNode : Node) (except isDone : Node → Prop)
    (s : Flattening) (todo : List Node) : Prop where
  parts : ∀ c ∈ s.childList, Part truth dominant n c
  pending : ∀ t ∈ todo, (t = n ∨ Part truth dominant n t) ∧ ∃ children, t = .apply k children
  settled : ∀ v, v = n ∨ v ∈ s.visited → except v ∨ Settled k skipNode s todo v
  visited : ∀ c, isDone c → c ∈ s.visited

/-- Nothing is left of the state once the value of `n` is known. -/
def Flattens (truth : Node → Bool) (dominant : Bool) (k : Kind) (n skipNode : Node) (except isDone : Node → Prop)
    (rest : List Node) (s : Option (Flattening × List Node)) : Prop :=
  s.elim (truth n = dominant) fun s => Flattened truth dominant k n skipNode except isDone s.1 (rest ++ s.2)

theorem flattenChild_spec (isConst : truth (.const dominant) = dominant) (isPart : Part truth dominant n child)
    (s : Option (Flattening × List Node)) (flattens : Flattens truth dominant k n skipNode except isDone rest s)
    : Flattens truth dominant k n skipNode except (fun c => isDone c ∨ c = child) rest
        (flattenChild k (.const dominant) s child) := by
  cases s with
  | none => exact flattens
  | some s =>
      obtain ⟨s, new⟩ := s
      have flattened : Flattened truth dominant k n skipNode except isDone s (rest ++ new) := flattens
      have visited : ∀ c, isDone c ∨ c = child → c ∈ child :: s.visited := fun c isDone =>
        List.mem_cons.mpr (isDone.symm.imp_right (flattened.visited c))
      simp only [flattenChild, Option.bind_some]
      split
      · next isVisited =>
          exact { flattened with visited := fun c isDone => isDone.elim (flattened.visited c) (· ▸ isVisited) }
      split
      · next isTrivial => exact isPart.value (isTrivial ▸ isConst)
      split
      · next isKind =>
          rw [Flattens, Option.elim_some, ← List.append_assoc]
          refine ⟨flattened.parts, fun t isMem => ?_, fun v isNode => ?_, visited⟩
          · rcases List.mem_append.mp isMem with isOld | isNew
            · exact flattened.pending t isOld
            · rw [List.mem_singleton.mp isNew]
              cases child with
              | apply k' children =>
                  cases isKind
                  exact ⟨.inr isPart, children, rfl⟩
              | _ => cases isKind
          · rw [List.mem_cons, or_left_comm] at isNode
            rcases isNode with rfl | isOld
            · exact .inr (.inl (List.mem_append_right _ List.mem_cons_self))
            · exact (flattened.settled v isOld).imp_right
                (·.mono (List.subset_append_left _ _) (List.Subset.refl _) (List.subset_cons_self _ _))
      · refine ⟨fun c isMem => ?_, flattened.pending, fun v isNode => ?_, visited⟩
        · rcases List.mem_append.mp isMem with isOld | isNew
          · exact flattened.parts c isOld
          · exact List.mem_singleton.mp isNew ▸ isPart
        · rw [List.mem_cons, or_left_comm] at isNode
          rcases isNode with rfl | isOld
          · exact .inr (.inr (.inl (List.mem_append_right _ List.mem_cons_self)))
          · exact (flattened.settled v isOld).imp_right
              (·.mono (List.Subset.refl _) (List.subset_append_left _ _) (List.subset_cons_self _ _))

theorem foldl_flattenChild_none (k : Kind) (trivialNode : Node) (children : List Node)
    : children.foldl (flattenChild k trivialNode) none = none := by
  induction children with
  | nil => rfl
  | cons child rest ih => exact ih

theorem foldl_flattenChild_spec (isConst : truth (.const dominant) = dominant) {children : List Node}
    (areParts : ∀ c ∈ children, Part truth dominant n c) (s : Option (Flattening × List Node))
    (flattens : Flattens truth dominant k n skipNode except isDone rest s)
    : Flattens truth dominant k n skipNode except (fun c => isDone c ∨ c ∈ children) rest
        (children.foldl (flattenChild k (.const dominant)) s) := by
  induction children generalizing s isDone with
  | nil => simpa using flattens
  | cons child children ih =>
      obtain ⟨isPart, areParts'⟩ := List.forall_mem_cons.mp areParts
      simpa only [or_assoc, List.mem_cons, List.foldl_cons] using ih areParts' _ (flattenChild_spec isConst isPart s flattens)

/-- Between two passes of the loop. -/
def FlattensAll (truth : Node → Bool) (dominant : Bool) (k : Kind) (n skipNode : Node) (s : Option Flattening)
    (todo : List Node) : Prop :=
  s.elim (truth n = dominant) fun s => Flattened truth dominant k n skipNode (fun _ => False) (fun _ => False) s todo

theorem flattenCurrent_spec (isDominant : IsDominant truth k dominant) (nary : k = .or ∨ k = .and)
    (formula : n.typeOf = some .bool) (isConst : truth (.const dominant) = dominant) (s : Option Flattening)
    (flattens : FlattensAll truth dominant k n skipNode s (current :: rest))
    : FlattensAll truth dominant k n skipNode (flattenCurrent k (.const dominant) current s).1
        (rest ++ (flattenCurrent k (.const dominant) current s).2) := by
  cases s with
  | none =>
      rw [flattenCurrent, Option.map_none, foldl_flattenChild_none]
      exact flattens
  | some s =>
      have flattened : Flattened truth dominant k n skipNode _ _ s (current :: rest) := flattens
      obtain ⟨isPart, children, rfl⟩ := flattened.pending current List.mem_cons_self
      have start : Flattens truth dominant k n skipNode (· = .apply k children) (fun _ => False) rest (some (s, [])) := by
        rw [Flattens, Option.elim_some, List.append_nil]
        refine ⟨flattened.parts, fun t isMem => flattened.pending t (List.mem_cons_of_mem _ isMem), fun v isNode => ?_,
          flattened.visited⟩
        rcases (flattened.settled v isNode).resolve_left id with isMem | isOther
        · exact (List.mem_cons.mp isMem).imp_right .inl
        · exact .inr (.inr isOther)
      have flattens' := foldl_flattenChild_spec isConst (fun c => Part.of_apply isDominant nary formula isPart) _ start
      rw [flattenCurrent, Node.children, Option.map_some]
      generalize children.foldl (flattenChild k (.const dominant)) (some (s, [])) = result at flattens'
      cases result with
      | none => exact flattens'
      | some result =>
          refine ⟨flattens'.parts, flattens'.pending, fun v isNode => .inr ?_, fun c isFalse => isFalse.elim⟩
          rcases flattens'.settled v isNode with rfl | settled
          · exact .inr (.inr (.inr ⟨children, rfl, fun c isMem => flattens'.visited c (.inr isMem)⟩))
          · exact settled

/-- Nodes with the value have it because of a child that was found. -/
theorem Flattened.exists_child {s : Flattening}
    (flattened : Flattened truth dominant k n skipNode (fun _ => False) isDone s [])
    (isDominant : IsDominant truth k dominant) (isSkip : truth skipNode ≠ dominant) (v : Node)
    (isNode : v = n ∨ v ∈ s.visited) (isValue : truth v = dominant)
    : ∃ c ∈ s.childList, truth c = dominant := by
  induction hsize : sizeOf v using Nat.strongRecOn generalizing v with
  | _ size ih =>
      subst hsize
      rcases (flattened.settled v isNode).resolve_left id with isMem | isChild | rfl | ⟨children, rfl, areVisited⟩
      · cases isMem
      · exact ⟨v, isChild, isValue⟩
      · exact absurd isValue isSkip
      · obtain ⟨c, isMem, isTrue⟩ := (isDominant children).mp isValue
        have isLess := List.sizeOf_lt_of_mem isMem
        exact ih _ (by simp only [Node.apply.sizeOf_spec]; omega) c (.inr (areVisited c isMem)) isTrue rfl

/-- The value of a conjunction or disjunction from the children that are left, which are formulas that weigh less. -/
theorem flattenedChildren_spec {children : List Node} (isDominant : IsDominant truth k dominant)
    (nary : k = .or ∨ k = .and) (isConst : ∀ b, truth (.const b) = b)
    (formula : (Node.apply k children).typeOf = some .bool)
    : (flattenedChildren k (.const dominant) (.const (!dominant)) (.apply k children) = none →
        truth (.apply k children) = dominant)
      ∧ ∀ childList, flattenedChildren k (.const dominant) (.const (!dominant)) (.apply k children) = some childList →
        (truth (.apply k children) = dominant ↔ ∃ c ∈ childList, truth c = dominant)
        ∧ ∀ c ∈ childList, c.typeOf = some .bool ∧ c.weight < (Node.apply k children).weight := by
  have start : FlattensAll truth dominant k (.apply k children) (.const (!dominant)) (some ⟨[.const (!dominant)], []⟩)
      [.apply k children] := by
    refine ⟨fun c isMem => (by cases isMem), fun t isMem => ?_, fun v isNode => .inr ?_, fun c isFalse => isFalse.elim⟩
    · exact ⟨.inl (List.mem_singleton.mp isMem), children, List.mem_singleton.mp isMem⟩
    · rcases isNode with rfl | isSkip
      · exact .inl List.mem_cons_self
      · exact .inr (.inr (.inl (List.mem_singleton.mp isSkip)))
  have flattens := (flattenList k (.const dominant)).run_invariant
    (I := FlattensAll truth dominant k (.apply k children) (.const (!dominant)))
    (fun current rest s => flattenCurrent_spec isDominant nary formula (isConst dominant) s) start
  rw [flattenedChildren]
  generalize (flattenList k (.const dominant)).run (some ⟨[.const (!dominant)], []⟩) [.apply k children] = result
    at flattens
  cases result with
  | none => exact ⟨fun _ => flattens, fun childList isList => by cases isList⟩
  | some s =>
      have flattened : Flattened truth dominant k (.apply k children) (.const (!dominant)) _ _ s [] := flattens
      refine ⟨fun isNothing => (by cases isNothing), fun childList isList => ?_⟩
      cases isList
      refine ⟨⟨flattened.exists_child isDominant (by rw [isConst]; cases dominant <;> decide) _ (.inl rfl), ?_⟩,
        fun c isMem => ⟨(flattened.parts c isMem).formula, (flattened.parts c isMem).lighter⟩⟩
      rintro ⟨c, isMem, isValue⟩
      exact (flattened.parts c isMem).value isValue

end TheoryBoolRewriter

end Ava6.Booleans

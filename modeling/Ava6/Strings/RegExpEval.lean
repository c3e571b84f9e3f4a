import Ava6.Strings.NfaConstruction

/-! Evaluation of memberships: all states that an automaton can be in are followed through the string. The result is
membership in the language of the expression.
-/

namespace Ava6.Strings

open Computability Library.OpenAutomaton

/-- The states that have not been added. -/
def unvisited (h : Scache) (next : List Nat) : Nat := ((List.range h.size).filter (fun q => q ∉ next)).length

theorem unvisited_append {h : Scache} {next : List Nat} {q : Nat} (inside : q < h.size) (new : q ∉ next)
    : unvisited h (next ++ [q]) < unvisited h next := by
  rw [unvisited, unvisited, ← List.countP_eq_length_filter, ← List.countP_eq_length_filter]
  have member : q ∈ List.range h.size := List.mem_range.mpr inside
  obtain ⟨before, after, isRange⟩ := List.append_of_mem member
  have fewer (l : List Nat) : l.countP (fun p => p ∉ next ++ [q]) ≤ l.countP (fun p => p ∉ next) :=
    List.countP_mono_left (fun p _ outside => by simp at outside ⊢; exact outside.1)
  have isOld : decide (q ∉ next ++ [q]) = false := by simp
  have isNew : decide (q ∉ next) = true := by simpa using new
  have lessBefore := fewer before
  have lessAfter := fewer after
  rw [isRange, List.countP_append, List.countP_append, List.countP_cons, List.countP_cons, isOld, isNew,
    if_neg Bool.false_ne_true, if_pos rfl]
  omega

/-- Adds the states of the stack and all that follow from them without reading. A number that is not of a state is
passed over.
-/
def addToNext (h : Scache) : List Nat → List Nat → List Nat
  | [], next => next
  | q :: stack, next =>
      if _visited : q ∈ next ∨ h.size ≤ q then addToNext h stack next
      else addToNext h (h.children q none ++ stack) (next ++ [q])
  termination_by stack next => (unvisited h next, stack.length)
  decreasing_by
    · exact Prod.Lex.right _ (Nat.lt_succ_self _)
    · rw [not_or, Nat.not_le] at _visited
      exact Prod.Lex.left _ _ (unvisited_append _visited.2 _visited.1)

def processNextChar (h : Scache) (nextChar : Nat) (next : List Nat) (q : Nat) : List Nat :=
  (h.state q).d_children.entries.foldl
    (fun next c =>
      match c.1 with
      | some l => if l.accepts nextChar then addToNext h c.2 next else next
      | none => next)
    next

/-- The states after the string, unless there are none earlier. -/
def follow (h : Scache) : Word → List Nat → Option (List Nat)
  | [], curr => some curr
  | c :: vec, curr =>
      let next := curr.foldl (processNextChar h c) []
      if next = [] then none else follow h vec next

/-- The accepting state is the first one. -/
def acceptOnly : Scache := ⟨fun _ => .new, 1⟩

def evaluate (s : Word) (r : RegExp) : Bool :=
  let (rs, h) := construct r 0 acceptOnly
  match follow h s (addToNext h [rs] []) with
  | some curr => curr.contains 0
  | none => false

section Closure

variable {h : Scache} {stack next : List Nat} {q r : Nat}

/-- Edges lead to states. -/
def Scache.Valid (h : Scache) : Prop := ∀ p l q, p < h.size → h.edge p l q → q < h.size

/-- Whatever follows without reading from what has been added has been added or is on the stack. -/
def Pending (h : Scache) (stack next : List Nat) : Prop :=
  ∀ p ∈ next, ∀ q, h.edge p none q → q ∈ next ∨ q ∈ stack

theorem pending_nil (h : Scache) (stack : List Nat) : Pending h stack [] := fun _ member => by cases member

/-- What has been added is closed, holds the stack, and has nothing else. -/
structure Added (h : Scache) (stack next result : List Nat) : Prop where
  closed : Pending h [] result
  old : ∀ q ∈ next, q ∈ result
  new : ∀ q ∈ stack, q ∈ result
  only : ∀ q ∈ result, q ∈ next ∨ ∃ p ∈ stack, Path Reads h.edge p [] q

theorem added_addToNext (valid : h.Valid) (stack next : List Nat) (pending : Pending h stack next)
    (inside : ∀ q ∈ stack, q < h.size)
    : Added h stack next (addToNext h stack next) := by
  induction stack, next using addToNext.induct h with
  | case1 next =>
      rw [addToNext]
      exact ⟨pending, fun _ member => member, fun _ member => absurd member List.not_mem_nil, fun _ member => Or.inl member⟩
  | case2 q stack next visited ih =>
      have isOld : q ∈ next := visited.resolve_right (Nat.not_le.mpr (inside q List.mem_cons_self))
      have pending' : Pending h stack next := by
        intro p member q' isEdge
        rcases pending p member q' isEdge with old | onStack
        · exact Or.inl old
        · rcases List.mem_cons.mp onStack with rfl | inRest
          · exact Or.inl isOld
          · exact Or.inr inRest
      have added := ih pending' (fun p member => inside p (List.mem_cons_of_mem _ member))
      rw [addToNext, dif_pos visited]
      refine ⟨added.closed, added.old, fun p member => ?_, fun p member => ?_⟩
      · rcases List.mem_cons.mp member with rfl | inRest
        · exact added.old p isOld
        · exact added.new p inRest
      · rcases added.only p member with old | ⟨p', inRest, path⟩
        · exact Or.inl old
        · exact Or.inr ⟨p', List.mem_cons_of_mem _ inRest, path⟩
  | case3 q stack next notVisited ih =>
      have isState := inside q List.mem_cons_self
      have pending' : Pending h (h.children q none ++ stack) (next ++ [q]) := by
        intro p member q' isEdge
        rcases List.mem_append.mp member with old | new
        · rcases pending p old q' isEdge with old' | onStack
          · exact Or.inl (List.mem_append_left _ old')
          · rcases List.mem_cons.mp onStack with rfl | inRest
            · exact Or.inl (List.mem_append_right _ (List.mem_singleton_self _))
            · exact Or.inr (List.mem_append_right _ inRest)
        · rw [List.mem_singleton.mp new] at isEdge
          exact Or.inr (List.mem_append_left _ isEdge)
      have inside' : ∀ p ∈ h.children q none ++ stack, p < h.size := by
        intro p member
        rcases List.mem_append.mp member with isChild | inRest
        · exact valid q none p isState isChild
        · exact inside p (List.mem_cons_of_mem _ inRest)
      have added := ih pending' inside'
      rw [addToNext, dif_neg notVisited]
      refine ⟨added.closed, fun p member => added.old p (List.mem_append_left _ member), fun p member => ?_,
        fun p member => ?_⟩
      · rcases List.mem_cons.mp member with rfl | inRest
        · exact added.old p (List.mem_append_right _ (List.mem_singleton_self _))
        · exact added.new p (List.mem_append_right _ inRest)
      · rcases added.only p member with old | ⟨p', onStack, path⟩
        · rcases List.mem_append.mp old with old' | new
          · exact Or.inl old'
          · rw [List.mem_singleton.mp new]
            exact Or.inr ⟨q, List.mem_cons_self, .nil q⟩
        · rcases List.mem_append.mp onStack with isChild | inRest
          · exact Or.inr ⟨q, List.mem_cons_self, .step isChild (u := []) rfl path⟩
          · exact Or.inr ⟨p', List.mem_cons_of_mem _ inRest, path⟩

/-- A closed set has what follows from its states without reading. -/
theorem Pending.mem_of_path (closed : Pending h [] next) (member : q ∈ next) (path : Path Reads h.edge q [] r)
    : r ∈ next := by
  generalize isEmpty : ([] : Word) = w at path
  induction path with
  | nil q => exact member
  | @step p q r l u v isEdge consumes path ih =>
      obtain ⟨isNil, rest⟩ := List.append_eq_nil_iff.mp isEmpty.symm
      match l with
      | none =>
          have isNext := (closed p member q isEdge).resolve_right (by simp)
          exact ih isNext rest.symm
      | some l =>
          obtain ⟨c, rfl, -⟩ := consumes
          cases isNil

theorem mem_addToNext (valid : h.Valid) (closed : Pending h [] next) (inside : ∀ q ∈ stack, q < h.size)
    : r ∈ addToNext h stack next ↔ r ∈ next ∨ ∃ p ∈ stack, Path Reads h.edge p [] r := by
  have added := added_addToNext valid stack next
    (fun p member q isEdge => Or.inl ((closed p member q isEdge).resolve_right (by simp))) inside
  constructor
  · exact added.only r
  · rintro (old | ⟨p, onStack, path⟩)
    · exact added.old r old
    · exact added.closed.mem_of_path (added.new p onStack) path

theorem closed_addToNext (valid : h.Valid) (closed : Pending h [] next) (inside : ∀ q ∈ stack, q < h.size)
    : Pending h [] (addToNext h stack next) :=
  (added_addToNext valid stack next
    (fun p member q isEdge => Or.inl ((closed p member q isEdge).resolve_right (by simp))) inside).closed

end Closure

section Characters

variable {h : Scache} {next : List Nat} {q r c : Nat}

/-- The states after a character from one of the edges of a list. -/
def ReachedBy (h : Scache) (c : Nat) (entries : List (Sigma fun _ : Option Label => List Nat)) (r : Nat) : Prop :=
  ∃ e ∈ entries, ∃ l, e.1 = some l ∧ Reads l c ∧ ∃ q ∈ e.2, Path Reads h.edge q [] r

theorem processEntries_spec (valid : h.Valid) (c : Nat) (entries : List (Sigma fun _ : Option Label => List Nat))
    (inside : ∀ e ∈ entries, ∀ q ∈ e.2, q < h.size) {next : List Nat} (closed : Pending h [] next)
    : let result := entries.foldl (fun next e =>
        match e.1 with
        | some l => if l.accepts c then addToNext h e.2 next else next
        | none => next) next
      Pending h [] result ∧ ∀ r, r ∈ result ↔ r ∈ next ∨ ReachedBy h c entries r := by
  induction entries generalizing next with
  | nil => exact ⟨closed, fun r => (or_iff_left (fun reached => by obtain ⟨e, member, -⟩ := reached; cases member)).symm⟩
  | cons e entries ih =>
      have insideRest : ∀ e ∈ entries, ∀ q ∈ e.2, q < h.size := fun e member => inside e (List.mem_cons_of_mem _ member)
      have insideFirst := inside e List.mem_cons_self
      have skip (unread : ∀ l, e.1 = some l → ¬Reads l c) (r : Nat)
          : ReachedBy h c (e :: entries) r ↔ ReachedBy h c entries r := by
        constructor
        · rintro ⟨e', member, l, isLabel, isRead, reached⟩
          rcases List.mem_cons.mp member with rfl | inRest
          · exact absurd isRead (unread l isLabel)
          · exact ⟨e', inRest, l, isLabel, isRead, reached⟩
        · rintro ⟨e', member, reached⟩
          exact ⟨e', List.mem_cons_of_mem _ member, reached⟩
      rw [List.foldl_cons]
      match isLabel : e.1 with
      | none =>
          obtain ⟨closed', members⟩ := ih insideRest closed
          refine ⟨closed', fun r => (members r).trans (or_congr_right (skip (fun l isSome => ?_) r).symm)⟩
          rw [isLabel] at isSome
          cases isSome
      | some l =>
          by_cases isRead : l.accepts c = true
          · simp only [isRead, if_true]
            obtain ⟨closed', members⟩ := ih insideRest (closed_addToNext valid closed insideFirst)
            refine ⟨closed', fun r => ?_⟩
            rw [members, mem_addToNext valid closed insideFirst, or_assoc]
            refine or_congr_right ⟨?_, ?_⟩
            · rintro (reached | ⟨e', member, reached⟩)
              · exact ⟨e, List.mem_cons_self, l, isLabel, isRead, reached⟩
              · exact ⟨e', List.mem_cons_of_mem _ member, reached⟩
            · rintro ⟨e', member, l', isLabel', isRead', reached⟩
              rcases List.mem_cons.mp member with rfl | inRest
              · exact Or.inl reached
              · exact Or.inr ⟨e', inRest, l', isLabel', isRead', reached⟩
          · simp only [isRead]
            obtain ⟨closed', members⟩ := ih insideRest closed
            refine ⟨closed', fun r => (members r).trans (or_congr_right (skip (fun l' isSome => ?_) r).symm)⟩
            rw [isLabel, Option.some.injEq] at isSome
            rw [← isSome]
            exact isRead

theorem mem_entries_iff {l : Option Label} {ts : List Nat}
    : (⟨l, ts⟩ : Sigma fun _ : Option Label => List Nat) ∈ (h.state q).d_children.entries
      ↔ (h.state q).d_children.lookup l = some ts :=
  AList.mem_lookup_iff.symm

/-- The states after a character from one state. -/
def After (h : Scache) (c q r : Nat) : Prop :=
  ∃ l q', h.edge q (some l) q' ∧ Reads l c ∧ Path Reads h.edge q' [] r

theorem processNextChar_spec (valid : h.Valid) (c : Nat) (isState : q < h.size) (closed : Pending h [] next)
    : Pending h [] (processNextChar h c next q)
      ∧ ∀ r, r ∈ processNextChar h c next q ↔ r ∈ next ∨ After h c q r := by
  have inside : ∀ e ∈ (h.state q).d_children.entries, ∀ q' ∈ e.2, q' < h.size := by
    intro e member q' isTarget
    refine valid q e.1 q' isState ?_
    rw [Scache.edge, Scache.children, mem_entries_iff.mp member]
    exact isTarget
  obtain ⟨closed', members⟩ := processEntries_spec valid c _ inside closed
  refine ⟨closed', fun r => (members r).trans (or_congr_right ⟨?_, ?_⟩)⟩
  · rintro ⟨⟨_, ts⟩, member, l, rfl, isRead, q', isTarget, path⟩
    refine ⟨l, q', ?_, isRead, path⟩
    rw [Scache.edge, Scache.children, mem_entries_iff.mp member]
    exact isTarget
  · rintro ⟨l, q', isEdge, isRead, path⟩
    rw [Scache.edge, Scache.children] at isEdge
    cases isLookup : (h.state q).d_children.lookup (some l) with
    | none =>
        rw [isLookup] at isEdge
        cases isEdge
    | some ts =>
        rw [isLookup] at isEdge
        exact ⟨⟨some l, ts⟩, mem_entries_iff.mpr isLookup, l, rfl, isRead, q', isEdge, path⟩

theorem processAll_spec (valid : h.Valid) (c : Nat) (curr : List Nat) (inside : ∀ q ∈ curr, q < h.size)
    {next : List Nat} (closed : Pending h [] next)
    : Pending h [] (curr.foldl (processNextChar h c) next)
      ∧ ∀ r, r ∈ curr.foldl (processNextChar h c) next ↔ r ∈ next ∨ ∃ q ∈ curr, After h c q r := by
  induction curr generalizing next with
  | nil => exact ⟨closed, fun r => by simp⟩
  | cons q curr ih =>
      obtain ⟨closed', members⟩ := processNextChar_spec valid c (inside q List.mem_cons_self) closed
      obtain ⟨closed'', members'⟩ := ih (fun p member => inside p (List.mem_cons_of_mem _ member)) closed'
      refine ⟨closed'', fun r => ?_⟩
      rw [List.foldl_cons, members', members, or_assoc, List.exists_mem_cons_iff]

end Characters

section Strings

variable {h : Scache} {rs : Nat}

theorem Scache.Valid.path_lt (valid : h.Valid) {p q : Nat} {w : Word} (isState : p < h.size)
    (path : Path Reads h.edge p w q)
    : q < h.size := by
  induction path with
  | nil q => exact isState
  | step isEdge _ _ ih => exact ih (valid _ _ _ isState isEdge)

/-- The states followed are those that a path with the string leads to. -/
theorem follow_spec (valid : h.Valid) (isState : rs < h.size) (vec : Word) {w : Word} {curr : List Nat}
    (reached : ∀ q, q ∈ curr ↔ Path Reads h.edge rs w q)
    : match follow h vec curr with
      | some result => ∀ q, q ∈ result ↔ Path Reads h.edge rs (w ++ vec) q
      | none => ∀ q, ¬Path Reads h.edge rs (w ++ vec) q := by
  induction vec generalizing w curr with
  | nil =>
      rw [follow, List.append_nil]
      exact reached
  | cons c vec ih =>
      obtain ⟨-, members⟩ := processAll_spec valid c curr (fun q member => valid.path_lt isState ((reached q).mp member))
        (pending_nil h [])
      have reached' : ∀ r, r ∈ curr.foldl (processNextChar h c) [] ↔ Path Reads h.edge rs (w ++ [c]) r := by
        intro r
        rw [members, or_iff_right List.not_mem_nil, path_append_singleton_iff]
        constructor
        · rintro ⟨q, member, l, q', isEdge, isRead, path⟩
          exact ⟨q, l, q', (reached q).mp member, isEdge, isRead, path⟩
        · rintro ⟨q, l, q', path, isEdge, isRead, path'⟩
          exact ⟨q, (reached q).mpr path, l, q', isEdge, isRead, path'⟩
      by_cases isEmpty : curr.foldl (processNextChar h c) [] = []
      · rw [isEmpty] at reached'
        simp only [follow, if_pos isEmpty]
        intro q path
        rw [← List.singleton_append, ← List.append_assoc] at path
        obtain ⟨q', before⟩ := path.exists_prefix (w ++ [c]) vec rfl
        exact absurd ((reached' q').mpr before) List.not_mem_nil
      · have result := ih reached'
        rw [List.append_assoc, List.singleton_append] at result
        simp only [follow, if_neg isEmpty]
        exact result

/-- The automaton of an expression leads to the accepting state over the words of the language. -/
theorem path_construct_iff (I : Interpretation) {r : RegExp} (evaluable : canEvaluate r = true)
    (arity : r.wellFormed = true) (w : Word)
    : Path Reads (construct r 0 acceptOnly).2.edge (construct r 0 acceptOnly).1 w 0 ↔ w ∈ r.language I := by
  have built := built_constructInternal I r evaluable arity acceptOnly
  have tied : (between acceptOnly (constructInternal r acceptOnly).2 (constructInternal r acceptOnly).1
      ((constructInternal r acceptOnly).2.arrows (constructInternal r acceptOnly).1)).TiedTo
      (constructInternal r acceptOnly).2.edge (construct r 0 acceptOnly).2.edge 0 := by
    intro p _ l q
    exact Scache.edge_connectTo
  have outside : 0 ∉ (between acceptOnly (constructInternal r acceptOnly).2 (constructInternal r acceptOnly).1
      ((constructInternal r acceptOnly).2.arrows (constructInternal r acceptOnly).1)).states :=
    fun inside => Nat.not_succ_le_zero 0 inside.1
  have final : ∀ l q, ¬(construct r 0 acceptOnly).2.edge 0 l q := by
    intro l q isEdge
    rcases Scache.edge_connectTo.mp isEdge with old | ⟨isArrow, -⟩
    · have noEdge := (built.ext.edges 0 Nat.zero_lt_one l q).mp old
      simp [acceptOnly, Scache.edge, Scache.children, NfaState.new] at noEdge
    · exact Nat.not_succ_le_zero 0 (built.closed.arrow_mem _ isArrow).1
  rw [← built.language]
  exact built.closed.path_target_iff tied outside final

theorem valid_construct {r : RegExp} (evaluable : canEvaluate r = true) (arity : r.wellFormed = true)
    : (construct r 0 acceptOnly).2.Valid
      ∧ (construct r 0 acceptOnly).1 < (construct r 0 acceptOnly).2.size := by
  have built := built_constructInternal ⟨⟨fun _ => [], fun _ => 0⟩, fun _ => 0⟩ r evaluable arity acceptOnly
  have size : (construct r 0 acceptOnly).2.size = (constructInternal r acceptOnly).2.size := Scache.size_connectTo
  have isEntry := built.closed.entry_mem
  have some : 0 < (constructInternal r acceptOnly).2.size := Nat.lt_of_lt_of_le Nat.zero_lt_one built.ext.grows
  refine ⟨fun p l q isState isEdge => ?_, size ▸ isEntry.2⟩
  rw [size] at isState ⊢
  rcases Scache.edge_connectTo.mp isEdge with old | ⟨-, rfl⟩
  · by_cases isAccept : p = 0
    · rw [isAccept] at old
      have noEdge := (built.ext.edges 0 Nat.zero_lt_one l q).mp old
      simp [acceptOnly, Scache.edge, Scache.children, NfaState.new] at noEdge
    · have inside : p ∈ (between acceptOnly (constructInternal r acceptOnly).2 (constructInternal r acceptOnly).1
          ((constructInternal r acceptOnly).2.arrows (constructInternal r acceptOnly).1)).states :=
        ⟨Nat.one_le_iff_ne_zero.mpr isAccept, isState⟩
      exact (built.closed.edge_mem inside old).2
  · exact some

/-- The automaton accepts the language of the expression, by the construction and the lemma on runs. -/
theorem evaluate_iff (I : Interpretation) {r : RegExp} (evaluable : canEvaluate r = true) (arity : r.wellFormed = true)
    (s : Word)
    : evaluate s r = true ↔ s ∈ r.language I := by
  obtain ⟨valid, isState⟩ := valid_construct evaluable arity
  have start : ∀ q, q ∈ addToNext (construct r 0 acceptOnly).2 [(construct r 0 acceptOnly).1] []
      ↔ Path Reads (construct r 0 acceptOnly).2.edge (construct r 0 acceptOnly).1 [] q := by
    intro q
    rw [mem_addToNext valid (pending_nil _ []) (by simpa using isState)]
    simp
  have followed := follow_spec valid isState s start
  rw [List.nil_append] at followed
  rw [← path_construct_iff I evaluable arity, evaluate]
  match isResult : follow (construct r 0 acceptOnly).2 s
      (addToNext (construct r 0 acceptOnly).2 [(construct r 0 acceptOnly).1] []) with
  | none =>
      rw [isResult] at followed
      simp only [isResult, Bool.false_eq_true, false_iff]
      exact followed 0
  | some curr =>
      rw [isResult] at followed
      simp only [isResult, List.contains_iff_mem]
      exact followed 0

end Strings

/-- The automaton of a constant expression accepts the words of its language, under any interpretation. -/
theorem evaluate_exact (I : Interpretation) (r : RegExp) (s : Word) (arity : r.wellFormed = true)
    (evaluable : canEvaluate r = true)
    : evaluate s r = true ↔ s ∈ r.language I :=
  evaluate_iff I evaluable arity s

/-- A star over a word and a star, with an empty range beside it. -/
theorem evaluate_exact_nested_star
    : evaluate [97, 98] (.star (.union (.cons (.concat (.cons (.toRegExp (.const [97])) (.cons (.star .allchar) .nil)))
          (.cons (.range (.const [99]) (.const [98])) .nil)))) = true
      ↔ [97, 98] ∈ (RegExp.star (.union (.cons (.concat (.cons (.toRegExp (.const [97])) (.cons (.star .allchar) .nil)))
          (.cons (.range (.const [99]) (.const [98])) .nil)))).language ⟨⟨fun _ => [], fun _ => 0⟩, fun _ => 0⟩ :=
  evaluate_exact ⟨⟨fun _ => [], fun _ => 0⟩, fun _ => 0⟩ _ _ (by decide) (by decide)

end Ava6.Strings

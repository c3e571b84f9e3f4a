import Ava6.Booleans.CircuitPropagatorSound

/-! Runs of the propagator: any assertions and propagations, in any order. -/

namespace Ava6.Booleans

namespace CircuitPropagator

variable {options : CircuitOptions} {asserted : List Node} {p p' p'' : CircuitPropagator}
    {n parent child current : Node} {nodes toVisit : List Node} {value : Bool}

-- The queue

theorem Inv.learn (inv : Inv options asserted p) (isValue : p.dState current = some value)
    : Step options asserted p (p.learn options current value) := by
  rw [CircuitPropagator.learn]
  split
  · refine ⟨⟨inv.linked.congr rfl rfl, inv.queue, inv.queued, inv.assigned, fun literal isMem => ?_, inv.conflict⟩,
      ⟨rfl, rfl, rfl, id, List.prefix_refl _⟩⟩
    rcases List.mem_append.mp isMem with isOld | isNew
    · exact inv.learned literal isOld
    · rw [List.mem_singleton.mp isNew]
      intro truth models
      have isTruth := (inv.assigned isValue).2 truth models
      cases value with
      | true => exact isTruth
      | false => exact (models.1.not current).trans (by rw [isTruth, Bool.not_false])
  · exact inv.refl

theorem Inv.processBackward (inv : Inv options asserted p) (isValue : p.dState current = some value)
    : Runs options asserted p (p.processBackward options current value) := by
  obtain ⟨hasEdges, entails⟩ := inv.assigned isValue
  rw [CircuitPropagator.processBackward]
  split
  · next isGate =>
      simp only [Bool.and_eq_true, Bool.not_eq_true', isAtom, Bool.or_eq_false_iff, Bool.not_eq_false'] at isGate
      obtain ⟨⟨-, ⟨boolean, notVar⟩, -⟩, notConst⟩ := isGate
      have gate : Gate current := by
        rcases gate_of_isBoolean (inv.linked.formula hasEdges) boolean with ⟨b, rfl⟩ | ⟨isVar, -⟩ | gate
        · cases notConst
        · rw [notVar] at isVar
          cases isVar
        · exact gate
      exact inv.propagateBackward gate
        (fun c isChild => hasEdges_of_parent (inv.linked.children hasEdges boolean List.not_mem_nil isChild)) entails
  · exact inv.refl.runs

theorem Inv.forwardParents (inv : Inv options asserted p) (isChild : Entails asserted child value)
    (isParents : ∀ parent ∈ nodes, p.HasEdges parent ∧ isBoolean options parent = true ∧ child ∈ parent.children)
    : Runs options asserted p (forwardParents child value nodes p) := by
  induction nodes generalizing p with
  | nil => exact inv.refl.runs
  | cons parent rest ih =>
      rw [CircuitPropagator.forwardParents]
      split
      · exact inv.refl.runs
      · obtain ⟨hasEdges, boolean, isMem⟩ := isParents parent List.mem_cons_self
        refine (inv.forwardParent hasEdges boolean isMem isChild).bind fun p' step => ih step.inv fun other isRest => ?_
        rw [step.grows.hasEdges]
        exact isParents other (List.mem_cons_of_mem parent isRest)

/-- Every assigned node has an entry for its parents. -/
theorem Inv.propagateForward (inv : Inv options asserted p) (isValue : p.dState child = some value)
    : Runs options asserted p (p.propagateForward child value) := by
  obtain ⟨hasEdges, entails⟩ := inv.assigned isValue
  obtain ⟨parents, isEntry⟩ := Option.isSome_iff_exists.mp hasEdges
  rw [CircuitPropagator.propagateForward, isEntry, Option.bind_some]
  exact inv.forwardParents entails fun parent isParent => inv.linked.parents (by rwa [isEntry])

theorem Inv.process (inv : Inv options asserted p) (isQueued : current ∈ p.dPropagationQueue)
    : Runs options asserted p (p.process options current) := by
  obtain ⟨value, isValue⟩ := Option.isSome_iff_exists.mp ((inv.queued current).mp isQueued)
  have learned : Step options asserted p (p.learn options current value) := inv.learn isValue
  rw [CircuitPropagator.process, getAssignment, isValue, Option.bind_some]
  refine Runs.after ((learned.inv.processBackward (learned.grows.state isValue)).bind fun p' step => ?_) learned
  split
  · exact step.inv.propagateForward (step.grows.state (learned.grows.state isValue))
  · exact step.inv.refl.runs

theorem Inv.length_le (inv : Inv options asserted p) : p.dPropagationQueue.length ≤ p.dSeen.length := by
  refine (inv.queue.subperm fun n isQueued => ?_).length_le
  obtain ⟨value, isValue⟩ := Option.isSome_iff_exists.mp ((inv.queued n).mp isQueued)
  exact (inv.linked.seen n).mpr (inv.assigned isValue).1

/-- The queue never gets longer than the list of nodes that were seen. -/
theorem Inv.propagateFrom (inv : Inv options asserted p) (fuel i : Nat) (enough : p.dSeen.length ≤ i + fuel)
    : Runs options asserted p (p.propagateFrom options fuel i) := by
  induction fuel generalizing p i with
  | zero =>
      have atEnd : ¬ i < p.dPropagationQueue.length := Nat.not_lt.mpr (Nat.le_trans inv.length_le enough)
      rw [CircuitPropagator.propagateFrom, if_neg fun isNext => atEnd isNext.1]
      exact inv.refl.runs
  | succ fuel ih =>
      rw [CircuitPropagator.propagateFrom]
      cases isNext : p.dPropagationQueue[i]? with
      | none => exact inv.refl.runs
      | some current =>
          simp only
          split
          · exact inv.refl.runs
          · refine (inv.process (List.mem_of_getElem? isNext)).bind fun p' step => ih step.inv (i + 1) ?_
            rw [step.grows.seen]
            omega

theorem propagateFrom_mono {fuel i : Nat} (isResult : p.propagateFrom options fuel i = some p')
    : p.propagateFrom options (fuel + 1) i = some p' := by
  induction fuel generalizing p i with
  | zero =>
      rw [propagateFrom] at isResult
      split at isResult
      · cases isResult
      · next atEnd =>
          rw [propagateFrom, ← isResult]
          cases isNext : p.dPropagationQueue[i]? with
          | none => rfl
          | some current =>
              obtain ⟨inRange, -⟩ := List.getElem?_eq_some_iff.mp isNext
              have isConflict : p.dConflict = true := by
                by_contra notConflict
                exact atEnd ⟨inRange, by simpa using notConflict⟩
              simp [isConflict]
  | succ fuel ih =>
      rw [propagateFrom] at isResult ⊢
      cases isNext : p.dPropagationQueue[i]? with
      | none =>
          rw [isNext] at isResult
          exact isResult
      | some current =>
          rw [isNext] at isResult
          simp only at isResult ⊢
          split at isResult
          · next isConflict => rw [if_pos isConflict, isResult]
          · next notConflict =>
              rw [if_neg notConflict]
              obtain ⟨q, isProcessed, isRest⟩ := Option.bind_eq_some_iff.mp isResult
              rw [isProcessed, Option.bind_some]
              exact ih isRest

theorem propagateFrom_of_le {fuel more i : Nat} (isResult : p.propagateFrom options fuel i = some p') (isMore : fuel ≤ more)
    : p.propagateFrom options more i = some p' := by
  induction isMore with
  | refl => exact isResult
  | step _ ih => exact propagateFrom_mono ih

-- Back edges

/-- Entries and seen nodes are added, and nothing else changes. -/
structure Links (p p' : CircuitPropagator) : Prop where
  hasEdges {n : Node} (hasEdges : p.HasEdges n) : p'.HasEdges n
  parents {n c : Node} (isParent : n ∈ (p.dBackEdges c).getD []) : n ∈ (p'.dBackEdges c).getD []
  queue : p'.dPropagationQueue = p.dPropagationQueue
  state : p'.dState = p.dState
  learned : p'.dLearnedLiterals = p.dLearnedLiterals
  conflict : p'.dConflict = p.dConflict
  saved : p'.saved = p.saved

theorem Links.refl (p : CircuitPropagator) : Links p p := ⟨id, id, rfl, rfl, rfl, rfl, rfl⟩

theorem Links.trans (first : Links p p') (second : Links p' p'') : Links p p'' where
  hasEdges isNode := second.hasEdges (first.hasEdges isNode)
  parents isParent := second.parents (first.parents isParent)
  queue := second.queue.trans first.queue
  state := second.state.trans first.state
  learned := second.learned.trans first.learned
  conflict := second.conflict.trans first.conflict
  saved := second.saved.trans first.saved

theorem Linked.mono {toVisit' : List Node} (linked : Linked options toVisit p)
    (isPending : ∀ n ∈ toVisit', p.HasEdges n)
    (isVisited : ∀ n, n ∉ toVisit' → n ∈ toVisit → isBoolean options n = true → ∀ c ∈ n.children, n ∈ (p.dBackEdges c).getD [])
    : Linked options toVisit' p where
  formula := linked.formula
  parents := linked.parents
  children {n c} hasEdges boolean notPending isChild := by
    by_cases isOld : n ∈ toVisit
    · exact isVisited n notPending isOld boolean c isChild
    · exact linked.children hasEdges boolean isOld isChild
  seen := linked.seen
  pending := isPending

theorem hasEdges_of_entries {entries : Node → Option (List Node)} {parents : List Node}
    (isEntry : entries child = some parents) (isOther : ∀ m, m ≠ child → entries m = p.dBackEdges m)
    : (entries n).isSome = true ↔ p.HasEdges n ∨ n = child := by
  by_cases isSame : n = child
  · simp [isSame, isEntry]
  · rw [isOther n isSame, HasEdges, or_iff_left isSame]

theorem parents_of_entries {entries : Node → Option (List Node)} {added : List Node}
    (isEntry : entries child = some ((p.dBackEdges child).getD [] ++ added))
    (isOther : ∀ m, m ≠ child → entries m = p.dBackEdges m) (parent : Node)
    : parent ∈ (entries n).getD [] ↔ parent ∈ (p.dBackEdges n).getD [] ∨ n = child ∧ parent ∈ added := by
  by_cases isSame : n = child
  · simp [isSame, isEntry]
  · simp [isSame, isOther n isSame]

/-- The entry of a node is made or gets other parents, and the node is to be visited if it had none. -/
theorem Linked.setEntry {entries : Node → Option (List Node)} {added seen toVisit' : List Node}
    (linked : Linked options toVisit p) (formula : child.typeOf = some .bool)
    (isEntry : entries child = some ((p.dBackEdges child).getD [] ++ added))
    (isOther : ∀ n, n ≠ child → entries n = p.dBackEdges n)
    (areParents : ∀ q ∈ added, p.HasEdges q ∧ isBoolean options q = true ∧ child ∈ q.children)
    (isSeen : ∀ n, n ∈ seen ↔ p.HasEdges n ∨ n = child)
    (isPending : ∀ n, n ∈ toVisit' ↔ n ∈ toVisit ∨ n = child ∧ ¬ p.HasEdges n)
    : Linked options toVisit' { p with dBackEdges := entries, dSeen := seen } := by
  have hasEdges (n : Node) := hasEdges_of_entries (n := n) isEntry isOther
  have parents (n q : Node) := parents_of_entries (n := n) isEntry isOther q
  refine ⟨fun {n} isNode => ?_, fun {n q} isParent => ?_, fun {n c} isNode isBoolean notPending isChild => ?_,
    fun n => (isSeen n).trans (hasEdges n).symm, fun n isMem => (hasEdges n).mpr ?_⟩
  · rcases (hasEdges n).mp isNode with isOld | rfl
    · exact linked.formula isOld
    · exact formula
  · have isParent : p.HasEdges q ∧ isBoolean options q = true ∧ n ∈ q.children := by
      rcases (parents n q).mp isParent with isOld | ⟨rfl, isNew⟩
      · exact linked.parents isOld
      · exact areParents q isNew
    exact ⟨(hasEdges q).mpr (.inl isParent.1), isParent.2⟩
  · rw [isPending n, not_or, not_and_not_right] at notPending
    have isOld : p.HasEdges n := ((hasEdges n).mp isNode).elim id notPending.2
    exact (parents c n).mpr (.inl (linked.children isOld isBoolean notPending.1 isChild))
  · exact ((isPending n).mp isMem).imp (linked.pending n) (·.1)

/-- The child is to be visited unless it was seen before. -/
theorem Linked.addBackEdge (s : CircuitPropagator × List Node)
    (linked : Linked options (current :: nodes ++ s.2) s.1) (boolean : isBoolean options current = true)
    (isChild : child ∈ current.children)
    : Linked options (current :: nodes ++ (addBackEdge current s child).2) (addBackEdge current s child).1
      ∧ Links s.1 (addBackEdge current s child).1
      ∧ current ∈ ((addBackEdge current s child).1.dBackEdges child).getD [] := by
  obtain ⟨p, new⟩ := s
  have isEntry := Function.update_self child (some ((p.dBackEdges child).getD [] ++ [current])) p.dBackEdges
  have isOther (n : Node) (differs : n ≠ child) := Function.update_of_ne differs
    (some ((p.dBackEdges child).getD [] ++ [current])) p.dBackEdges
  have isCurrent : p.HasEdges current := linked.pending current (by simp)
  have formula := (gate_of_child (linked.formula isCurrent) boolean isChild).formulas child isChild
  have areParents : ∀ q ∈ [current], p.HasEdges q ∧ isBoolean options q = true ∧ child ∈ q.children :=
    List.forall_mem_singleton.mpr ⟨isCurrent, boolean, isChild⟩
  have parents (n : Node) := parents_of_entries (n := n) isEntry isOther
  have links {seen : List Node} : Links p { p with
      dBackEdges := Function.update p.dBackEdges child (some ((p.dBackEdges child).getD [] ++ [current])), dSeen := seen } :=
    ⟨fun isNode => (hasEdges_of_entries isEntry isOther).mpr (.inl isNode),
      fun isParent => (parents _ _).mpr (.inl isParent), rfl, rfl, rfl, rfl, rfl⟩
  rw [CircuitPropagator.addBackEdge]
  simp only
  split
  · next isSeen =>
      have isOld : p.HasEdges child := (linked.seen child).mp isSeen
      refine ⟨linked.setEntry formula isEntry isOther areParents (fun n => ?_) (fun n => ?_), links,
        (parents child current).mpr (.inr ⟨rfl, List.mem_cons_self⟩)⟩
      · rw [linked.seen n]
        exact ⟨.inl, fun isNode => isNode.elim id fun isSame => isSame ▸ isOld⟩
      · exact ⟨.inl, fun isNode => isNode.elim id fun isSame => absurd (isSame.1 ▸ isOld) isSame.2⟩
  · next notSeen =>
      have isFirst : ¬ p.HasEdges child := fun isOld => notSeen ((linked.seen child).mpr isOld)
      refine ⟨linked.setEntry formula isEntry isOther areParents (fun n => ?_) (fun n => ?_), links,
        (parents child current).mpr (.inr ⟨rfl, List.mem_cons_self⟩)⟩
      · rw [List.mem_append, List.mem_singleton, linked.seen n]
      · rw [← List.append_assoc, List.mem_append, List.mem_singleton]
        exact or_congr_right ⟨fun isSame => ⟨isSame, isSame ▸ isFirst⟩, (·.1)⟩

theorem Linked.foldl_addBackEdge (s : CircuitPropagator × List Node) {children : List Node}
    (linked : Linked options (current :: nodes ++ s.2) s.1) (boolean : isBoolean options current = true)
    (isChildren : ∀ c ∈ children, c ∈ current.children)
    : Linked options (current :: nodes ++ (children.foldl (CircuitPropagator.addBackEdge current) s).2)
        (children.foldl (CircuitPropagator.addBackEdge current) s).1
      ∧ Links s.1 (children.foldl (CircuitPropagator.addBackEdge current) s).1
      ∧ ∀ c ∈ children, current ∈ ((children.foldl (CircuitPropagator.addBackEdge current) s).1.dBackEdges c).getD [] := by
  induction children generalizing s with
  | nil => exact ⟨linked, .refl s.1, fun c isMem => by cases isMem⟩
  | cons child rest ih =>
      obtain ⟨linked', links, isParent⟩ := linked.addBackEdge s boolean (isChildren child List.mem_cons_self)
      obtain ⟨linkedAll, linksAll, isParentAll⟩ := ih (CircuitPropagator.addBackEdge current s child) linked'
        fun c isMem => isChildren c (List.mem_cons_of_mem child isMem)
      refine ⟨linkedAll, links.trans linksAll, fun c isMem => ?_⟩
      rcases List.mem_cons.mp isMem with rfl | isRest
      · exact linksAll.parents isParent
      · exact isParentAll c isRest

theorem Linked.visit (linked : Linked options (current :: nodes) p)
    : Linked options (nodes ++ (visit options current p).2) (visit options current p).1
      ∧ Links p (visit options current p).1 := by
  rw [CircuitPropagator.visit]
  split
  · next boolean =>
      obtain ⟨linked', links, isParent⟩ := Linked.foldl_addBackEdge (p, []) (by simpa using linked) boolean
        fun c isMem => isMem
      refine ⟨linked'.mono (fun n isMem => linked'.pending n (List.mem_cons_of_mem current isMem)) ?_, links⟩
      intro n isVisited isPending _ c isChild
      rcases List.mem_cons.mp isPending with rfl | isRest
      · exact isParent c isChild
      · exact absurd isRest isVisited
  · next notBoolean =>
      refine ⟨linked.mono (fun n isMem => linked.pending n (List.mem_cons_of_mem current (by simpa using isMem))) ?_,
        .refl p⟩
      intro n isVisited isPending boolean c isChild
      rcases List.mem_cons.mp isPending with rfl | isRest
      · exact absurd boolean notBoolean
      · exact absurd (List.mem_append_left _ isRest) isVisited

theorem Linked.visitAll (linked : Linked options toVisit p)
    : Linked options [] ((visitList options).run p toVisit) ∧ Links p ((visitList options).run p toVisit) := by
  refine (visitList options).run_invariant (I := fun q pending => Linked options pending q ∧ Links p q) ?_
    ⟨linked, .refl p⟩
  rintro current rest q ⟨linked, links⟩
  obtain ⟨linked', links'⟩ := linked.visit
  exact ⟨linked', links.trans links'⟩

theorem dBackEdges_addRoot (p : CircuitPropagator) (n : Node)
    : (p.addRoot n).dBackEdges = Function.update p.dBackEdges n (some ((p.dBackEdges n).getD [])) := rfl

theorem Links.addRoot (p : CircuitPropagator) (n : Node) : Links p (p.addRoot n) := by
  refine ⟨fun {m} isNode => ?_, fun {q m} isParent => ?_, rfl, rfl, rfl, rfl, rfl⟩
  · rw [HasEdges, dBackEdges_addRoot, Function.update_apply]
    split
    · rfl
    · exact isNode
  · rw [dBackEdges_addRoot, Function.update_apply]
    split
    · next isSame => exact isSame ▸ isParent
    · exact isParent

theorem hasEdges_addRoot (p : CircuitPropagator) (n : Node) : (p.addRoot n).HasEdges n := by
  rw [HasEdges, dBackEdges_addRoot, Function.update_self]
  rfl

/-- The root has an entry, and is to be visited unless it was seen before. -/
theorem Linked.addRoot (linked : Linked options [] p) (formula : n.typeOf = some .bool)
    : Linked options (if n ∈ p.dSeen then [] else [n]) (p.addRoot n) := by
  refine linked.setEntry formula ((Function.update_self ..).trans (by rw [List.append_nil]))
    (fun m differs => Function.update_of_ne differs ..) (fun q (isMem : q ∈ []) => by cases isMem) (fun m => ?_) (fun m => ?_)
  · split
    · next isSeen =>
        rw [linked.seen m]
        exact ⟨.inl, fun isNode => isNode.elim id fun isSame => isSame ▸ (linked.seen n).mp isSeen⟩
    · rw [List.mem_append, List.mem_singleton, linked.seen m]
  · rw [← linked.seen m]
    split
    · next isSeen => exact ⟨.inl, fun isNode => isNode.elim id fun isSame => absurd (isSame.1 ▸ isSeen) isSame.2⟩
    · next notSeen => simpa using fun isSame => isSame ▸ notSeen

theorem Inv.computeBackEdges (inv : Inv options asserted p) (formula : n.typeOf = some .bool)
    : Inv options asserted (p.computeBackEdges options n) ∧ (p.computeBackEdges options n).HasEdges n
      ∧ (p.computeBackEdges options n).saved = p.saved := by
  obtain ⟨linked, links⟩ := (inv.linked.addRoot formula).visitAll
  rw [CircuitPropagator.computeBackEdges]
  have isRoot := links.hasEdges (hasEdges_addRoot p n)
  have links := (Links.addRoot p n).trans links
  refine ⟨⟨linked, ?_, fun m => ?_, fun {m value} isValue => ?_, ?_, ?_⟩, isRoot, links.saved⟩
  · rw [links.queue]
    exact inv.queue
  · rw [links.queue, isAssigned, links.state]
    exact inv.queued m
  · rw [links.state] at isValue
    obtain ⟨isNode, entails⟩ := inv.assigned isValue
    exact ⟨links.hasEdges isNode, entails⟩
  · rw [links.learned]
    exact inv.learned
  · rw [links.conflict]
    exact inv.conflict

theorem Inv.append (inv : Inv options asserted p) (more : List Node) : Inv options (asserted ++ more) p where
  linked := inv.linked
  queue := inv.queue
  queued := inv.queued
  assigned isValue := ⟨(inv.assigned isValue).1, (inv.assigned isValue).2.append more⟩
  learned literal isMem := (inv.learned literal isMem).append more
  conflict isConflict truth models :=
    inv.conflict isConflict truth ⟨models.1, fun a isMem => models.2 a (List.mem_append_left more isMem)⟩

theorem Inv.assertAll {assertions : List Node}
    (each : ∀ a ∈ assertions, ∀ p, Inv options asserted p →
      Inv options asserted (p.assertTrue options a) ∧ (p.assertTrue options a).saved = p.saved)
    (inv : Inv options asserted p)
    : Inv options asserted (p.assertAll options assertions) ∧ (p.assertAll options assertions).saved = p.saved := by
  induction assertions generalizing p with
  | nil =>
      rw [CircuitPropagator.assertAll]
      exact ⟨inv, rfl⟩
  | cons a rest ih =>
      obtain ⟨inv', saved⟩ := each a List.mem_cons_self p inv
      rw [CircuitPropagator.assertAll]
      obtain ⟨invAll, savedAll⟩ := ih (fun b isMem => each b (List.mem_cons_of_mem a isMem)) inv'
      exact ⟨invAll, savedAll.trans saved⟩

/-- An entailed formula may be asserted, conjunct by conjunct. -/
theorem Inv.assertTrue (inv : Inv options asserted p) {assertion : Node} (formula : assertion.typeOf = some .bool)
    (entails : Entails asserted assertion true)
    : Inv options asserted (p.assertTrue options assertion) ∧ (p.assertTrue options assertion).saved = p.saved := by
  induction hsize : sizeOf assertion using Nat.strongRecOn generalizing assertion p with
  | _ size ih =>
      subst hsize
      unfold CircuitPropagator.assertTrue
      split
      · refine ⟨(inv.makeConflict fun truth models => ?_).inv, rfl⟩
        cases (models.1.const false).symm.trans (entails truth models)
      · next children =>
          refine inv.assertAll fun a isMem p inv => ih (sizeOf a) ?_ inv ?_ (fun truth models => ?_) rfl
          · have isLess := List.sizeOf_lt_of_mem isMem
            simp only [Node.apply.sizeOf_spec]
            omega
          · exact ((nary_formula_iff (.inr rfl)).mp formula).2 a isMem
          · have isAnd := (models.1.and children).symm.trans (entails truth models)
            exact List.all_eq_true.mp isAnd a isMem
      · obtain ⟨invEdges, hasEdges, saved⟩ := inv.computeBackEdges formula
        have step := invEdges.assign hasEdges entails
        exact ⟨step.inv, step.grows.saved.trans saved⟩

-- Runs

/-- The states after any operations, with the formulas that were asserted since the last initialization. Callers may
drop learned literals.
-/
inductive Reached (options : CircuitOptions) : List Node → CircuitPropagator → Prop
  | start : Reached options [] empty.initializeContext
  | initializeContext {asserted : List Node} {p : CircuitPropagator} (reached : Reached options asserted p)
    : Reached options [] p.initializeContext
  | assertTrue {asserted : List Node} {p : CircuitPropagator} (reached : Reached options asserted p) (assertion : Node)
    (formula : assertion.isFormula = true)
    : Reached options (asserted ++ [assertion]) (p.assertTrue options assertion)
  | propagate {asserted : List Node} {p p' : CircuitPropagator} {fuel : Nat} (reached : Reached options asserted p)
    (isResult : p.propagate options fuel = some p')
    : Reached options asserted p'
  | keepLearned {asserted : List Node} {p : CircuitPropagator} (reached : Reached options asserted p)
    {kept : List Node} (isKept : kept.Sublist p.dLearnedLiterals)
    : Reached options asserted { p with dLearnedLiterals := kept }

theorem linked_empty : Linked options [] empty.initializeContext where
  formula isNode := by cases isNode
  parents isParent := by cases isParent
  children isNode _ _ _ := by cases isNode
  seen n := iff_of_false (List.not_mem_nil) (Bool.false_ne_true)
  pending n isMem := by cases isMem

theorem inv_empty : Inv options [] empty.initializeContext where
  linked := linked_empty
  queue := List.nodup_nil
  queued n := iff_of_false (List.not_mem_nil) (Bool.false_ne_true)
  assigned isValue := by cases isValue
  learned literal isMem := by cases isMem
  conflict isConflict := by cases isConflict

/-- Every reachable state has the invariant, by induction on the operations; what a backtrack returns to is
the initial state.
-/
theorem Reached.inv (reached : Reached options asserted p)
    : Inv options asserted p ∧ p.saved = empty.initializeContext.saved := by
  induction reached with
  | start => exact ⟨inv_empty, rfl⟩
  | @initializeContext asserted p _ ih =>
      have isFresh : p.initializeContext = empty.initializeContext := by
        rw [CircuitPropagator.initializeContext, pop, ih.2]
        rfl
      rw [isFresh]
      exact ⟨inv_empty, rfl⟩
  | assertTrue _ assertion formula ih =>
      obtain ⟨inv, saved⟩ := (ih.1.append [assertion]).assertTrue (formula_iff_typeOf.mp formula)
        fun truth models => models.2 assertion (List.mem_append_right _ List.mem_cons_self)
      exact ⟨inv, saved.trans ih.2⟩
  | @propagate asserted p p' fuel _ isResult ih =>
      obtain ⟨q, isResult', step⟩ := ih.1.propagateFrom (fuel + p.dSeen.length) 0 (by omega)
      have isSame := propagateFrom_of_le isResult (Nat.le_add_right fuel p.dSeen.length)
      rw [← Option.some_inj.mp (isResult'.symm.trans isSame)]
      exact ⟨step.inv, step.grows.saved.trans ih.2⟩
  | keepLearned _ isKept ih =>
      exact ⟨⟨ih.1.linked.congr rfl rfl, ih.1.queue, ih.1.queued, ih.1.assigned,
        fun literal isMem => ih.1.learned literal (isKept.subset isMem), ih.1.conflict⟩, ih.2⟩

/-- Whatever was asserted and propagated: values and learned literals are entailed by the assertions, a conflict shows
that they are unsatisfiable, and the next propagation ends, on defined ground, and keeps all values.
-/
theorem propagate_sound (reached : Reached options asserted p)
    : (∀ n value, p.dState n = some value → Entails asserted n value)
      ∧ (∀ literal ∈ p.dLearnedLiterals, Entails asserted literal true)
      ∧ (p.dConflict = true → ∀ truth, ¬ Models asserted truth)
      ∧ ∃ p', (∀ fuel, p.dSeen.length ≤ fuel → p.propagate options fuel = some p')
        ∧ ∀ n value, p.dState n = some value → p'.dState n = some value := by
  obtain ⟨inv, -⟩ := reached.inv
  obtain ⟨p', isResult, step⟩ := inv.propagateFrom p.dSeen.length 0 (by omega)
  exact ⟨fun n value isValue => (inv.assigned isValue).2, inv.learned, inv.conflict, p',
    fun fuel isMore => propagateFrom_of_le isResult isMore, fun n value isValue => step.grows.state isValue⟩

def bothDirections : CircuitOptions := ⟨fun _ => true, true, true⟩

/-- The assertion of `x ∧ (x → y)`. -/
def modusPonens : CircuitPropagator :=
  empty.initializeContext.assertTrue bothDirections
    (.apply .and [.apply (.op 0 .bool) [], .apply .implies [.apply (.op 0 .bool) [], .apply (.op 1 .bool) []]])

theorem propagate_modusPonens
    : ∃ asserted, (∀ n value, modusPonens.dState n = some value → Entails asserted n value)
      ∧ (∀ literal ∈ modusPonens.dLearnedLiterals, Entails asserted literal true)
      ∧ (modusPonens.dConflict = true → ∀ truth, ¬ Models asserted truth)
      ∧ ∃ p', (∀ fuel, modusPonens.dSeen.length ≤ fuel → modusPonens.propagate bothDirections fuel = some p')
        ∧ ∀ n value, modusPonens.dState n = some value → p'.dState n = some value :=
  ⟨_, propagate_sound (.assertTrue .start _ (by decide))⟩

/-- The edges lead from the children of the Boolean nodes that were seen to these nodes, and no others. -/
theorem backEdges_exact (reached : Reached options asserted p) (child parent : Node)
    : (∃ parents, p.dBackEdges child = some parents ∧ parent ∈ parents)
      ↔ parent ∈ p.dSeen ∧ isBoolean options parent = true ∧ child ∈ parent.children := by
  obtain ⟨inv, -⟩ := reached.inv
  rw [inv.linked.seen]
  constructor
  · rintro ⟨parents, isEntry, isParent⟩
    exact inv.linked.parents (by rwa [isEntry])
  · rintro ⟨hasEdges, boolean, isChild⟩
    have isParent := inv.linked.children hasEdges boolean List.not_mem_nil isChild
    obtain ⟨parents, isEntry⟩ := Option.isSome_iff_exists.mp (hasEdges_of_parent isParent)
    rw [isEntry] at isParent
    exact ⟨parents, isEntry, isParent⟩

theorem backEdges_modusPonens
    : (∃ parents, modusPonens.dBackEdges (.apply (.op 0 .bool) []) = some parents
        ∧ .apply .implies [.apply (.op 0 .bool) [], .apply (.op 1 .bool) []] ∈ parents)
      ↔ .apply .implies [.apply (.op 0 .bool) [], .apply (.op 1 .bool) []] ∈ modusPonens.dSeen
        ∧ isBoolean bothDirections (.apply .implies [.apply (.op 0 .bool) [], .apply (.op 1 .bool) []]) = true
        ∧ .apply (.op 0 .bool) [] ∈ Node.children (.apply .implies [.apply (.op 0 .bool) [], .apply (.op 1 .bool) []]) :=
  backEdges_exact (.assertTrue .start _ (by decide)) _ _

end CircuitPropagator

end Ava6.Booleans

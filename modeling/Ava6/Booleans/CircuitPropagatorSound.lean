import Ava6.Booleans.CircuitPropagator

/-! Soundness of the propagator: every value is entailed by the assertions, a conflict shows that they are unsatisfiable,
and the propagation ends, on defined ground.
-/

namespace Ava6.Booleans

namespace CircuitPropagator

/-- The truth of nodes under a valuation in which the assertions are true. -/
def Models (asserted : List Node) (truth : Node → Bool) : Prop := Truth truth ∧ ∀ a ∈ asserted, truth a = true

def Entails (asserted : List Node) (n : Node) (value : Bool) : Prop := ∀ truth, Models asserted truth → truth n = value

theorem Entails.append {asserted : List Node} {n : Node} {value : Bool} (entails : Entails asserted n value)
    (more : List Node)
    : Entails (asserted ++ more) n value :=
  fun truth models => entails truth ⟨models.1, fun a isMem => models.2 a (List.mem_append_left more isMem)⟩

/-- The formulas that are propagated to their children, which are formulas. -/
inductive Gate : Node → Prop
  | and {children : List Node} (formulas : ∀ c ∈ children, c.typeOf = some .bool) : Gate (.apply .and children)
  | or {children : List Node} (formulas : ∀ c ∈ children, c.typeOf = some .bool) : Gate (.apply .or children)
  | not {x : Node} (formula : x.typeOf = some .bool) : Gate (.apply .not [x])
  | implies {x y : Node} (first : x.typeOf = some .bool) (second : y.typeOf = some .bool) : Gate (.apply .implies [x, y])
  | xor {x y : Node} (first : x.typeOf = some .bool) (second : y.typeOf = some .bool) : Gate (.apply .xor [x, y])
  | equal {x y : Node} (first : x.typeOf = some .bool) (second : y.typeOf = some .bool) : Gate (.apply .equal [x, y])
  | ite {c x y : Node} (condition : c.typeOf = some .bool) (first : x.typeOf = some .bool)
    (second : y.typeOf = some .bool)
    : Gate (.apply .ite [c, x, y])

variable {options : CircuitOptions} {asserted : List Node} {p p' p'' : CircuitPropagator}
    {n parent child c x y : Node} {children nodes toVisit : List Node} {value : Bool}

theorem Gate.formulas (gate : Gate n) : ∀ c ∈ n.children, c.typeOf = some .bool := by
  cases gate with
  | and formulas => exact formulas
  | or formulas => exact formulas
  | not formula => simpa [Node.children] using formula
  | implies first second => simpa [Node.children] using ⟨first, second⟩
  | xor first second => simpa [Node.children] using ⟨first, second⟩
  | equal first second => simpa [Node.children] using ⟨first, second⟩
  | ite condition first second => simpa [Node.children] using ⟨condition, first, second⟩

/-- Formulas of the Boolean theory are constants, variables or gates. -/
theorem gate_of_isBoolean (formula : n.typeOf = some .bool) (boolean : isBoolean options n = true)
    : (∃ b, n = .const b) ∨ (isVar options n = true ∧ n.children = []) ∨ Gate n := by
  cases n with
  | const b => exact .inl ⟨b, rfl⟩
  | constInteger i => cases formula
  | apply k nodes =>
      cases k with
      | op symbol range =>
          rw [isBoolean, Bool.and_eq_true] at boolean
          cases nodes with
          | nil => exact .inr (.inl ⟨boolean.1, rfl⟩)
          | cons first rest => cases boolean.1
      | and => exact .inr (.inr (.and ((nary_formula_iff (.inr rfl)).mp formula).2))
      | or => exact .inr (.inr (.or ((nary_formula_iff (.inl rfl)).mp formula).2))
      | not =>
          obtain ⟨a, rfl⟩ := unary_formula formula
          exact .inr (.inr (.not (formula_not_iff.mp formula)))
      | implies =>
          obtain ⟨a, b, rfl⟩ := binary_formula (.inl rfl) formula
          obtain ⟨first, second⟩ := implies_formula formula
          exact .inr (.inr (.implies first second))
      | xor =>
          obtain ⟨a, b, rfl⟩ := binary_formula (.inr (.inl rfl)) formula
          obtain ⟨first, second⟩ := xor_formula formula
          exact .inr (.inr (.xor first second))
      | equal =>
          obtain ⟨a, b, rfl⟩ := binary_formula (.inr (.inr rfl)) formula
          have first : a.typeOf = some .bool := formula_iff_typeOf.mp (by simpa [isBoolean] using boolean)
          exact .inr (.inr (.equal first ((equal_formula_iff first).mp formula)))
      | ite =>
          obtain ⟨c, a, b, rfl, -⟩ := ite_formula formula
          obtain ⟨condition, first, second⟩ := ite_formula_iff.mp formula
          exact .inr (.inr (.ite condition first second))

theorem gate_of_child (formula : n.typeOf = some .bool) (boolean : isBoolean options n = true) (isChild : c ∈ n.children)
    : Gate n := by
  rcases gate_of_isBoolean formula boolean with ⟨b, rfl⟩ | ⟨-, isLeaf⟩ | gate
  · cases isChild
  · rw [isLeaf] at isChild
    cases isChild
  · exact gate

def HasEdges (p : CircuitPropagator) (n : Node) : Prop := (p.dBackEdges n).isSome = true

theorem hasEdges_of_parent (isParent : parent ∈ (p.dBackEdges child).getD []) : p.HasEdges child := by
  rw [HasEdges]
  cases isEntry : p.dBackEdges child with
  | none =>
      rw [isEntry] at isParent
      cases isParent
  | some parents => rfl

/-- Edges are between children and their parents, and every node is a parent of its children unless it is still to visit. -/
structure Linked (options : CircuitOptions) (toVisit : List Node) (p : CircuitPropagator) : Prop where
  formula {n : Node} (hasEdges : p.HasEdges n) : n.typeOf = some .bool
  parents {child parent : Node} (isParent : parent ∈ (p.dBackEdges child).getD [])
    : p.HasEdges parent ∧ isBoolean options parent = true ∧ child ∈ parent.children
  children {n c : Node} (hasEdges : p.HasEdges n) (boolean : isBoolean options n = true) (isVisited : n ∉ toVisit)
    (isChild : c ∈ n.children)
    : n ∈ (p.dBackEdges c).getD []
  seen (n : Node) : n ∈ p.dSeen ↔ p.HasEdges n
  pending : ∀ n ∈ toVisit, p.HasEdges n

/-- The nodes in the queue are the assigned ones, and what is assigned and learned is entailed. -/
structure Inv (options : CircuitOptions) (asserted : List Node) (p : CircuitPropagator) : Prop where
  linked : Linked options [] p
  queue : p.dPropagationQueue.Nodup
  queued (n : Node) : n ∈ p.dPropagationQueue ↔ p.isAssigned n = true
  assigned {n : Node} {value : Bool} (isValue : p.dState n = some value) : p.HasEdges n ∧ Entails asserted n value
  learned : ∀ literal ∈ p.dLearnedLiterals, Entails asserted literal true
  conflict : p.dConflict = true → ∀ truth, ¬ Models asserted truth

/-- Values and queued nodes stay. -/
structure Grows (p p' : CircuitPropagator) : Prop where
  backEdges : p'.dBackEdges = p.dBackEdges
  seen : p'.dSeen = p.dSeen
  saved : p'.saved = p.saved
  state {n : Node} {value : Bool} (isValue : p.dState n = some value) : p'.dState n = some value
  queue : p.dPropagationQueue <+: p'.dPropagationQueue

theorem Grows.refl (p : CircuitPropagator) : Grows p p := ⟨rfl, rfl, rfl, id, List.prefix_refl _⟩

theorem Grows.trans (first : Grows p p') (second : Grows p' p'') : Grows p p'' where
  backEdges := second.backEdges.trans first.backEdges
  seen := second.seen.trans first.seen
  saved := second.saved.trans first.saved
  state isValue := second.state (first.state isValue)
  queue := first.queue.trans second.queue

theorem Grows.hasEdges (grows : Grows p p') : p'.HasEdges n ↔ p.HasEdges n := by
  rw [HasEdges, HasEdges, grows.backEdges]

structure Step (options : CircuitOptions) (asserted : List Node) (p p' : CircuitPropagator) : Prop where
  inv : Inv options asserted p'
  grows : Grows p p'

theorem Inv.refl (inv : Inv options asserted p) : Step options asserted p p := ⟨inv, .refl p⟩

theorem Step.trans (first : Step options asserted p p') (second : Step options asserted p' p'')
    : Step options asserted p p'' :=
  ⟨second.inv, first.grows.trans second.grows⟩

theorem Inv.entails (inv : Inv options asserted p) (isAssigned : p.isAssignedTo n value = true)
    : Entails asserted n value :=
  (inv.assigned (by simpa [isAssignedTo] using isAssigned)).2

theorem Linked.congr (linked : Linked options toVisit p) (sameEdges : p'.dBackEdges = p.dBackEdges)
    (sameSeen : p'.dSeen = p.dSeen)
    : Linked options toVisit p' := by
  have hasEdges (n : Node) : p'.HasEdges n ↔ p.HasEdges n := by rw [HasEdges, HasEdges, sameEdges]
  refine ⟨fun isNode => linked.formula ((hasEdges _).mp isNode), fun isParent => ?_,
    fun isNode boolean isVisited isChild => ?_, fun n => ?_, fun n isMem => ?_⟩
  · rw [sameEdges] at isParent
    rw [hasEdges]
    exact linked.parents isParent
  · rw [sameEdges]
    exact linked.children ((hasEdges _).mp isNode) boolean isVisited isChild
  · rw [sameSeen, hasEdges]
    exact linked.seen n
  · rw [hasEdges]
    exact linked.pending n isMem

-- Assignment

theorem Inv.makeConflict (inv : Inv options asserted p) (isFalse : ∀ truth, ¬ Models asserted truth)
    : Step options asserted p p.makeConflict :=
  ⟨⟨inv.linked.congr rfl rfl, inv.queue, inv.queued, inv.assigned, inv.learned, fun _ => isFalse⟩,
    ⟨rfl, rfl, rfl, id, List.prefix_refl _⟩⟩

/-- A value that is entailed may be assigned, also where it shows a conflict. -/
theorem Inv.assign (inv : Inv options asserted p) (isNode : p.HasEdges n) (entails : Entails asserted n value)
    : Step options asserted p (p.assignAndEnqueue n value) := by
  rw [assignAndEnqueue]
  split
  · next isConstant =>
      refine inv.makeConflict fun truth models => ?_
      have isValue := entails truth models
      rw [isConstant, models.1.const] at isValue
      cases value <;> cases isValue
  · cases isState : p.dState n with
    | some state =>
        simp only
        split
        · next differs =>
            refine inv.makeConflict fun truth models => differs ?_
            rw [← entails truth models, (inv.assigned isState).2 truth models]
        · exact inv.refl
    | none =>
        have isOther {m : Node} {b : Bool} (isValue : p.dState m = some b) : m ≠ n := fun isSame => by
          rw [isSame, isState] at isValue
          cases isValue
        have notQueued : n ∉ p.dPropagationQueue := fun isMem => by
          have isAssigned := (inv.queued n).mp isMem
          rw [CircuitPropagator.isAssigned, isState] at isAssigned
          cases isAssigned
        refine ⟨⟨inv.linked.congr rfl rfl, ?_, fun m => ?_, fun {m b} isValue => ?_, inv.learned, inv.conflict⟩,
          ⟨rfl, rfl, rfl, fun isValue => ?_, List.prefix_append _ _⟩⟩
        · exact List.nodup_append.mpr ⟨inv.queue, List.nodup_singleton n, by
            rintro a isMem b isNew rfl
            rw [List.mem_singleton] at isNew
            exact notQueued (isNew ▸ isMem)⟩
        · rw [List.mem_append, List.mem_singleton, inv.queued m, isAssigned, isAssigned]
          by_cases isSame : m = n
          · simp [isSame]
          · simp [isSame]
        · by_cases isSame : m = n
          · subst isSame
            cases (Function.update_self ..).symm.trans isValue
            exact ⟨isNode, entails⟩
          · exact inv.assigned ((Function.update_of_ne isSame ..).symm.trans isValue)
        · exact (Function.update_of_ne (isOther isValue) ..).trans isValue

theorem Inv.assignIf (inv : Inv options asserted p) (condition : Prop) [Decidable condition] (value : Bool)
    (isNode : p.HasEdges n) (entails : condition → Entails asserted n value)
    : Step options asserted p (if condition then p.assignAndEnqueue n value else p) := by
  split
  · next holds => exact inv.assign isNode (entails holds)
  · exact inv.refl

theorem Inv.assignAll (inv : Inv options asserted p)
    (each : ∀ n ∈ nodes, p.HasEdges n ∧ Entails asserted n value)
    : Step options asserted p (p.assignAll nodes value) := by
  induction nodes generalizing p with
  | nil => exact inv.refl
  | cons n rest ih =>
      obtain ⟨isNode, entails⟩ := each n List.mem_cons_self
      have first := inv.assign isNode entails
      refine first.trans (ih first.inv fun m isMem => ?_)
      rw [first.grows.hasEdges]
      exact each m (List.mem_cons_of_mem n isMem)

/-- The computation is defined and takes a step. -/
def Runs (options : CircuitOptions) (asserted : List Node) (p : CircuitPropagator) (r : Option CircuitPropagator) : Prop :=
  ∃ p', r = some p' ∧ Step options asserted p p'

theorem Step.runs (step : Step options asserted p p') : Runs options asserted p (some p') := ⟨p', rfl, step⟩

theorem Runs.after {r : Option CircuitPropagator} (second : Runs options asserted p' r)
    (first : Step options asserted p p')
    : Runs options asserted p r := by
  obtain ⟨p'', isResult, step⟩ := second
  exact ⟨p'', isResult, first.trans step⟩

theorem Runs.bind {r : Option CircuitPropagator} {f : CircuitPropagator → Option CircuitPropagator}
    (first : Runs options asserted p r) (second : ∀ p', Step options asserted p p' → Runs options asserted p' (f p'))
    : Runs options asserted p (r.bind f) := by
  obtain ⟨p', rfl, step⟩ := first
  obtain ⟨p'', isResult, step'⟩ := second p' step
  exact ⟨p'', isResult, step.trans step'⟩

-- Conjunctions and disjunctions

/-- The parent has the value of its children where they all have it. -/
def IsNary (asserted : List Node) (parent : Node) (children : List Node) (neutral : Bool) : Prop :=
  ∀ truth, Models asserted truth → (truth parent = neutral ↔ ∀ c ∈ children, truth c = neutral)

theorem isNary_and (asserted children : List Node) : IsNary asserted (.apply .and children) children true :=
  fun truth models => by
    rw [models.1.and, List.all_eq_true]

theorem isNary_or (asserted children : List Node) : IsNary asserted (.apply .or children) children false :=
  fun truth models => by
    rw [models.1.or]
    simp

theorem eq_not_of_ne {a b : Bool} (differs : a ≠ b) : a = !b := by
  cases a <;> cases b <;> simp_all

/-- If all children but one are neutral and the parent is not, then that one is not. -/
theorem IsNary.entails_holdout {neutral : Bool} (isNary : IsNary asserted parent children neutral) {holdout : Node}
    (isParent : Entails asserted parent (!neutral)) (others : ∀ c ∈ children, c = holdout ∨ Entails asserted c neutral)
    : Entails asserted holdout (!neutral) := fun truth models => by
  refine eq_not_of_ne fun isNeutral => ?_
  have isParentNeutral := (isNary truth models).mpr fun c isMem => by
    rcases others c isMem with rfl | entails
    · exact isNeutral
    · exact entails truth models
  rw [isParent truth models] at isParentNeutral
  cases neutral <;> cases isParentNeutral

theorem findIfUnique_spec {pred : Node → Bool} {holdout : Node} (isFound : findIfUnique pred nodes = some holdout)
    : holdout ∈ nodes ∧ ∀ c ∈ nodes, c = holdout ∨ pred c = false := by
  induction nodes with
  | nil => cases isFound
  | cons n rest ih =>
      rw [findIfUnique] at isFound
      split at isFound
      · split at isFound
        · cases isFound
        · next notOther =>
            cases isFound
            refine ⟨List.mem_cons_self, fun c isMem => ?_⟩
            rcases List.mem_cons.mp isMem with rfl | isRest
            · exact .inl rfl
            · exact .inr (by simpa using fun isPred => notOther (List.any_eq_true.mpr ⟨c, isRest, isPred⟩))
      · next notPred =>
          obtain ⟨isMem, others⟩ := ih isFound
          refine ⟨List.mem_cons_of_mem n isMem, fun c isChild => ?_⟩
          rcases List.mem_cons.mp isChild with rfl | isRest
          · exact .inr (by simpa using notPred)
          · exact others c isRest

theorem Inv.backwardNary (inv : Inv options asserted p) {neutral : Bool}
    (isNary : IsNary asserted parent children neutral) (isChildren : ∀ c ∈ children, p.HasEdges c)
    (isParent : Entails asserted parent value)
    : Step options asserted p (p.backwardNary children neutral value) := by
  rw [CircuitPropagator.backwardNary]
  split
  · next isNeutral =>
      subst isNeutral
      exact inv.assignAll fun c isMem =>
        ⟨isChildren c isMem, fun truth models => (isNary truth models).mp (isParent truth models) c isMem⟩
  · next notNeutral =>
      rw [eq_not_of_ne notNeutral] at isParent
      split
      · next isFound =>
          obtain ⟨isMem, others⟩ := findIfUnique_spec isFound
          refine inv.assign (isChildren _ isMem) (isNary.entails_holdout isParent fun c isChild => ?_)
          refine (others c isChild).imp_right fun isAssigned => inv.entails ?_
          simpa using isAssigned
      · exact inv.refl

theorem Inv.forwardNary (inv : Inv options asserted p) {neutral : Bool}
    (isNary : IsNary asserted parent children neutral) (isChildren : ∀ c ∈ children, p.HasEdges c)
    (hasEdges : p.HasEdges parent) (isMem : child ∈ children) (isChild : Entails asserted child value)
    : Step options asserted p (p.forwardNary parent children neutral value) := by
  rw [CircuitPropagator.forwardNary]
  split
  · have isPrefix := List.takeWhile_append_dropWhile (p := (p.isAssignedTo · neutral)) (l := children)
    have before : ∀ c ∈ children.takeWhile (p.isAssignedTo · neutral), Entails asserted c neutral := fun c isBefore => by
      have isAssigned := List.mem_takeWhile_imp isBefore
      exact inv.entails isAssigned
    split
    · next isEnd =>
        rw [isEnd, List.append_nil] at isPrefix
        rw [isPrefix] at before
        exact inv.assign hasEdges fun truth models =>
          (isNary truth models).mpr fun c isChild => before c isChild truth models
    · next holdout rest isEnd =>
        rw [isEnd] at isPrefix
        split
        · next isUnique =>
            rw [Bool.and_eq_true, List.all_eq_true] at isUnique
            refine inv.assign (isChildren holdout ?_)
              (isNary.entails_holdout (inv.entails isUnique.1) fun c isChild => ?_)
            · rw [← isPrefix]
              exact List.mem_append_right _ List.mem_cons_self
            · rw [← isPrefix, List.mem_append, List.mem_cons] at isChild
              rcases isChild with isBefore | rfl | isAfter
              · exact .inr (before c isBefore)
              · exact .inl rfl
              · exact .inr (inv.entails (isUnique.2 c isAfter))
        · exact inv.refl
  · next notNeutral =>
      refine inv.assign hasEdges fun truth models => eq_not_of_ne fun isNeutral => notNeutral ?_
      rw [← isChild truth models]
      exact (isNary truth models).mp isNeutral child isMem

-- The other kinds, to the children

/-- Where the parent has the value, the children determine each other. -/
theorem Models.related_xor {truth : Node → Bool} (models : Models asserted truth)
    (isParent : truth (.apply .xor [x, y]) = value)
    : truth y = (truth x != value) ∧ truth x = (truth y != value) := by
  rw [models.1.xor] at isParent
  subst isParent
  cases truth x <;> cases truth y <;> exact ⟨rfl, rfl⟩

theorem Models.related_equal {truth : Node → Bool} (models : Models asserted truth) (first : x.typeOf = some .bool)
    (second : y.typeOf = some .bool) (isParent : truth (.apply .equal [x, y]) = value)
    : truth y = (if value then truth x else !truth x) ∧ truth x = (if value then truth y else !truth y) := by
  rw [models.1.equal first second] at isParent
  subst isParent
  cases truth x <;> cases truth y <;> exact ⟨rfl, rfl⟩

theorem Inv.propagateOther (inv : Inv options asserted p) {f : Bool → Bool} (first : p.HasEdges x) (second : p.HasEdges y)
    (related : ∀ truth, Models asserted truth → truth y = f (truth x) ∧ truth x = f (truth y))
    : Runs options asserted p (p.propagateOther x y f) := by
  rw [CircuitPropagator.propagateOther, CircuitPropagator.isAssigned, CircuitPropagator.isAssigned,
    CircuitPropagator.getAssignment, CircuitPropagator.getAssignment]
  cases isFirst : p.dState x with
  | some v =>
      refine (inv.assign second fun truth models => ?_).runs
      rw [(related truth models).1, (inv.assigned isFirst).2 truth models]
  | none =>
      cases isSecond : p.dState y with
      | some v =>
          refine (inv.assign first fun truth models => ?_).runs
          rw [(related truth models).2, (inv.assigned isSecond).2 truth models]
      | none => exact inv.refl.runs

theorem Inv.backwardIte (inv : Inv options asserted p) (condition : p.HasEdges c) (first : p.HasEdges x)
    (second : p.HasEdges y) (isParent : Entails asserted (.apply .ite [c, x, y]) value)
    : Runs options asserted p (p.propagateBackward (.apply .ite [c, x, y]) value) := by
  have isIte {truth : Node → Bool} (models : Models asserted truth) : (if truth c then truth x else truth y) = value :=
    (models.1.ite c x y).symm.trans (isParent truth models)
  rw [propagateBackward]
  split
  · next isTrue =>
      refine (inv.assign first fun truth models => ?_).runs
      simpa [inv.entails isTrue truth models] using isIte models
  split
  · next isFalse =>
      refine (inv.assign second fun truth models => ?_).runs
      simpa [inv.entails isFalse truth models] using isIte models
  split
  · next isAssigned =>
      rw [Bool.and_eq_true, CircuitPropagator.isAssigned, CircuitPropagator.isAssigned, Option.isSome_iff_exists,
        Option.isSome_iff_exists] at isAssigned
      obtain ⟨⟨v, isFirst⟩, ⟨w, isSecond⟩⟩ := isAssigned
      simp only [getAssignment, isFirst, isSecond, Option.bind_eq_bind, Option.bind_some]
      have branches {truth : Node → Bool} (models : Models asserted truth) : truth x = v ∧ truth y = w :=
        ⟨(inv.assigned isFirst).2 truth models, (inv.assigned isSecond).2 truth models⟩
      split
      · next isThen =>
          refine (inv.assign condition fun truth models => ?_).runs
          by_contra isFalse
          have isElse := isIte models
          rw [if_neg isFalse, (branches models).2] at isElse
          exact isThen.2 isElse
      split
      · next isElse =>
          refine (inv.assign condition fun truth models => ?_).runs
          by_contra isTrue
          have isThen := isIte models
          rw [if_pos (by simpa using isTrue), (branches models).1] at isThen
          exact isElse.1 isThen
      · exact inv.refl.runs
  · exact inv.refl.runs

theorem Inv.backwardImplies (inv : Inv options asserted p) (first : p.HasEdges x) (second : p.HasEdges y)
    (isParent : Entails asserted (.apply .implies [x, y]) value)
    : Runs options asserted p (p.propagateBackward (.apply .implies [x, y]) value) := by
  have isImplies {truth : Node → Bool} (models : Models asserted truth) : (!truth x || truth y) = value :=
    (models.1.implies x y).symm.trans (isParent truth models)
  rw [propagateBackward]
  split
  · next isTrue =>
      subst isTrue
      have afterFirst := inv.assignIf (p.isAssignedTo x true = true) true second fun isAssigned truth models => by
        simpa [inv.entails isAssigned truth models] using isImplies models
      refine Step.runs (afterFirst.trans (afterFirst.inv.assignIf _ _ (afterFirst.grows.hasEdges.mpr first) ?_))
      intro isAssigned truth models
      simpa [afterFirst.inv.entails isAssigned truth models] using isImplies models
  · next isFalse =>
      rw [Bool.not_eq_true] at isFalse
      subst isFalse
      have values {truth : Node → Bool} (models : Models asserted truth) : truth x = true ∧ truth y = false := by
        simpa using isImplies models
      have afterFirst := inv.assign first fun truth models => (values models).1
      refine Step.runs (afterFirst.trans ?_)
      exact afterFirst.inv.assign (afterFirst.grows.hasEdges.mpr second) fun truth models => (values models).2

/-- The rules from a gate to its children. -/
theorem Inv.propagateBackward (inv : Inv options asserted p) (gate : Gate parent)
    (isChildren : ∀ c ∈ parent.children, p.HasEdges c) (isParent : Entails asserted parent value)
    : Runs options asserted p (p.propagateBackward parent value) := by
  cases gate with
  | and _ => exact (inv.backwardNary (isNary_and asserted _) isChildren isParent).runs
  | or _ => exact (inv.backwardNary (isNary_or asserted _) isChildren isParent).runs
  | not _ =>
      refine (inv.assign (isChildren _ List.mem_cons_self) fun truth models => ?_).runs
      rw [← isParent truth models, models.1.not, Bool.not_not]
  | @implies x y _ _ =>
      exact inv.backwardImplies (isChildren x (by simp [Node.children])) (isChildren y (by simp [Node.children])) isParent
  | @xor x y _ _ =>
      refine inv.propagateOther (isChildren x (by simp [Node.children])) (isChildren y (by simp [Node.children])) ?_
      intro truth models
      have related := models.related_xor (isParent truth models)
      cases value <;> simpa using related
  | @equal x y first second =>
      rw [CircuitPropagator.propagateBackward, if_pos (formula_iff_typeOf.mpr first)]
      exact inv.propagateOther (isChildren x (by simp [Node.children])) (isChildren y (by simp [Node.children]))
        fun truth models => models.related_equal first second (isParent truth models)
  | @ite c x y _ _ _ =>
      exact inv.backwardIte (isChildren c (by simp [Node.children])) (isChildren x (by simp [Node.children]))
        (isChildren y (by simp [Node.children])) isParent

-- The other kinds, to the parents

theorem Inv.iteEval (inv : Inv options asserted p) (hasEdges : p.HasEdges parent)
    (same : ∀ truth, Models asserted truth → truth parent = truth x)
    : Runs options asserted p (p.iteEval x parent) := by
  rw [CircuitPropagator.iteEval, CircuitPropagator.isAssigned, CircuitPropagator.getAssignment]
  cases isBranch : p.dState x with
  | none => exact inv.refl.runs
  | some v =>
      refine (inv.assign hasEdges fun truth models => ?_).runs
      rw [same truth models, (inv.assigned isBranch).2 truth models]

theorem Inv.forwardIte (inv : Inv options asserted p) (hasEdges : p.HasEdges (.apply .ite [c, x, y]))
    (isChild : Entails asserted child value)
    : Runs options asserted p (p.forwardIte child c x y (.apply .ite [c, x, y]) value) := by
  rw [CircuitPropagator.forwardIte, Option.map_eq_bind]
  refine Runs.bind ?_ fun p' step => ?_
  · split
    · next isCondition =>
        refine inv.iteEval hasEdges fun truth models => ?_
        rw [models.1.ite, ← isCondition, isChild truth models]
        split <;> rfl
    · exact inv.refl.runs
  · have hasEdges' := step.grows.hasEdges.mpr hasEdges
    have afterThen := step.inv.assignIf (child = x ∧ p'.isAssignedTo c true = true) value hasEdges'
      fun isThen truth models => by
        rw [models.1.ite, step.inv.entails isThen.2 truth models, if_pos rfl, ← isThen.1, isChild truth models]
    refine Step.runs (afterThen.trans (afterThen.inv.assignIf _ _ (afterThen.grows.hasEdges.mpr hasEdges') ?_))
    rintro ⟨isElse, isFalse⟩ truth models
    rw [models.1.ite, afterThen.inv.entails isFalse truth models, if_neg Bool.false_ne_true, ← isElse,
      isChild truth models]

/-- Both children are assigned, and determine the parent. -/
theorem Inv.assignParent (inv : Inv options asserted p) (hasEdges : p.HasEdges parent) (f : Bool → Bool → Bool)
    (isParent : ∀ truth, Models asserted truth → truth parent = f (truth x) (truth y))
    (areAssigned : (p.isAssigned x && p.isAssigned y) = true)
    : Runs options asserted p ((p.getAssignment x).bind fun first => (p.getAssignment y).bind fun second =>
        some (p.assignAndEnqueue parent (f first second))) := by
  rw [Bool.and_eq_true, CircuitPropagator.isAssigned, CircuitPropagator.isAssigned, Option.isSome_iff_exists,
    Option.isSome_iff_exists] at areAssigned
  obtain ⟨⟨v, isFirst⟩, ⟨w, isSecond⟩⟩ := areAssigned
  rw [getAssignment, getAssignment, isFirst, isSecond]
  refine (inv.assign hasEdges fun truth models => ?_).runs
  rw [isParent truth models, (inv.assigned isFirst).2 truth models, (inv.assigned isSecond).2 truth models]

/-- The parent is assigned, and determines the other child. -/
theorem Inv.assignOther (inv : Inv options asserted p) (first : p.HasEdges x) (second : p.HasEdges y)
    (isMem : child = x ∨ child = y) (isChild : Entails asserted child value) (f : Bool → Bool)
    (related : ∀ truth, Models asserted truth → truth y = f (truth x) ∧ truth x = f (truth y))
    : Runs options asserted p
        (if child = x then some (p.assignAndEnqueue y (f value))
        else if child = y then some (p.assignAndEnqueue x (f value))
        else none) := by
  split
  · next isFirst =>
      refine (inv.assign second fun truth models => ?_).runs
      rw [(related truth models).1, ← isFirst, isChild truth models]
  · next notFirst =>
      have isSecond := isMem.resolve_left notFirst
      rw [if_pos isSecond]
      refine (inv.assign first fun truth models => ?_).runs
      rw [(related truth models).2, ← isSecond, isChild truth models]

theorem Inv.forwardImplies (inv : Inv options asserted p) (first : p.HasEdges x) (second : p.HasEdges y)
    (hasEdges : p.HasEdges (.apply .implies [x, y])) (isChild : Entails asserted child value)
    : Runs options asserted p (p.forwardImplies child x y (.apply .implies [x, y]) value) := by
  rw [CircuitPropagator.forwardImplies]
  split
  · next areAssigned => exact inv.assignParent hasEdges (!· || ·) (fun _ models => models.1.implies x y) areAssigned
  · have afterFirst := inv.assignIf
      (child = x ∧ value = true ∧ p.isAssignedTo (.apply .implies [x, y]) true = true) true second
      fun isFirst truth models => by
        have isImplies := (models.1.implies x y).symm.trans (inv.entails isFirst.2.2 truth models)
        rw [← isFirst.1, isChild truth models, isFirst.2.1] at isImplies
        simpa using isImplies
    refine Step.runs (afterFirst.trans (afterFirst.inv.assignIf _ _ (afterFirst.grows.hasEdges.mpr first) ?_))
    rintro ⟨isSecond, isFalse, isParent⟩ truth models
    have isImplies := (models.1.implies x y).symm.trans (afterFirst.inv.entails isParent truth models)
    rw [← isSecond, isChild truth models, (by simpa using isFalse : value = false)] at isImplies
    simpa using isImplies

theorem Inv.forwardEqual (inv : Inv options asserted p) (first : p.HasEdges x) (second : p.HasEdges y)
    (hasEdges : p.HasEdges (.apply .equal [x, y])) (isMem : child = x ∨ child = y)
    (isChild : Entails asserted child value)
    : Runs options asserted p (p.forwardEqual child x y (.apply .equal [x, y]) value) := by
  have formulas := And.intro (inv.linked.formula first) (inv.linked.formula second)
  rw [CircuitPropagator.forwardEqual]
  split
  · next areAssigned =>
      exact inv.assignParent hasEdges (· == ·) (fun _ models => models.1.equal formulas.1 formulas.2) areAssigned
  · rw [CircuitPropagator.isAssigned, getAssignment]
    cases isParent : p.dState (.apply .equal [x, y]) with
    | none => exact inv.refl.runs
    | some v =>
        exact inv.assignOther first second isMem isChild (fun b => if v then b else !b) fun truth models =>
          models.related_equal formulas.1 formulas.2 ((inv.assigned isParent).2 truth models)

theorem Inv.forwardXor (inv : Inv options asserted p) (first : p.HasEdges x) (second : p.HasEdges y)
    (hasEdges : p.HasEdges (.apply .xor [x, y])) (isMem : child = x ∨ child = y)
    (isChild : Entails asserted child value)
    : Runs options asserted p (p.forwardXor child x y (.apply .xor [x, y]) value) := by
  rw [CircuitPropagator.forwardXor]
  refine Runs.bind ?_ fun p' step => ?_
  · rw [xorOther, CircuitPropagator.isAssigned, CircuitPropagator.getAssignment]
    cases isParent : p.dState (.apply .xor [x, y]) with
    | none => exact inv.refl.runs
    | some v =>
        exact inv.assignOther first second isMem isChild (· != v) fun truth models =>
          models.related_xor ((inv.assigned isParent).2 truth models)
  · split
    · next areAssigned =>
        exact step.inv.assignParent (step.grows.hasEdges.mpr hasEdges) (· ^^ ·) (fun _ models => models.1.xor x y)
          areAssigned
    · exact step.inv.refl.runs

/-- The rules for a gate with the child. -/
theorem Inv.forwardParent (inv : Inv options asserted p) (hasEdges : p.HasEdges parent)
    (boolean : isBoolean options parent = true) (isMem : child ∈ parent.children)
    (isChild : Entails asserted child value)
    : Runs options asserted p (p.forwardParent child value parent) := by
  have gate := gate_of_child (inv.linked.formula hasEdges) boolean isMem
  have isChildren (c : Node) (isChild : c ∈ parent.children) : p.HasEdges c :=
    hasEdges_of_parent (inv.linked.children hasEdges boolean List.not_mem_nil isChild)
  cases gate with
  | and _ => exact (inv.forwardNary (isNary_and asserted _) isChildren hasEdges isMem isChild).runs
  | or _ => exact (inv.forwardNary (isNary_or asserted _) isChildren hasEdges isMem isChild).runs
  | not _ =>
      refine (inv.assign hasEdges fun truth models => ?_).runs
      rw [models.1.not, ← List.mem_singleton.mp isMem, isChild truth models]
  | @implies x y _ _ =>
      exact inv.forwardImplies (isChildren x (by simp [Node.children])) (isChildren y (by simp [Node.children]))
        hasEdges isChild
  | @xor x y _ _ =>
      exact inv.forwardXor (isChildren x (by simp [Node.children])) (isChildren y (by simp [Node.children])) hasEdges
        (by simpa [Node.children] using isMem) isChild
  | @equal x y first _ =>
      rw [CircuitPropagator.forwardParent, if_pos (formula_iff_typeOf.mpr first)]
      exact inv.forwardEqual (isChildren x (by simp [Node.children])) (isChildren y (by simp [Node.children])) hasEdges
        (by simpa [Node.children] using isMem) isChild
  | ite _ _ _ => exact inv.forwardIte hasEdges isChild

end CircuitPropagator

end Ava6.Booleans

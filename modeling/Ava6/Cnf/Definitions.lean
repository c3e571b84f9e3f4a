import Ava6.Cnf.CnfStream

/-! The invariant of the CNF stream. Every assignment of the atoms has one extension to the
allocated variables that satisfies the definitional clauses; under it a literal has the truth
value of its node.
-/

namespace Ava6.Cnf

open Ava6.Library.Sat

namespace CnfStream

variable {s s' : CnfStream}

-- Clauses that define a literal

/-- The clauses hold exactly when the literal is the connective applied to the others, and they
have no other variables. -/
structure Defines (k : Kind) (clauses : List SatLiteral → SatLiteral → List Clause) : Prop where
  iff {lits : List SatLiteral} (lit : SatLiteral) (σ : Nat → Bool) : k.arity lits.length = true
    → ((∀ c ∈ clauses lits lit, c.eval σ = true) ↔ lit.eval σ = k.apply (lits.map (·.eval σ)))
  vars {lits : List SatLiteral} {lit : SatLiteral} {c : Clause} {l : SatLiteral}
    : c ∈ clauses lits lit → l ∈ c → l.var = lit.var ∨ ∃ a ∈ lits, l.var = a.var

theorem xorClauses_define : Defines .xor xorClauses := by
  refine ⟨fun {lits} lit σ arity => ?_, fun {lits lit c l} member inside => ?_⟩
  · obtain ⟨a, b, rfl⟩ := List.length_eq_two.mp (beq_iff_eq.mp arity)
    simp only [xorClauses, Clause.eval, List.forall_mem_cons, List.any_cons, List.any_nil,
      Literal.eval_neg, List.map_cons, List.map_nil, Kind.apply]
    cases a.eval σ <;> cases b.eval σ <;> cases lit.eval σ <;> simp
  · rcases lits with _ | ⟨a, _ | ⟨b, _ | ⟨d, rest⟩⟩⟩
    · cases member
    · cases member
    · simp only [xorClauses, List.mem_cons, List.not_mem_nil, or_false] at member
      rcases member with rfl | rfl | rfl | rfl <;> simp at inside <;> grind [Literal.var_neg]
    · cases member

theorem impliesClauses_define : Defines .implies impliesClauses := by
  refine ⟨fun {lits} lit σ arity => ?_, fun {lits lit c l} member inside => ?_⟩
  · obtain ⟨a, b, rfl⟩ := List.length_eq_two.mp (beq_iff_eq.mp arity)
    simp only [impliesClauses, Clause.eval, List.forall_mem_cons, List.any_cons, List.any_nil,
      Literal.eval_neg, List.map_cons, List.map_nil, Kind.apply]
    cases a.eval σ <;> cases b.eval σ <;> cases lit.eval σ <;> simp
  · rcases lits with _ | ⟨a, _ | ⟨b, _ | ⟨d, rest⟩⟩⟩
    · cases member
    · cases member
    · simp only [impliesClauses, List.mem_cons, List.not_mem_nil, or_false] at member
      rcases member with rfl | rfl | rfl <;> simp at inside <;> grind [Literal.var_neg]
    · cases member

theorem iffClauses_define : Defines .equal iffClauses := by
  refine ⟨fun {lits} lit σ arity => ?_, fun {lits lit c l} member inside => ?_⟩
  · obtain ⟨a, b, rfl⟩ := List.length_eq_two.mp (beq_iff_eq.mp arity)
    simp only [iffClauses, Clause.eval, List.forall_mem_cons, List.any_cons, List.any_nil,
      Literal.eval_neg, List.map_cons, List.map_nil, Kind.apply]
    cases a.eval σ <;> cases b.eval σ <;> cases lit.eval σ <;> simp
  · rcases lits with _ | ⟨a, _ | ⟨b, _ | ⟨d, rest⟩⟩⟩
    · cases member
    · cases member
    · simp only [iffClauses, List.mem_cons, List.not_mem_nil, or_false] at member
      rcases member with rfl | rfl | rfl | rfl <;> simp at inside <;> grind [Literal.var_neg]
    · cases member

theorem iteClauses_define : Defines .ite iteClauses := by
  refine ⟨fun {lits} lit σ arity => ?_, fun {lits lit c l} member inside => ?_⟩
  · obtain ⟨c, t, e, rfl⟩ := List.length_eq_three.mp (beq_iff_eq.mp arity)
    simp only [iteClauses, Clause.eval, List.forall_mem_cons, List.any_cons, List.any_nil,
      Literal.eval_neg, List.map_cons, List.map_nil, Kind.apply]
    cases c.eval σ <;> cases t.eval σ <;> cases e.eval σ <;> cases lit.eval σ <;> simp
  · rcases lits with _ | ⟨c, _ | ⟨t, _ | ⟨e, _ | ⟨d, rest⟩⟩⟩⟩
    · cases member
    · cases member
    · cases member
    · simp only [iteClauses, List.mem_cons, List.not_mem_nil, or_false] at member
      rcases member with rfl | rfl | rfl | rfl | rfl | rfl <;> simp at inside <;> grind [Literal.var_neg]
    · cases member

theorem orClauses_define : Defines .or orClauses := by
  refine ⟨fun {lits} lit σ _ => ?_, fun {lits lit c l} member inside => ?_⟩
  · have long : Clause.eval σ (lits ++ [lit.neg]) = (lits.any (·.eval σ) || !lit.eval σ) := by
      simp [Clause.eval]
    simp only [orClauses, List.forall_mem_append, List.forall_mem_map, List.forall_mem_singleton,
      long, Kind.apply, List.any_map, Function.id_comp]
    cases value : lit.eval σ with
    | true => simp [Clause.eval, value]
    | false => simp [Clause.eval, value]
  · simp only [orClauses, List.mem_append, List.mem_map, List.mem_singleton] at member
    rcases member with ⟨a, isChild, rfl⟩ | rfl
    · simp only [List.mem_cons, List.not_mem_nil, or_false] at inside
      rcases inside with rfl | rfl
      · exact .inl rfl
      · exact .inr ⟨a, isChild, rfl⟩
    · rcases List.mem_append.mp inside with isChild | isLast
      · exact .inr ⟨l, isChild, rfl⟩
      · rw [List.mem_singleton.mp isLast]
        exact .inl rfl

theorem andClauses_define : Defines .and andClauses := by
  refine ⟨fun {lits} lit σ _ => ?_, fun {lits lit c l} member inside => ?_⟩
  · have long : Clause.eval σ (lits.map Literal.neg ++ [lit])
        = (lits.any (!·.eval σ) || lit.eval σ) := by
      simp [Clause.eval, Function.comp_def]
    simp only [andClauses, List.forall_mem_append, List.forall_mem_map, List.forall_mem_singleton,
      long, Kind.apply, List.all_map, Function.id_comp]
    cases value : lit.eval σ with
    | true => simp [Clause.eval, value]
    | false => simp [Clause.eval, value]
  · simp only [andClauses, List.mem_append, List.mem_map, List.mem_singleton] at member
    rcases member with ⟨a, isChild, rfl⟩ | rfl
    · simp only [List.mem_cons, List.not_mem_nil, or_false] at inside
      rcases inside with rfl | rfl
      · exact .inl rfl
      · exact .inr ⟨a, isChild, rfl⟩
    · rcases List.mem_append.mp inside with isNegated | isLast
      · obtain ⟨a, isChild, rfl⟩ := List.mem_map.mp isNegated
        exact .inr ⟨a, isChild, rfl⟩
      · rw [List.mem_singleton.mp isLast]
        exact .inl rfl

-- Invariant

/-- The number the next variable gets. -/
def next (s : CnfStream) : Nat := s.satSolver.nextVarIdx

/-- An assignment of the variables satisfies the definitional clauses. -/
def SatisfiesDefinitions (s : CnfStream) (σ : Nat → Bool) : Prop :=
  ∀ c ∈ s.satSolver.clauses, c.origin = .definition → c.literals.eval σ = true

def SatisfiesAssertions (s : CnfStream) (σ : Nat → Bool) : Prop :=
  ∀ c ∈ s.satSolver.clauses, c.origin = .assertion → c.literals.eval σ = true

/-- The assignment gives the literals of the atoms their values. -/
def Agrees (s : CnfStream) (v : Valuation) (σ : Nat → Bool) : Prop :=
  ∀ a lit, s.getLiteral (.atom a) = some lit → lit.eval σ = v a

/-- `value` extends the assignments of the atoms, and `asserted` is what was asserted. -/
structure Exact (s : CnfStream) (value : Valuation → Nat → Bool) (asserted : Valuation → Prop)
    : Prop where
  literal {f : Formula} {lit : SatLiteral} : s.getLiteral f = some lit
    → 0 < lit.var ∧ lit.var < s.next ∧ ∀ v, lit.eval (value v) = f.eval v
  paired {f : Formula} : f.isNot = false → s.hasLiteral f.notNode = s.hasLiteral f
  constants : SatClauseSink.falseVar < s.next
    ∧ ∀ v, value v SatClauseSink.trueVar = true ∧ value v SatClauseSink.falseVar = false
  clauses {c : SatClause} : c ∈ s.satSolver.clauses → ∀ l ∈ c.literals, l.var < s.next
  definitions (v : Valuation) : s.SatisfiesDefinitions (value v)
  unique {v : Valuation} {σ : Nat → Bool} : s.SatisfiesDefinitions σ → s.Agrees v σ
    → ∀ x, 0 < x → x < s.next → σ x = value v x
  assertions (v : Valuation) : s.SatisfiesAssertions (value v) ↔ asserted v

/-- What a conversion keeps: the variables with their values and the literals of nodes. -/
structure Grows (s : CnfStream) (value : Valuation → Nat → Bool) (s' : CnfStream)
    (value' : Valuation → Nat → Bool) : Prop where
  next_le : s.next ≤ s'.next
  same (v : Valuation) (x : Nat) : x < s.next → value' v x = value v x
  mapped {f : Formula} {lit : SatLiteral} : s.getLiteral f = some lit → s'.getLiteral f = some lit
  removable : s'.removable = s.removable

section Grows
variable {value value' value'' : Valuation → Nat → Bool} {s'' : CnfStream}

theorem Grows.refl (s : CnfStream) (value : Valuation → Nat → Bool) : Grows s value s value :=
  ⟨Nat.le_refl _, fun _ _ _ => rfl, id, rfl⟩

theorem Grows.trans (first : Grows s value s' value') (second : Grows s' value' s'' value'')
    : Grows s value s'' value'' where
  next_le := Nat.le_trans first.next_le second.next_le
  same v x old := (second.same v x (Nat.lt_of_lt_of_le old first.next_le)).trans (first.same v x old)
  mapped found := second.mapped (first.mapped found)
  removable := second.removable.trans first.removable

theorem Grows.hasLiteral (grows : Grows s value s' value') {f : Formula} (has : s.hasLiteral f = true)
    : s'.hasLiteral f = true := by
  obtain ⟨lit, found⟩ := Option.isSome_iff_exists.mp has
  rw [CnfStream.hasLiteral, grows.mapped found, Option.isSome_some]

/-- A literal keeps its value. -/
theorem Grows.eval (grows : Grows s value s' value') {lit : SatLiteral} (old : lit.var < s.next)
    (v : Valuation) : lit.eval (value' v) = lit.eval (value v) :=
  Literal.eval_congr (grows.same v lit.var old)

end Grows

/-- Only the variables, the clauses and the literals of nodes matter. -/
theorem Exact.congr {value : Valuation → Nat → Bool} {asserted : Valuation → Prop}
    (exact : Exact s value asserted) (sat : s'.satSolver.nextVarIdx = s.satSolver.nextVarIdx)
    (clauses : s'.satSolver.clauses = s.satSolver.clauses)
    (map : s'.nodeToLiteralMap = s.nodeToLiteralMap) : Exact s' value asserted := by
  have lookup : s'.getLiteral = s.getLiteral := by
    funext f
    rw [getLiteral, getLiteral, map]
  have has : s'.hasLiteral = s.hasLiteral := by
    funext f
    rw [hasLiteral, hasLiteral, lookup]
  have nexts : s'.next = s.next := sat
  constructor
  case literal => rw [lookup, nexts]; exact exact.literal
  case paired => rw [has]; exact exact.paired
  case constants => rw [nexts]; exact exact.constants
  case clauses => rw [clauses, nexts]; exact exact.clauses
  case definitions =>
    intro v
    rw [SatisfiesDefinitions, clauses]
    exact exact.definitions v
  case unique =>
    intro v σ
    rw [SatisfiesDefinitions, clauses, Agrees, lookup, nexts]
    exact exact.unique
  case assertions =>
    intro v
    rw [SatisfiesAssertions, clauses]
    exact exact.assertions v

-- New literals

/-- A state with a node mapped to a new literal, up to what does not matter. -/
structure Adds (s : CnfStream) (node : Formula) (lit : SatLiteral) (next : Nat)
    (new : List SatClause) (s' : CnfStream) : Prop where
  map : s'.nodeToLiteralMap = s.nodeToLiteralMap ++ [(node, lit), (node.notNode, lit.neg)]
  next : s'.satSolver.nextVarIdx = next
  clauses : s'.satSolver.clauses = s.satSolver.clauses ++ new
  removable : s'.removable = s.removable

section Adds
variable {node : Formula} {lit : SatLiteral} {nextVar : Nat} {new : List SatClause}
  {value : Valuation → Nat → Bool} {asserted : Valuation → Prop}

/-- A new literal is mapped for the node and, negated, for its negation; the others stay. -/
theorem Adds.getLiteral (adds : Adds s node lit nextVar new s') (f : Formula)
    : s'.getLiteral f = (s.getLiteral f).or
        (if node = f then some lit else if node.notNode = f then some lit.neg else none) := by
  rw [CnfStream.getLiteral, CnfStream.getLiteral, adds.map, List.find?_append]
  cases s.nodeToLiteralMap.find? (·.1 = f) with
  | some entry => rfl
  | none =>
    by_cases same : node = f
    · simp [same]
    · by_cases negation : node.notNode = f
      · simp [same, negation]
      · simp [same, negation]

theorem Adds.paired (adds : Adds s node lit nextVar new s') (plain : node.isNot = false)
    (exact : Exact s value asserted) {f : Formula} (isPlain : f.isNot = false)
    : s'.hasLiteral f.notNode = s'.hasLiteral f := by
  have old := exact.paired isPlain
  have notSame : node ≠ f.notNode := by
    rintro rfl
    cases plain
  have notOther : node.notNode ≠ f := by
    rintro rfl
    cases isPlain
  have negations : node.notNode = f.notNode ↔ node = f := by simp [Formula.notNode]
  simp only [CnfStream.hasLiteral, adds.getLiteral, notSame, notOther, negations, if_false] at old ⊢
  rw [Option.isSome_or, Option.isSome_or, old]
  split <;> rfl

/-- A new variable whose value the definitional clauses fix. -/
theorem Adds.exact (adds : Adds s node ⟨s.next, false⟩ (s.next + 1) new s')
    (exact : Exact s value asserted) (plain : node.isNot = false) (unmapped : s.getLiteral node = none)
    (isDefinition : ∀ c ∈ new, c.origin = .definition)
    (vars : ∀ c ∈ new, ∀ l ∈ c.literals, l.var < s.next + 1)
    (holds : ∀ v σ, (∀ x < s.next, σ x = value v x) → σ s.next = node.eval v
      → ∀ c ∈ new, c.literals.eval σ = true)
    (fixes : ∀ v σ, (∀ x, 0 < x → x < s.next → σ x = value v x)
      → (∀ c ∈ new, c.literals.eval σ = true) → (∀ a, node = .atom a → σ s.next = v a)
      → σ s.next = node.eval v)
    : ∃ value', Exact s' value' asserted ∧ Grows s value s' value'
      ∧ s'.getLiteral node = some ⟨s.next, false⟩ := by
  let value' : Valuation → Nat → Bool := fun v x => if x = s.next then node.eval v else value v x
  have nexts : s'.next = s.next + 1 := adds.next
  have nextPositive : 0 < s.next := Nat.lt_trans (by decide) exact.constants.1
  have here (v : Valuation) : value' v s.next = node.eval v := if_pos rfl
  have same (v : Valuation) (x : Nat) (old : x < s.next) : value' v x = value v x :=
    if_neg (Nat.ne_of_lt old)
  have found : s'.getLiteral node = some ⟨s.next, false⟩ := by
    rw [adds.getLiteral, unmapped, if_pos rfl, Option.none_or]
  have grows : Grows s value s' value' := by
    refine ⟨by omega, same, fun {f lit} isLit => ?_, adds.removable⟩
    rw [adds.getLiteral, isLit, Option.some_or]
  refine ⟨value', ?_, grows, found⟩
  have kept {c : SatClause} (member : c ∈ s.satSolver.clauses) (v : Valuation)
      : c.literals.eval (value' v) = c.literals.eval (value v) :=
    Clause.eval_congr fun l inside => same v l.var (exact.clauses member l inside)
  constructor
  case literal =>
    intro f lit isLit
    rw [nexts]
    cases old : s.getLiteral f with
    | some lit' =>
      rw [adds.getLiteral, old, Option.some_or, Option.some.injEq] at isLit
      subst isLit
      obtain ⟨positive, bound, evals⟩ := exact.literal old
      exact ⟨positive, by omega, fun v => by rw [grows.eval bound, evals]⟩
    | none =>
      rw [adds.getLiteral, old, Option.none_or] at isLit
      split at isLit
      · next isNode =>
        cases isLit
        exact ⟨nextPositive, Nat.lt_succ_self _, fun v => by simp [Literal.eval, here, isNode]⟩
      · split at isLit
        · next isNegation =>
          cases isLit
          refine ⟨nextPositive, Nat.lt_succ_self _, fun v => ?_⟩
          rw [← isNegation, Formula.eval_notNode, Literal.eval_neg]
          simp [Literal.eval, here]
        · contradiction
  case paired => exact adds.paired plain exact
  case constants =>
    obtain ⟨bound, values⟩ := exact.constants
    rw [nexts]
    refine ⟨by omega, fun v => ?_⟩
    have small : SatClauseSink.trueVar < s.next := Nat.lt_trans (by decide) bound
    rw [same v _ small, same v _ bound]
    exact values v
  case clauses =>
    intro c member l inside
    rw [adds.clauses] at member
    rw [nexts]
    rcases List.mem_append.mp member with old | added
    · exact Nat.lt_succ_of_lt (exact.clauses old l inside)
    · exact vars c added l inside
  case definitions =>
    intro v c member isDef
    rw [adds.clauses] at member
    rcases List.mem_append.mp member with old | added
    · rw [kept old]
      exact exact.definitions v c old isDef
    · exact holds v (value' v) (same v) (here v) c added
  case unique =>
    intro v σ satisfies agrees x positive bound
    have oldDefinitions : s.SatisfiesDefinitions σ := fun c member isDef =>
      satisfies c (by rw [adds.clauses]; exact List.mem_append_left _ member) isDef
    have oldAgrees : s.Agrees v σ := fun a lit isLit => agrees a lit (grows.mapped isLit)
    have oldUnique := exact.unique oldDefinitions oldAgrees
    rw [nexts] at bound
    rcases Nat.lt_succ_iff_lt_or_eq.mp bound with old | rfl
    · rw [same v x old]
      exact oldUnique x positive old
    · rw [here]
      refine fixes v σ oldUnique (fun c added => ?_) fun a isAtom => ?_
      · exact satisfies c (by rw [adds.clauses]; exact List.mem_append_right _ added)
          (isDefinition c added)
      · have value := agrees a ⟨s.next, false⟩ (isAtom ▸ found)
        simpa [Literal.eval] using value
  case assertions =>
    intro v
    rw [← exact.assertions v]
    constructor
    · intro all c member isAssertion
      rw [← kept member]
      exact all c (by rw [adds.clauses]; exact List.mem_append_left _ member) isAssertion
    · intro all c member isAssertion
      rw [adds.clauses] at member
      rcases List.mem_append.mp member with old | added
      · rw [kept old]
        exact all c old isAssertion
      · rw [isDefinition c added] at isAssertion
        contradiction

/-- A constant gets one of the variables of the solver. -/
theorem Adds.exact_const {b : Bool}
    (adds : Adds s (.const b)
      ⟨if b then SatClauseSink.trueVar else SatClauseSink.falseVar, false⟩ s.next [] s')
    (exact : Exact s value asserted) (unmapped : s.getLiteral (.const b) = none)
    : Exact s' value asserted ∧ Grows s value s' value ∧ s'.hasLiteral (.const b) = true := by
  have nexts : s'.next = s.next := adds.next
  have grows : Grows s value s' value := by
    refine ⟨by omega, fun _ _ _ => rfl, fun {f lit} isLit => ?_, adds.removable⟩
    rw [adds.getLiteral, isLit, Option.some_or]
  obtain ⟨bound, values⟩ := exact.constants
  have small : (if b then SatClauseSink.trueVar else SatClauseSink.falseVar) < s.next := by
    cases b
    · exact bound
    · exact Nat.lt_trans (by decide) bound
  have positive : 0 < (if b then SatClauseSink.trueVar else SatClauseSink.falseVar) := by
    cases b <;> decide
  have here (v : Valuation)
      : value v (if b then SatClauseSink.trueVar else SatClauseSink.falseVar) = b := by
    cases b
    · exact (values v).2
    · exact (values v).1
  have sameClauses : s'.satSolver.clauses = s.satSolver.clauses := by
    rw [adds.clauses, List.append_nil]
  refine ⟨?_, grows, ?_⟩
  · constructor
    case literal =>
      intro f lit isLit
      rw [nexts]
      cases old : s.getLiteral f with
      | some lit' =>
        rw [adds.getLiteral, old, Option.some_or, Option.some.injEq] at isLit
        subst isLit
        exact exact.literal old
      | none =>
        rw [adds.getLiteral, old, Option.none_or] at isLit
        split at isLit
        · next isNode =>
          cases isLit
          exact ⟨positive, small, fun v => by simp [Literal.eval, here, ← isNode, Formula.eval]⟩
        · split at isLit
          · next isNegation =>
            cases isLit
            refine ⟨positive, small, fun v => ?_⟩
            rw [← isNegation, Formula.eval_notNode, Literal.eval_neg]
            simp [Literal.eval, here, Formula.eval]
          · contradiction
    case paired => exact adds.paired rfl exact
    case constants =>
      rw [nexts]
      exact exact.constants
    case clauses =>
      rw [sameClauses, nexts]
      exact exact.clauses
    case definitions =>
      intro v
      rw [SatisfiesDefinitions, sameClauses]
      exact exact.definitions v
    case unique =>
      intro v σ satisfies agrees
      rw [SatisfiesDefinitions, sameClauses] at satisfies
      rw [nexts]
      exact exact.unique satisfies fun a lit isLit => agrees a lit (grows.mapped isLit)
    case assertions =>
      intro v
      rw [SatisfiesAssertions, sameClauses]
      exact exact.assertions v
  · rw [CnfStream.hasLiteral, adds.getLiteral, unmapped, if_pos rfl]
    rfl

end Adds

section NewLiteral
variable {node : Formula}

theorem storeBack_sat (s : CnfStream) (lit : SatLiteral) (node : Formula)
    : (s.storeBack lit node).satSolver = s.satSolver
      ∧ (s.storeBack lit node).nodeToLiteralMap = s.nodeToLiteralMap
      ∧ (s.storeBack lit node).removable = s.removable := by
  unfold storeBack insertNode
  split <;> split <;> exact ⟨rfl, rfl, rfl⟩

/-- The literal a node without one gets: a constant a variable of the solver, any other node a
new variable. -/
def freshLiteral (s : CnfStream) : Formula → SatLiteral × Nat
  | .const b => (⟨if b then SatClauseSink.trueVar else SatClauseSink.falseVar, false⟩, s.next)
  | _ => (⟨s.next, false⟩, s.next + 1)

theorem allocate_adds (s : CnfStream) (node : Formula) (isTheoryAtom : Bool)
    : (s.allocate node isTheoryAtom).1 = (s.freshLiteral node).1
      ∧ Adds s node (s.freshLiteral node).1 (s.freshLiteral node).2 []
        (s.allocate node isTheoryAtom).2 := by
  match node with
  | .const true => exact ⟨rfl, rfl, rfl, (List.append_nil _).symm, rfl⟩
  | .const false => exact ⟨rfl, rfl, rfl, (List.append_nil _).symm, rfl⟩
  | .atom _ => exact ⟨rfl, rfl, rfl, (List.append_nil _).symm, rfl⟩
  | .node _ _ => exact ⟨rfl, rfl, rfl, (List.append_nil _).symm, rfl⟩

theorem newLiteral_adds (isTheoryAtom : Bool) (plain : node.isNot = false)
    (unmapped : s.getLiteral node = none)
    : ∃ s', s.newLiteral node isTheoryAtom = some ((s.freshLiteral node).1, s')
      ∧ Adds s node (s.freshLiteral node).1 (s.freshLiteral node).2 [] s' := by
  -- tracking changes neither the variables nor the literals
  have tracked (t : CnfStream) (same : t.satSolver = s.satSolver)
      (map : t.nodeToLiteralMap = s.nodeToLiteralMap) (removable : t.removable = s.removable)
      (theoryAtom track : Bool)
      : Adds s node (s.freshLiteral node).1 (s.freshLiteral node).2 []
          (if track then (t.allocate node theoryAtom).2.storeBack (t.allocate node theoryAtom).1 node
            else (t.allocate node theoryAtom).2)
        ∧ (t.allocate node theoryAtom).1 = (s.freshLiteral node).1 := by
    have fresh : t.freshLiteral node = s.freshLiteral node := by
      cases node <;> simp only [freshLiteral, next, same]
    obtain ⟨isLit, adds⟩ := allocate_adds t node theoryAtom
    obtain ⟨sat, maps, removables⟩ :=
      storeBack_sat (t.allocate node theoryAtom).2 (t.allocate node theoryAtom).1 node
    rw [fresh] at isLit adds
    refine ⟨?_, isLit⟩
    split
    · exact ⟨by rw [maps, adds.map, map], by rw [sat, adds.next], by rw [sat, adds.clauses, same],
        by rw [removables, adds.removable, removable]⟩
    · exact ⟨by rw [adds.map, map], adds.next, by rw [adds.clauses, same],
        by rw [adds.removable, removable]⟩
  have unmapped' (formulas : List Formula)
      : ({ s with notifyFormulas := formulas } : CnfStream).getLiteral node = none := unmapped
  unfold newLiteral
  rw [plain]
  simp only [Bool.false_eq_true, if_false]
  cases !isTheoryAtom && s.flitPolicy == .trackAndNotify with
  | true =>
    simp only [if_true, unmapped']
    obtain ⟨adds, isLit⟩ := tracked { s with notifyFormulas := node :: s.notifyFormulas } rfl rfl rfl
      (isTheoryAtom || true) _
    exact ⟨_, by rw [isLit], adds⟩
  | false =>
    simp only [Bool.false_eq_true, if_false, unmapped]
    obtain ⟨adds, isLit⟩ := tracked s rfl rfl rfl (isTheoryAtom || false) _
    exact ⟨_, by rw [isLit], adds⟩

end NewLiteral

end CnfStream

end Ava6.Cnf

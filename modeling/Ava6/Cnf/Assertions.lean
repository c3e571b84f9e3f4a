import Ava6.Cnf.Conversion

/-! Assertion of formulas. A call adds to what is asserted exactly the formula, negated where
asked.
-/

namespace Ava6.Cnf

open Ava6.Library.Sat

mutual
/-- Every part of the formula that asserting it converts to a literal is one already. -/
def Formula.clausal : Formula → Bool → Bool
  | .node .and children, negated =>
      if negated then children.all Formula.literal else Formula.allClausal children false
  | .node .or children, negated =>
      if negated then Formula.allClausal children true else children.all Formula.literal
  | .node .implies [p, q], negated =>
      if negated then p.clausal false && q.clausal true else p.literal && q.literal
  | .node .not [child], negated => child.clausal !negated
  | .node _ children, _ => children.all Formula.literal
  | .atom _, _ | .const _, _ => true

def Formula.allClausal : List Formula → Bool → Bool
  | [], _ => true
  | f :: rest, negated => f.clausal negated && Formula.allClausal rest negated
end

namespace CnfStream

variable {s s' : CnfStream} {value value' : Valuation → Nat → Bool} {asserted : Valuation → Prop}

theorem Exact.of_iff {other : Valuation → Prop} (exact : Exact s value asserted)
    (same : ∀ v, asserted v ↔ other v) : Exact s value other :=
  { exact with assertions := fun v => (exact.assertions v).trans (same v) }

/-- New asserted clauses add what they say under the extension. -/
theorem Exact.assertClauses (exact : Exact s value asserted) {cs : List Clause}
    (vars : ∀ c ∈ cs, ∀ l ∈ c, l.var < s.next)
    : Exact (s.assertClauses .assertion cs) value
        (fun v => asserted v ∧ ∀ c ∈ cs, c.eval (value v) = true)
      ∧ Grows s value (s.assertClauses .assertion cs) value := by
  rw [assertClauses_eq]
  refine ⟨?_, ⟨Nat.le_refl _, fun _ _ _ => rfl, id, rfl⟩⟩
  have isAssertion {c : SatClause}
      (added : c ∈ cs.map (SatClause.mk ·.eraseDups s.removable .assertion))
      : c.origin = .assertion := by
    obtain ⟨_, _, rfl⟩ := List.mem_map.mp added
    rfl
  constructor
  case literal => exact exact.literal
  case paired => exact exact.paired
  case constants => exact exact.constants
  case clauses =>
    intro c member l inside
    rcases List.mem_append.mp member with old | added
    · exact exact.clauses old l inside
    · obtain ⟨clause, isClause, rfl⟩ := List.mem_map.mp added
      exact vars clause isClause l (List.mem_eraseDups.mp inside)
  case definitions =>
    intro v c member isDefinition
    rcases List.mem_append.mp member with old | added
    · exact exact.definitions v c old isDefinition
    · rw [isAssertion added] at isDefinition
      contradiction
  case unique =>
    intro v σ satisfies agrees
    exact exact.unique (fun c old => satisfies c (List.mem_append_left _ old)) agrees
  case assertions =>
    intro v
    rw [← exact.assertions v]
    constructor
    · intro all
      refine ⟨fun c old => all c (List.mem_append_left _ old), fun c member => ?_⟩
      rw [← Clause.eval_eraseDups]
      exact all ⟨c.eraseDups, s.removable, .assertion⟩
        (List.mem_append_right _ (List.mem_map_of_mem member)) rfl
    · rintro ⟨olds, news⟩ c member origin
      rcases List.mem_append.mp member with old | added
      · exact olds c old origin
      · obtain ⟨clause, isClause, rfl⟩ := List.mem_map.mp added
        exact (Clause.eval_eraseDups _ _).trans (news clause isClause)

variable {nodes : List Formula}

/-- Nodes convert to literals one after the other. -/
theorem toCNFs_converted (exact : Exact s value asserted) (negated : Bool)
    (admissible : Formula.allAdmissible nodes = true)
    (literals : s.removable = true → nodes.all Formula.literal = true)
    : ∃ lits s' value', s.toCNFs negated nodes = some (lits, s') ∧ Exact s' value' asserted
      ∧ Grows s value s' value' ∧ (∀ l ∈ lits, l.var < s'.next)
      ∧ ∀ v, lits.map (·.eval (value' v)) = nodes.map (·.eval v ^^ negated) := by
  induction nodes generalizing s value with
  | nil => exact ⟨[], s, value, rfl, exact, Grows.refl s value, by simp, fun _ => rfl⟩
  | cons node rest ih =>
    simp only [Formula.allAdmissible, Bool.and_eq_true] at admissible
    simp only [List.all_cons, Bool.and_eq_true] at literals
    obtain ⟨lit, s₁, value₁, converts, ⟨exact₁, grows₁, _⟩, bound, evals⟩ :=
      toCNF_converted exact admissible.1 (fun removable => (literals removable).1) negated
    obtain ⟨lits, s₂, value₂, convertsAll, exact₂, grows₂, bounds, evalsAll⟩ := ih exact₁ admissible.2
      (fun removable => (literals (grows₁.removable ▸ removable)).2)
    refine ⟨lit :: lits, s₂, value₂, ?_, exact₂, grows₁.trans grows₂, ?_, fun v => ?_⟩
    · simp only [toCNFs, converts, Option.bind_eq_bind, Option.bind_some, convertsAll]
      rfl
    · intro l member
      rcases List.mem_cons.mp member with rfl | member
      · exact Nat.lt_of_lt_of_le bound grows₂.next_le
      · exact bounds l member
    · rw [List.map_cons, List.map_cons, evalsAll v, grows₂.eval bound, evals]

/-- The call succeeds and adds `meaning` to what is asserted. -/
def Asserts (s : CnfStream) (value : Valuation → Nat → Bool) (asserted meaning : Valuation → Prop)
    (result : Option CnfStream) : Prop :=
  ∃ s' value', result = some s' ∧ Exact s' value' (fun v => asserted v ∧ meaning v)
    ∧ Grows s value s' value'

theorem Asserts.of_iff {meaning meaning' : Valuation → Prop} {result : Option CnfStream}
    (asserts : Asserts s value asserted meaning result) (same : ∀ v, meaning v ↔ meaning' v)
    : Asserts s value asserted meaning' result := by
  obtain ⟨s', value', isSome, exact, grows⟩ := asserts
  exact ⟨s', value', isSome, exact.of_iff fun v => and_congr_right fun _ => same v, grows⟩

/-- One assertion after the other. -/
theorem Asserts.bind {first second : Valuation → Prop} {result : Option CnfStream}
    {next : CnfStream → Option CnfStream} (asserts : Asserts s value asserted first result)
    (continues : ∀ {s' value' asserted'}, Exact s' value' asserted' → s'.removable = s.removable
      → Asserts s' value' asserted' second (next s'))
    : Asserts s value asserted (fun v => first v ∧ second v) (result.bind next) := by
  obtain ⟨s₁, value₁, isSome, exact₁, grows₁⟩ := asserts
  obtain ⟨s₂, value₂, isSome₂, exact₂, grows₂⟩ := continues exact₁ grows₁.removable
  refine ⟨s₂, value₂, by rw [isSome, Option.bind_some, isSome₂], ?_, grows₁.trans grows₂⟩
  exact exact₂.of_iff fun v => and_assoc

/-- Clauses over the literals of the children. -/
theorem assertOver_asserts (exact : Exact s value asserted) {negated : Bool}
    {clauses : List SatLiteral → List Clause} (meaning : List Bool → Bool)
    (admissible : Formula.allAdmissible nodes = true)
    (literals : s.removable = true → nodes.all Formula.literal = true)
    (vars : ∀ lits, ∀ c ∈ clauses lits, ∀ l ∈ c, ∃ a ∈ lits, l.var = a.var)
    (means : ∀ lits σ, lits.length = nodes.length
      → ((∀ c ∈ clauses lits, c.eval σ = true) ↔ meaning (lits.map (·.eval σ)) = true))
    : Asserts s value asserted (fun v => meaning (nodes.map (·.eval v ^^ negated)) = true)
        (s.assertOver negated nodes clauses) := by
  obtain ⟨lits, s₁, value₁, converts, exact₁, grows₁, bounds, evals⟩ :=
    toCNFs_converted exact negated admissible literals
  have length : lits.length = nodes.length := by
    have := congrArg List.length (evals fun _ => false)
    simpa using this
  have inside : ∀ c ∈ clauses lits, ∀ l ∈ c, l.var < s₁.next := by
    intro c member l isLiteral
    obtain ⟨a, isChild, same⟩ := vars lits c member l isLiteral
    rw [same]
    exact bounds a isChild
  obtain ⟨exact₂, grows₂⟩ := exact₁.assertClauses inside
  refine ⟨_, value₁, ?_, exact₂.of_iff fun v => and_congr_right fun _ => ?_, grows₁.trans grows₂⟩
  · simp only [assertOver, converts, Option.bind_eq_bind, Option.bind_some]
    rfl
  · rw [means lits (value₁ v) length, evals v]

/-- A clause over the children says that one of them holds. -/
theorem assertOver_clause (exact : Exact s value asserted) (negated : Bool)
    (admissible : Formula.allAdmissible nodes = true)
    (literals : s.removable = true → nodes.all Formula.literal = true)
    : Asserts s value asserted (fun v => ∃ f ∈ nodes, f.eval v = !negated)
        (s.assertOver negated nodes fun lits => [lits]) := by
  refine (assertOver_asserts exact (·.any id) admissible literals ?_ ?_).of_iff ?_
  · intro lits c member l inside
    rw [List.mem_singleton.mp member] at inside
    exact ⟨l, inside, rfl⟩
  · intro lits σ _
    simp [Clause.eval]
  · intro v
    cases negated <;> simp

theorem differClauses_assert (exact : Exact s value asserted)
    (two : nodes.length = 2) (admissible : Formula.allAdmissible nodes = true)
    (literals : s.removable = true → nodes.all Formula.literal = true)
    : Asserts s value asserted (fun v => Kind.xor.apply (nodes.map (·.eval v)) = true)
        (s.assertOver false nodes differClauses) := by
  refine (assertOver_asserts exact Kind.xor.apply admissible literals ?_ ?_).of_iff ?_
  · intro lits c member l inside
    match lits, member with
    | [p, q], member =>
      simp only [differClauses, List.mem_cons, List.not_mem_nil, or_false] at member
      rcases member with rfl | rfl <;> simp at inside <;> grind [Literal.var_neg]
  · intro lits σ length
    match lits, length.trans two with
    | [p, q], _ =>
      simp only [differClauses, Clause.eval, List.forall_mem_cons, List.any_cons, List.any_nil,
        Literal.eval_neg, List.map_cons, List.map_nil, Kind.apply]
      cases p.eval σ <;> cases q.eval σ <;> simp
  · intro v
    simp only [Bool.xor_false]

theorem sameClauses_assert (exact : Exact s value asserted)
    (two : nodes.length = 2) (admissible : Formula.allAdmissible nodes = true)
    (literals : s.removable = true → nodes.all Formula.literal = true)
    : Asserts s value asserted (fun v => Kind.equal.apply (nodes.map (·.eval v)) = true)
        (s.assertOver false nodes sameClauses) := by
  refine (assertOver_asserts exact Kind.equal.apply admissible literals ?_ ?_).of_iff ?_
  · intro lits c member l inside
    match lits, member with
    | [p, q], member =>
      simp only [sameClauses, List.mem_cons, List.not_mem_nil, or_false] at member
      rcases member with rfl | rfl <;> simp at inside <;> grind [Literal.var_neg]
  · intro lits σ length
    match lits, length.trans two with
    | [p, q], _ =>
      simp only [sameClauses, Clause.eval, List.forall_mem_cons, List.any_cons, List.any_nil,
        Literal.eval_neg, List.map_cons, List.map_nil, Kind.apply]
      cases p.eval σ <;> cases q.eval σ <;> simp
  · intro v
    simp only [Bool.xor_false]

theorem convertAndAssertXor_asserts (exact : Exact s value asserted)
    (negated : Bool) (two : nodes.length = 2) (admissible : Formula.allAdmissible nodes = true)
    (literals : s.removable = true → nodes.all Formula.literal = true)
    : Asserts s value asserted (fun v => (Formula.node .xor nodes).eval v = !negated)
        (s.convertAndAssertXor nodes negated) := by
  match nodes, two with
  | [p, q], _ =>
    cases negated with
    | false =>
      refine (differClauses_assert exact rfl admissible literals).of_iff fun v => ?_
      simp [Formula.eval, Formula.evals]
    | true =>
      refine (sameClauses_assert exact rfl admissible literals).of_iff fun v => ?_
      cases left : p.eval v <;> cases right : q.eval v
        <;> simp [Formula.eval, Formula.evals, Kind.apply, left, right]

theorem convertAndAssertIff_asserts (exact : Exact s value asserted)
    (negated : Bool) (two : nodes.length = 2) (admissible : Formula.allAdmissible nodes = true)
    (literals : s.removable = true → nodes.all Formula.literal = true)
    : Asserts s value asserted (fun v => (Formula.node .equal nodes).eval v = !negated)
        (s.convertAndAssertIff nodes negated) := by
  have isXor : s.convertAndAssertIff nodes negated = s.convertAndAssertXor nodes !negated := by
    cases negated <;> rfl
  rw [isXor]
  refine (convertAndAssertXor_asserts exact (!negated) two admissible literals).of_iff fun v => ?_
  match nodes, two with
  | [p, q], _ =>
    cases left : p.eval v <;> cases right : q.eval v <;> cases negated
      <;> simp [Formula.eval, Formula.evals, Kind.apply, left, right]

/-- What follows a conversion may use the literal. -/
theorem toCNF_then (exact : Exact s value asserted) {node : Formula} {negated : Bool}
    {meaning : Valuation → Prop} {next : SatLiteral × CnfStream → Option CnfStream}
    (admissible : node.admissible = true) (literal : s.removable = true → node.literal = true)
    (continues : ∀ lit s₁ value₁, Exact s₁ value₁ asserted → Grows s value s₁ value₁
      → lit.var < s₁.next → (∀ v, lit.eval (value₁ v) = (node.eval v ^^ negated))
      → Asserts s₁ value₁ asserted meaning (next (lit, s₁)))
    : Asserts s value asserted meaning ((s.toCNF node negated).bind next) := by
  obtain ⟨lit, s₁, value₁, converts, ⟨exact₁, grows₁, _⟩, bound, evals⟩ :=
    toCNF_converted exact admissible literal negated
  obtain ⟨s₂, value₂, isSome, exact₂, grows₂⟩ := continues lit s₁ value₁ exact₁ grows₁ bound evals
  exact ⟨s₂, value₂, by rw [converts, Option.bind_some, isSome], exact₂, grows₁.trans grows₂⟩

/-- An implication that is not negated is one clause. -/
theorem convertAndAssert_implies (exact : Exact s value asserted) {p q : Formula}
    (admissible : Formula.allAdmissible [p, q] = true)
    (literals : s.removable = true → p.literal = true ∧ q.literal = true)
    : Asserts s value asserted (fun v => (Formula.node .implies [p, q]).eval v = true)
        (s.convertAndAssert (.node .implies [p, q]) false) := by
  simp only [Formula.allAdmissible, Bool.and_true, Bool.and_eq_true] at admissible
  rw [convertAndAssert, if_neg Bool.false_ne_true]
  refine toCNF_then exact admissible.1 (fun removable => (literals removable).1)
    fun lp s₁ value₁ exact₁ grows₁ bound₁ eval₁ => ?_
  refine toCNF_then exact₁ admissible.2
    (fun removable => (literals (grows₁.removable ▸ removable)).2)
    fun lq s₂ value₂ exact₂ grows₂ bound₂ eval₂ => ?_
  have inside : ∀ c ∈ [[lp.neg, lq]], ∀ l ∈ c, l.var < s₂.next := by
    have := Nat.lt_of_lt_of_le bound₁ grows₂.next_le
    simpa using ⟨this, bound₂⟩
  obtain ⟨exact₃, grows₃⟩ := exact₂.assertClauses inside
  refine ⟨_, value₂, rfl, exact₃.of_iff fun v => and_congr_right fun _ => ?_, grows₃⟩
  have left := (grows₂.eval bound₁ v).trans (eval₁ v)
  simp [Clause.eval, left, eval₂, Formula.eval, Formula.evals, Kind.apply]

theorem convertAndAssertIte_asserts (exact : Exact s value asserted)
    (negated : Bool) (three : nodes.length = 3) (admissible : Formula.allAdmissible nodes = true)
    (literals : s.removable = true → nodes.all Formula.literal = true)
    : Asserts s value asserted (fun v => (Formula.node .ite nodes).eval v = !negated)
        (s.convertAndAssertIte nodes negated) := by
  match nodes, three with
  | [c, t, e], _ =>
    simp only [Formula.allAdmissible, Bool.and_true, Bool.and_eq_true] at admissible
    simp only [List.all_cons, List.all_nil, Bool.and_true, Bool.and_eq_true] at literals
    rw [convertAndAssertIte]
    refine toCNF_then exact admissible.1 (fun removable => (literals removable).1)
      fun lc s₁ value₁ exact₁ grows₁ bound₁ eval₁ => ?_
    refine toCNF_then exact₁ admissible.2.1
      (fun removable => (literals (grows₁.removable ▸ removable)).2.1)
      fun lt s₂ value₂ exact₂ grows₂ bound₂ eval₂ => ?_
    have grown := grows₁.trans grows₂
    refine toCNF_then exact₂ admissible.2.2
      (fun removable => (literals (grown.removable ▸ removable)).2.2)
      fun le s₃ value₃ exact₃ grows₃ bound₃ eval₃ => ?_
    have inside : ∀ c ∈ [[lc.neg, lt], [lc, le]], ∀ l ∈ c, l.var < s₃.next := by
      have first := Nat.lt_of_lt_of_le bound₁ (grows₂.trans grows₃).next_le
      have second := Nat.lt_of_lt_of_le bound₂ grows₃.next_le
      simpa using ⟨⟨first, second⟩, first, bound₃⟩
    obtain ⟨exact₄, grows₄⟩ := exact₃.assertClauses inside
    refine ⟨_, value₃, rfl, exact₄.of_iff fun v => and_congr_right fun _ => ?_, grows₄⟩
    have condition := ((grows₂.trans grows₃).eval bound₁ v).trans (eval₁ v)
    have branch := (grows₃.eval bound₂ v).trans (eval₂ v)
    simp only [Clause.eval, List.forall_mem_cons, List.any_cons, List.any_nil, Literal.eval_neg,
      condition, branch, eval₃, Formula.eval, Formula.evals, Kind.apply]
    cases c.eval v <;> cases t.eval v <;> cases e.eval v <;> cases negated <;> simp

/-- Any other formula is one literal. -/
theorem unit_asserts (exact : Exact s value asserted) {node : Formula}
    (admissible : node.admissible = true) (literal : s.removable = true → node.literal = true)
    (negated : Bool)
    : Asserts s value asserted (fun v => node.eval v = !negated) (do
        let (lit, s) ← s.toCNF node negated
        return s.assertClause .assertion [lit]) := by
  refine toCNF_then exact admissible literal fun lit s₁ value₁ exact₁ _ bound evals => ?_
  obtain ⟨exact₂, grows₂⟩ := exact₁.assertClauses (by simpa using bound : ∀ c ∈ [[lit]], _)
  refine ⟨_, value₁, rfl, exact₂.of_iff fun v => and_congr_right fun _ => ?_, grows₂⟩
  cases value : node.eval v <;> cases negated <;> simp [Clause.eval, evals, value]

mutual
/-- Asserting an admissible formula adds the formula, by induction on the tree. -/
theorem convertAndAssert_asserts : (node : Formula) → (negated : Bool) → {s : CnfStream}
    → {value : Valuation → Nat → Bool} → {asserted : Valuation → Prop}
    → Exact s value asserted → node.admissible = true
    → (s.removable = true → node.clausal negated = true)
    → Asserts s value asserted (fun v => node.eval v = !negated) (s.convertAndAssert node negated)
  | .atom a, negated, _, _, _, exact, _, _ => by
      rw [convertAndAssert]
      · exact unit_asserts exact rfl (fun _ => rfl) negated
      all_goals simp
  | .const b, negated, _, _, _, exact, _, _ => by
      rw [convertAndAssert]
      · exact unit_asserts exact rfl (fun _ => rfl) negated
      all_goals simp
  | .node .not [child], negated, _, _, _, exact, admissible, clausal => by
      simp only [Formula.admissible, Formula.allAdmissible, Bool.and_true, Bool.and_eq_true]
        at admissible
      rw [convertAndAssert]
      refine (convertAndAssert_asserts child (!negated) exact admissible.2 ?_).of_iff fun v => ?_
      · simpa [Formula.clausal] using clausal
      · simp [Formula.eval, Formula.evals, Kind.apply]
  | .node .and children, false, _, _, _, exact, admissible, clausal => by
      simp only [Formula.admissible, Bool.and_eq_true] at admissible
      rw [convertAndAssert]
      refine (convertAndAssertAll_asserts children false exact admissible.2 ?_).of_iff fun v => ?_
      · simpa [Formula.clausal] using clausal
      · simp [Formula.eval, Formula.evals_eq, Kind.apply]
  | .node .and children, true, _, _, _, exact, admissible, clausal => by
      simp only [Formula.admissible, Bool.and_eq_true] at admissible
      rw [convertAndAssert]
      refine (assertOver_clause exact true admissible.2 ?_).of_iff fun v => ?_
      · simpa [Formula.clausal] using clausal
      · simp [Formula.eval, Formula.evals_eq, Kind.apply]
  | .node .or children, false, _, _, _, exact, admissible, clausal => by
      simp only [Formula.admissible, Bool.and_eq_true] at admissible
      rw [convertAndAssert]
      refine (assertOver_clause exact false admissible.2 ?_).of_iff fun v => ?_
      · simpa [Formula.clausal] using clausal
      · simp [Formula.eval, Formula.evals_eq, Kind.apply]
  | .node .or children, true, _, _, _, exact, admissible, clausal => by
      simp only [Formula.admissible, Bool.and_eq_true] at admissible
      rw [convertAndAssert]
      refine (convertAndAssertAll_asserts children true exact admissible.2 ?_).of_iff fun v => ?_
      · simpa [Formula.clausal] using clausal
      · simp [Formula.eval, Formula.evals_eq, Kind.apply]
  | .node .implies [p, q], false, _, _, _, exact, admissible, clausal => by
      simp only [Formula.admissible, Bool.and_eq_true] at admissible
      exact convertAndAssert_implies exact admissible.2 (by simpa [Formula.clausal] using clausal)
  | .node .implies [p, q], true, _, _, _, exact, admissible, clausal => by
      simp only [Formula.admissible, Formula.allAdmissible, Bool.and_true, Bool.and_eq_true]
        at admissible
      simp only [Formula.clausal, if_true, Bool.and_eq_true] at clausal
      rw [convertAndAssert, if_pos rfl]
      have first := convertAndAssert_asserts p false exact admissible.2.1
        (fun removable => (clausal removable).1)
      refine (first.bind fun exact' removable => convertAndAssert_asserts q true exact'
        admissible.2.2 fun isRemovable => (clausal (removable ▸ isRemovable)).2).of_iff fun v => ?_
      simp [Formula.eval, Formula.evals, Kind.apply]
  | .node .xor children, negated, _, _, _, exact, admissible, clausal => by
      simp only [Formula.admissible, Bool.and_eq_true] at admissible
      rw [convertAndAssert]
      exact convertAndAssertXor_asserts exact negated (by simpa [Kind.arity] using admissible.1.1)
        admissible.2 (by simpa [Formula.clausal] using clausal)
  | .node .equal children, negated, _, _, _, exact, admissible, clausal => by
      simp only [Formula.admissible, Bool.and_eq_true] at admissible
      rw [convertAndAssert]
      exact convertAndAssertIff_asserts exact negated (by simpa [Kind.arity] using admissible.1.1)
        admissible.2 (by simpa [Formula.clausal] using clausal)
  | .node .ite children, negated, _, _, _, exact, admissible, clausal => by
      simp only [Formula.admissible, Bool.and_eq_true] at admissible
      rw [convertAndAssert]
      exact convertAndAssertIte_asserts exact negated (by simpa [Kind.arity] using admissible.1.1)
        admissible.2 (by simpa [Formula.clausal] using clausal)
  | .node .not [], _, _, _, _, _, admissible, _ => nomatch admissible
  | .node .not (_ :: _ :: _), _, _, _, _, _, admissible, _ => by
      simp [Formula.admissible, Kind.arity] at admissible
  | .node .implies [], _, _, _, _, _, admissible, _ => nomatch admissible
  | .node .implies [_], _, _, _, _, _, admissible, _ => nomatch admissible
  | .node .implies (_ :: _ :: _ :: _), _, _, _, _, _, admissible, _ => by
      simp [Formula.admissible, Kind.arity] at admissible

theorem convertAndAssertAll_asserts : (nodes : List Formula) → (negated : Bool) → {s : CnfStream}
    → {value : Valuation → Nat → Bool} → {asserted : Valuation → Prop}
    → Exact s value asserted → Formula.allAdmissible nodes = true
    → (s.removable = true → Formula.allClausal nodes negated = true)
    → Asserts s value asserted (fun v => ∀ f ∈ nodes, f.eval v = !negated)
        (s.convertAndAssertAll negated nodes)
  | [], negated, s, value, asserted, exact, _, _ =>
      ⟨s, value, rfl, exact.of_iff (by simp), Grows.refl s value⟩
  | node :: rest, negated, s, value, asserted, exact, admissible, clausal => by
      simp only [Formula.allAdmissible, Bool.and_eq_true] at admissible
      simp only [Formula.allClausal, Bool.and_eq_true] at clausal
      rw [convertAndAssertAll]
      have first := convertAndAssert_asserts node negated exact admissible.1
        (fun removable => (clausal removable).1)
      refine (first.bind fun exact' removable => convertAndAssertAll_asserts rest negated exact'
        admissible.2 fun isRemovable => (clausal (removable ▸ isRemovable)).2).of_iff fun v => ?_
      simp
end

end CnfStream

end Ava6.Cnf

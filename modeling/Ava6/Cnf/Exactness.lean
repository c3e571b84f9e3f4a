import Ava6.Cnf.Assertions

/-! Exactness of CNF conversion over all sequences of calls. -/

namespace Ava6.Cnf

open Ava6.Library.Sat

namespace CnfStream

variable {s s' : CnfStream} {value value' : Valuation → Nat → Bool} {asserted : Valuation → Prop}

/-- What the calls may be: admissible formulas, of which the removable ones have no Boolean
structure that would need a definition. -/
def Call.wellFormed : Call → Bool
  | .convertAndAssert node removable negated =>
      node.admissible && (!removable || node.clausal negated)
  | .ensureLiteral node => node.admissible

/-- The formula a call asserts, negated where asked. -/
def Call.holds (v : Valuation) : Call → Bool
  | .convertAndAssert node _ negated => node.eval v != negated
  | .ensureLiteral _ => true

/-- The first clauses make one variable true and another false, and nothing else is there yet. -/
theorem initial_exact (flitPolicy : FormulaLitPolicy)
    : Exact (initial flitPolicy) (fun _ x => x == SatClauseSink.trueVar) (fun _ => True) := by
  have clauses {c : SatClause} (member : c ∈ (initial flitPolicy).satSolver.clauses)
      : c = ⟨[⟨SatClauseSink.trueVar, false⟩], false, .definition⟩
        ∨ c = ⟨[⟨SatClauseSink.falseVar, true⟩], false, .definition⟩ := by
    simpa [initial, SatClauseSink.initial] using member
  constructor
  case literal => exact nofun
  case paired => exact fun _ => rfl
  case constants => exact ⟨Nat.lt_succ_self 2, fun _ => ⟨rfl, rfl⟩⟩
  case clauses =>
    intro c member l inside
    have three : (initial flitPolicy).next = 3 := rfl
    rcases clauses member with rfl | rfl <;> rw [List.mem_singleton.mp inside, three] <;> decide
  case definitions =>
    intro v c member _
    rcases clauses member with rfl | rfl <;> rfl
  case unique =>
    intro v σ satisfies _ x positive bound
    have isTrue := satisfies _ List.mem_cons_self rfl
    have isFalse := satisfies _ (List.mem_cons_of_mem _ List.mem_cons_self) rfl
    simp only [Clause.eval, Literal.eval, List.any_cons, List.any_nil, Bool.or_false, Bool.xor_false,
      Bool.xor_true, Bool.not_eq_true'] at isTrue isFalse
    have either : x = SatClauseSink.trueVar ∨ x = SatClauseSink.falseVar := by
      have : x < 3 := bound
      simp only [SatClauseSink.trueVar, SatClauseSink.falseVar]
      omega
    rcases either with rfl | rfl
    · exact isTrue
    · exact isFalse
  case assertions =>
    intro v
    refine ⟨fun _ => trivial, fun _ c member isAssertion => ?_⟩
    rcases clauses member with rfl | rfl <;> contradiction

/-- A call keeps the literals of nodes, and adds what it asserts. -/
structure CallSpec (s : CnfStream) (c : Call) (asserted : Valuation → Prop) (s' : CnfStream)
    (value' : Valuation → Nat → Bool) : Prop where
  exact : Exact s' value' fun v => asserted v ∧ c.holds v = true
  mapped {f : Formula} {lit : SatLiteral} : s.getLiteral f = some lit → s'.getLiteral f = some lit
  ensures {node : Formula} : c = .ensureLiteral node → s'.hasLiteral node = true

/-- A node without a literal gets one, and the literals of other nodes stay. An atom is allocated and any
other node is converted, with its definition permanent.
-/
theorem ensureNewLiteral_spec (exact : Exact s value asserted) {n : Formula}
    (admissible : n.admissible = true) (unmapped : s.hasLiteral n = false)
    : ∃ s' value', s.ensureNewLiteral n = some s' ∧ Exact s' value' asserted
      ∧ s'.hasLiteral n = true
      ∧ ∀ {f lit}, s.getLiteral f = some lit → s'.getLiteral f = some lit := by
  by_cases isAtom : ∃ a, n = .atom a
  · obtain ⟨a, rfl⟩ := isAtom
    obtain ⟨lit, s', value', isNew, exact', grows, has⟩ := convertAtom_converted exact (by simp) unmapped
    exact ⟨s', value', by simp [ensureNewLiteral, isNew], exact', has, grows.mapped⟩
  · have permanent : Exact { s with removable := false } value asserted := exact.congr rfl rfl rfl
    obtain ⟨lit, s', value', converts, ⟨exact', grows, has⟩, _⟩ :=
      toCNF_converted permanent admissible (by simp) false
    obtain ⟨sat, map, _⟩ := storeBack_sat s' lit n
    have sameLiterals (f : Formula) : (s'.storeBack lit n).getLiteral f = s'.getLiteral f := by
      rw [getLiteral, getLiteral, map]
    refine ⟨s'.storeBack lit n, value', ?_, exact'.congr (by rw [sat]) (by rw [sat]) map, ?_, ?_⟩
    · cases n with
      | atom a => exact absurd ⟨a, rfl⟩ isAtom
      | const b => simp [ensureNewLiteral, converts]
      | node k children => simp [ensureNewLiteral, converts]
    · rw [hasLiteral, sameLiterals]
      exact has
    · intro f lit' found
      rw [sameLiterals]
      exact grows.mapped found

/-- Asking for a literal asserts nothing, by cases: a known literal is only mapped back, a negation gets the
one of its child, and other nodes are converted.
-/
theorem ensureLiteral_spec (exact : Exact s value asserted) {node : Formula}
    (admissible : node.admissible = true)
    : ∃ s' value', s.ensureLiteral node = some s'
      ∧ CallSpec s (.ensureLiteral node) asserted s' value' := by
  cases found : s.getLiteral node with
  | some lit =>
    -- only the map back from literals changes
    refine ⟨s.ensureMappingForLiteral lit node, value, by simp [ensureLiteral, found], ?_⟩
    unfold ensureMappingForLiteral
    split
    · refine ⟨exact.of_iff (by simp [Call.holds]), id, fun same => ?_⟩
      cases same
      rw [hasLiteral, found, Option.isSome_some]
    · refine ⟨(exact.of_iff (by simp [Call.holds])).congr rfl rfl rfl, id, fun same => ?_⟩
      cases same
      have has : s.hasLiteral node = true := by rw [hasLiteral, found, Option.isSome_some]
      exact has
  | none =>
    have unmapped : s.hasLiteral node = false := by rw [hasLiteral, found, Option.isSome_none]
    by_cases isNegation : ∃ child, node = .node .not [child]
    · -- the child has no literal either, and its literal brings that of the negation
      obtain ⟨child, rfl⟩ := isNegation
      simp only [Formula.admissible, Formula.allAdmissible, Bool.and_eq_true] at admissible
      have plain : child.isNot = false := by simpa using admissible.1.2
      have childUnmapped : s.hasLiteral child = false := (exact.paired plain).symm.trans unmapped
      obtain ⟨s', value', ensured, exact', has, mapped⟩ :=
        ensureNewLiteral_spec exact admissible.2.1 childUnmapped
      refine ⟨s', value', by simp [ensureLiteral, found, ensured],
        exact'.of_iff (by simp [Call.holds]), mapped, fun same => ?_⟩
      cases same
      exact (exact'.paired plain).trans has
    · obtain ⟨s', value', ensured, exact', has, mapped⟩ :=
        ensureNewLiteral_spec exact admissible unmapped
      refine ⟨s', value', ?_, exact'.of_iff (by simp [Call.holds]), mapped, fun same => ?_⟩
      · unfold ensureLiteral
        split
        · next isSome =>
          rw [found] at isSome
          contradiction
        · exact absurd ⟨_, rfl⟩ isNegation
        · exact ensured
      · cases same
        exact has

/-- Each call succeeds and keeps the invariant, by the lemmas of the two kinds of calls. -/
theorem call_spec (exact : Exact s value asserted) {c : Call} (wellFormed : c.wellFormed = true)
    : ∃ s' value', s.call c = some s' ∧ CallSpec s c asserted s' value' := by
  match c with
  | .ensureLiteral node => exact ensureLiteral_spec exact wellFormed
  | .convertAndAssert node removable negated =>
    simp only [Call.wellFormed, Bool.and_eq_true, Bool.or_eq_true, Bool.not_eq_true'] at wellFormed
    obtain ⟨admissible, clausal⟩ := wellFormed
    have started : Exact { s with removable := removable } value asserted := exact.congr rfl rfl rfl
    obtain ⟨s', value', isSome, exact', grows⟩ := convertAndAssert_asserts node negated started
      admissible (by rintro rfl; simpa using clausal)
    refine ⟨s', value', isSome, exact'.of_iff fun v => and_congr_right fun _ => ?_, grows.mapped,
      nofun⟩
    cases value : node.eval v <;> cases negated <;> simp [Call.holds, value]

/-- A run keeps the invariant, by induction on the calls; what a call maps or ensures is kept by the later
ones.
-/
theorem run_spec (calls : List Call) (exact : Exact s value asserted)
    (wellFormed : ∀ c ∈ calls, c.wellFormed = true)
    : ∃ s' value', run s calls = some s'
      ∧ Exact s' value' (fun v => asserted v ∧ ∀ c ∈ calls, c.holds v = true)
      ∧ (∀ {f lit}, s.getLiteral f = some lit → s'.getLiteral f = some lit)
      ∧ ∀ node, .ensureLiteral node ∈ calls → s'.hasLiteral node = true := by
  induction calls generalizing s value asserted with
  | nil => exact ⟨s, value, rfl, exact.of_iff (by simp), id, by simp⟩
  | cons c rest ih =>
    obtain ⟨s₁, value₁, isSome, spec⟩ := call_spec exact (wellFormed c List.mem_cons_self)
    obtain ⟨s₂, value₂, runs, exact₂, mapped₂, ensures₂⟩ := ih spec.exact
      fun d member => wellFormed d (List.mem_cons_of_mem _ member)
    refine ⟨s₂, value₂, ?_, exact₂.of_iff (by simp [and_assoc]),
      fun found => mapped₂ (spec.mapped found), fun node member => ?_⟩
    · rw [run, isSome, Option.bind_some, runs]
    · rcases List.mem_cons.mp member with same | later
      · obtain ⟨lit, found⟩ := Option.isSome_iff_exists.mp (spec.ensures same.symm)
        rw [hasLiteral, mapped₂ found, Option.isSome_some]
      · exact ensures₂ node later

/-- After every sequence of calls each assignment of the atoms has one extension to the allocated variables
that satisfies the definitions. Under it every literal has the value of its node, and all clauses hold
exactly when all asserted formulas do. The extension and its uniqueness are part of the invariant of the
run.
-/
theorem cnf_conversion_exact (flitPolicy : FormulaLitPolicy) (calls : List Call)
    (wellFormed : ∀ c ∈ calls, c.wellFormed = true)
    : ∃ s, run (initial flitPolicy) calls = some s
      ∧ (∀ node, .ensureLiteral node ∈ calls → s.hasLiteral node = true)
      ∧ ∀ v, ∃ σ, (s.SatisfiesDefinitions σ ∧ s.Agrees v σ)
        ∧ (∀ σ', s.SatisfiesDefinitions σ' → s.Agrees v σ' → ∀ x, 0 < x → x < s.next → σ' x = σ x)
        ∧ (∀ node lit, s.getLiteral node = some lit → lit.eval σ = node.eval v)
        ∧ ((∀ c ∈ s.satSolver.clauses, c.literals.eval σ = true)
          ↔ ∀ c ∈ calls, c.holds v = true) := by
  obtain ⟨s, value, runs, exact, _, ensures⟩ := run_spec calls (initial_exact flitPolicy) wellFormed
  refine ⟨s, runs, ensures, fun v => ⟨value v, ⟨exact.definitions v, fun a lit found => ?_⟩,
    fun σ' satisfies agrees => exact.unique satisfies agrees,
    fun node lit found => (exact.literal found).2.2 v, ?_⟩⟩
  · rw [(exact.literal found).2.2 v, Formula.eval]
  · have assertions := exact.assertions v
    rw [true_and] at assertions
    rw [← assertions]
    refine ⟨fun all c member _ => all c member, fun all c member => ?_⟩
    cases origin : c.origin with
    | definition => exact exact.definitions v c member origin
    | assertion => exact all c member origin

/-- The disjunction shares a conjunction with the formula asserted before it. -/
theorem cnf_conversion_exact_shared
    : let p : Formula := .atom (.theory 0)
      let q : Formula := .atom (.var 0 false)
      let both : Formula := .node .and [p, q.notNode]
      let calls : List Call := [.convertAndAssert (.node .equal [both, p]) false true,
        .ensureLiteral both.notNode, .convertAndAssert (.node .or [both, q]) false false,
        .convertAndAssert (.node .or [p, q]) true false]
      (∀ c ∈ calls, c.wellFormed = true)
      ∧ ∃ s, run (initial .trackAndNotify) calls = some s
        ∧ (∀ node, .ensureLiteral node ∈ calls → s.hasLiteral node = true)
        ∧ ∀ v, ∃ σ, (s.SatisfiesDefinitions σ ∧ s.Agrees v σ)
          ∧ (∀ σ', s.SatisfiesDefinitions σ' → s.Agrees v σ' → ∀ x, 0 < x → x < s.next → σ' x = σ x)
          ∧ (∀ node lit, s.getLiteral node = some lit → lit.eval σ = node.eval v)
          ∧ ((∀ c ∈ s.satSolver.clauses, c.literals.eval σ = true)
            ↔ ∀ c ∈ calls, c.holds v = true) := by
  intro p q both calls
  have wellFormed : ∀ c ∈ calls, c.wellFormed = true := by
    simp [calls, both, p, q, Call.wellFormed, Formula.notNode, Formula.admissible,
      Formula.allAdmissible, Kind.arity, Formula.isNot, Formula.clausal, Formula.literal]
  exact ⟨wellFormed, cnf_conversion_exact .trackAndNotify calls wellFormed⟩

end CnfStream

end Ava6.Cnf

import Ava6.Cnf.Definitions

/-! Conversion to literals. The loop gives every node of an admissible tree a literal within twice
its size, and keeps the invariant.
-/

namespace Ava6.Cnf

open Ava6.Library.Sat

/-- An atom, a constant, or the negation of one. -/
def Formula.literal : Formula → Bool
  | .atom _ | .const _ => true
  | .node .not [child] => child.literal
  | .node _ _ => false

theorem Formula.literal_node {k : Kind} {children : List Formula} (isLiteral : (Formula.node k children).literal = true)
    : ∃ child, k = .not ∧ children = [child] ∧ child.literal = true := by
  cases k with
  | not =>
      rcases children with _ | ⟨child, _ | ⟨second, rest⟩⟩
      · simp [Formula.literal] at isLiteral
      · exact ⟨child, rfl, rfl, by simpa [Formula.literal] using isLiteral⟩
      · simp [Formula.literal] at isLiteral
  | _ => simp [Formula.literal] at isLiteral

namespace CnfStream

variable {s s' : CnfStream} {value value' : Valuation → Nat → Bool} {asserted : Valuation → Prop}

/-- The states reached from `s` in which a node has a literal. -/
structure Converted (s : CnfStream) (value : Valuation → Nat → Bool) (asserted : Valuation → Prop)
    (node : Formula) (s' : CnfStream) (value' : Valuation → Nat → Bool) : Prop where
  exact : Exact s' value' asserted
  grows : Grows s value s' value'
  has : s'.hasLiteral node = true

variable {node : Formula}

theorem getLiteral_eq_none_of (unmapped : s.hasLiteral node = false)
    : s.getLiteral node = none := by
  rwa [hasLiteral, Option.isSome_eq_false_iff, Option.isNone_iff_eq_none] at unmapped

theorem newLiteral_atom (exact : Exact s value asserted) (isTheoryAtom : Bool) {a : Atom}
    (unmapped : s.hasLiteral (.atom a) = false)
    : ∃ lit s' value', s.newLiteral (.atom a) isTheoryAtom = some (lit, s')
      ∧ Converted s value asserted (.atom a) s' value' := by
  have none := getLiteral_eq_none_of unmapped
  obtain ⟨s', isNew, adds⟩ := newLiteral_adds isTheoryAtom rfl none
  obtain ⟨value', exact', grows, found⟩ := adds.exact exact rfl none (by simp) (by simp) (by simp)
    (fun v σ _ _ isAtom => isAtom a rfl)
  exact ⟨_, s', value', isNew, exact', grows, by rw [hasLiteral, found]; rfl⟩

/-- An atom or a constant gets its literal. -/
theorem convertAtom_converted (exact : Exact s value asserted)
    (leaf : ∀ k children, node ≠ .node k children) (unmapped : s.hasLiteral node = false)
    : ∃ lit s' value', s.convertAtom node = some (lit, s')
      ∧ Converted s value asserted node s' value' := by
  unfold convertAtom
  rw [unmapped]
  simp only [Bool.false_eq_true, if_false]
  match node, leaf with
  | .atom (.var name false), _ =>
    -- the list of Boolean variables plays no part in the invariant
    have exact' : Exact { s with booleanVariables := s.booleanVariables ++ [.atom (.var name false)] }
        value asserted := exact.congr rfl rfl rfl
    obtain ⟨lit, s', value', isNew, converted⟩ := newLiteral_atom exact'
      (s.flitPolicy == .trackAndNotifyVar) unmapped
    obtain ⟨grown, grows, has⟩ := converted
    exact ⟨lit, s', value', isNew, grown,
      ⟨grows.next_le, grows.same, grows.mapped, grows.removable⟩, has⟩
  | .atom (.var name true), _ => exact newLiteral_atom exact true unmapped
  | .atom (.theory name), _ => exact newLiteral_atom exact true unmapped
  | .const b, _ =>
    have none := getLiteral_eq_none_of unmapped
    obtain ⟨s', isNew, adds⟩ := newLiteral_adds true rfl none
    obtain ⟨exact', grows, has⟩ := adds.exact_const exact none
    exact ⟨_, s', value, isNew, exact', grows, has⟩
  | .node k children, leaf => exact absurd rfl (leaf k children)

/-- The clauses that define the literal of a node of a kind. -/
def gateClauses : Kind → List SatLiteral → SatLiteral → List Clause
  | .not => fun _ _ => []
  | .and => andClauses
  | .or => orClauses
  | .xor => xorClauses
  | .implies => impliesClauses
  | .ite => iteClauses
  | .equal => iffClauses

variable {k : Kind}

theorem gateClauses_define (gate : k ≠ .not) : Defines k (gateClauses k) := by
  cases k with
  | not => contradiction
  | and => exact andClauses_define
  | or => exact orClauses_define
  | xor => exact xorClauses_define
  | implies => exact impliesClauses_define
  | ite => exact iteClauses_define
  | equal => exact iffClauses_define

theorem visitNode_gate (gate : k ≠ .not) (children : List Formula)
    : s.visitNode (.node k children) = s.handle (.node k children) (gateClauses k) := by
  cases k with
  | not => contradiction
  | and => rfl
  | or => rfl
  | xor => rfl
  | implies => rfl
  | ite => rfl
  | equal => rfl

theorem assertClauses_eq (s : CnfStream) (origin : Origin) (cs : List Clause)
    : s.assertClauses origin cs
      = { s with satSolver := { s.satSolver with
          clauses := s.satSolver.clauses ++ cs.map (⟨·.eraseDups, s.removable, origin⟩) } } := by
  induction cs generalizing s with
  | nil => simp [assertClauses]
  | cons c rest ih =>
    rw [assertClauses, List.foldl_cons]
    refine (ih _).trans ?_
    simp [assertClause, SatClauseSink.addClause]

/-- The literals of several nodes have the truth values of the nodes. -/
theorem Exact.mapM_getLiteral (exact : Exact s value asserted) {nodes : List Formula}
    (has : ∀ f ∈ nodes, s.hasLiteral f = true)
    : ∃ lits, nodes.mapM s.getLiteral = some lits ∧ lits.length = nodes.length
      ∧ (∀ l ∈ lits, 0 < l.var ∧ l.var < s.next)
      ∧ ∀ v, lits.map (·.eval (value v)) = nodes.map (·.eval v) := by
  induction nodes with
  | nil => exact ⟨[], rfl, rfl, by simp, fun _ => rfl⟩
  | cons f rest ih =>
    obtain ⟨lit, found⟩ := Option.isSome_iff_exists.mp (has f List.mem_cons_self)
    obtain ⟨lits, mapped, length, vars, evals⟩ := ih fun g member =>
      has g (List.mem_cons_of_mem _ member)
    obtain ⟨positive, bound, eval⟩ := exact.literal found
    refine ⟨lit :: lits, ?_, by simp [length], ?_, fun v => ?_⟩
    · rw [List.mapM_cons, found, mapped]
      rfl
    · intro l member
      rcases List.mem_cons.mp member with rfl | member
      · exact ⟨positive, bound⟩
      · exact vars l member
    · rw [List.map_cons, List.map_cons, evals, eval]

variable {children : List Formula}

/-- A node whose children have literals gets its own. -/
theorem visitNode_converted (exact : Exact s value asserted)
    (gate : k ≠ .not) (arity : k.arity children.length = true) (permanent : s.removable = false)
    (unmapped : s.hasLiteral (.node k children) = false)
    (has : ∀ f ∈ children, s.hasLiteral f = true)
    : ∃ s' value', s.visitNode (.node k children) = some s'
      ∧ Converted s value asserted (.node k children) s' value' := by
  have none := getLiteral_eq_none_of unmapped
  have plain : (Formula.node k children).isNot = false := by
    cases k <;> first | contradiction | rfl
  obtain ⟨lits, mapped, length, vars, evals⟩ := exact.mapM_getLiteral has
  obtain ⟨s₁, isNew, adds⟩ := newLiteral_adds false plain none
  have defines := gateClauses_define gate
  have litsArity : k.arity lits.length = true := by rw [length]; exact arity
  let lit : SatLiteral := ⟨s.next, false⟩
  let new : List SatClause := (gateClauses k lits lit).map (⟨·.eraseDups, s₁.removable, .definition⟩)
  -- the clauses hold exactly when the new variable is the connective of the children
  have newHolds (v : Valuation) (σ : Nat → Bool)
      (same : ∀ x, 0 < x → x < s.next → σ x = value v x)
      : (∀ c ∈ new, c.literals.eval σ = true) ↔ σ s.next = (Formula.node k children).eval v := by
    have kept : lits.map (·.eval σ) = children.map (·.eval v) := by
      rw [← evals v]
      refine List.map_congr_left fun l member => ?_
      obtain ⟨positive, bound⟩ := vars l member
      exact Literal.eval_congr (same l.var positive bound)
    have iff := defines.iff lit σ litsArity
    rw [kept, ← Formula.evals_eq] at iff
    simp only [new, List.forall_mem_map, Clause.eval_eraseDups]
    rw [iff]
    simp [lit, Literal.eval, Formula.eval]
  have final : Adds s (.node k children) lit (s.next + 1) new
      (s₁.assertClauses .definition (gateClauses k lits lit)) := by
    rw [assertClauses_eq]
    refine ⟨adds.map, adds.next, ?_, adds.removable⟩
    rw [adds.clauses, List.append_nil]
  obtain ⟨value', exact', grows, found⟩ := final.exact exact plain none
    (by simp [new])
    (by
      intro c member l inside
      obtain ⟨clause, isClause, rfl⟩ := List.mem_map.mp member
      rcases defines.vars isClause (List.mem_eraseDups.mp inside) with same | ⟨a, isChild, same⟩
      · rw [same]
        exact Nat.lt_succ_self _
      · rw [same]
        exact Nat.lt_succ_of_lt (vars a isChild).2)
    (fun v σ same isValue => (newHolds v σ fun x _ bound => same x bound).mpr isValue)
    (fun v σ same satisfied _ => (newHolds v σ same).mp satisfied)
  refine ⟨_, value', ?_, exact', grows, by rw [hasLiteral, found]; rfl⟩
  rw [visitNode_gate gate]
  simp only [handle, unmapped, permanent, Bool.or_self, Bool.false_eq_true, if_false,
    Formula.children, mapped, isNew]
  rfl

/-- What the cache says of a node. -/
def lookup (cache : List (Formula × Bool)) (node : Formula) : Option Bool :=
  (cache.find? (·.1 = node)).map (·.2)

theorem lookup_cons (entry : Formula × Bool) (cache : List (Formula × Bool)) (node : Formula)
    : lookup (entry :: cache) node = if entry.1 = node then some entry.2 else lookup cache node := by
  by_cases same : entry.1 = node
  · simp [lookup, same]
  · simp [lookup, same]

section Steps
variable {cur : Formula} {cache : List (Formula × Bool)} (fuel : Nat) (visit : List Formula)

theorem toCNFLoop_hasLiteral (has : s.hasLiteral cur = true)
    : toCNFLoop (fuel + 1) (cur :: visit) cache s = toCNFLoop fuel visit cache s := by
  rw [toCNFLoop, has, if_pos rfl]

theorem toCNFLoop_unseen (unmapped : s.hasLiteral cur = false) (unseen : lookup cache cur = none)
    : toCNFLoop (fuel + 1) (cur :: visit) cache s
      = toCNFLoop fuel (cur.children ++ cur :: visit) ((cur, false) :: cache) s := by
  rw [lookup] at unseen
  rw [toCNFLoop, unmapped, unseen]
  rfl

theorem toCNFLoop_seen (unmapped : s.hasLiteral cur = false)
    (seen : lookup cache cur = some false) (visited : s.visitNode cur = some s')
    : toCNFLoop (fuel + 1) (cur :: visit) cache s
      = toCNFLoop fuel visit ((cur, true) :: cache) s' := by
  rw [lookup] at seen
  rw [toCNFLoop, unmapped, seen, visited]
  rfl

end Steps

/-- The loop takes nodes off the stack, with a literal for each of them. Of nodes without a
literal the cache says what it said before. -/
structure Takes (nodes : List Formula) (cache : List (Formula × Bool)) (s : CnfStream)
    (steps : Nat) (cache' : List (Formula × Bool)) (s' : CnfStream) : Prop where
  loop (fuel : Nat) (visit : List Formula)
    : toCNFLoop (fuel + steps) (nodes ++ visit) cache s = toCNFLoop fuel visit cache' s'
  has : ∀ f ∈ nodes, s'.hasLiteral f = true
  cached {f : Formula} : s'.hasLiteral f = false → lookup cache' f = lookup cache f

/-- The loop handles these nodes from a state that knows nothing about nodes of their size. -/
def Handles (nodes : List Formula) (size : Nat) : Prop :=
  ∀ {s : CnfStream} {value : Valuation → Nat → Bool} {asserted : Valuation → Prop}
    {cache : List (Formula × Bool)},
    Exact s value asserted → (∀ f ∈ nodes, s.removable = true → f.literal = true)
    → (∀ f, f.size ≤ size → s.hasLiteral f = false → lookup cache f = none)
    → ∃ steps cache' s' value', steps ≤ 2 * Formula.sizes nodes ∧ Takes nodes cache s steps cache' s'
      ∧ Exact s' value' asserted ∧ Grows s value s' value'

theorem handles_nil (size : Nat) : Handles [] size := by
  intro s value asserted cache exact _ _
  exact ⟨0, cache, s, value, Nat.zero_le _, ⟨fun _ _ => rfl, by simp, fun _ => rfl⟩, exact,
    Grows.refl s value⟩

variable {size : Nat}

theorem Handles.cons {rest : List Formula} (head : Handles [node] size)
    (tail : Handles rest size) : Handles (node :: rest) size := by
  intro s value asserted cache exact literals fresh
  obtain ⟨steps₁, cache₁, s₁, value₁, bound₁, takes₁, exact₁, grows₁⟩ := head exact
    (fun f member => literals f (by simp_all)) fresh
  have fresh₁ (f : Formula) (small : f.size ≤ size) (unmapped : s₁.hasLiteral f = false)
      : lookup cache₁ f = none := by
    rw [takes₁.cached unmapped]
    refine fresh f small ?_
    by_contra has
    rw [grows₁.hasLiteral (by simpa using has)] at unmapped
    contradiction
  obtain ⟨steps₂, cache₂, s₂, value₂, bound₂, takes₂, exact₂, grows₂⟩ := tail exact₁
    (fun f member => grows₁.removable ▸ literals f (List.mem_cons_of_mem _ member)) fresh₁
  refine ⟨steps₂ + steps₁, cache₂, s₂, value₂, ?_, ⟨fun fuel visit => ?_, ?_, fun unmapped => ?_⟩,
    exact₂, grows₁.trans grows₂⟩
  · simp only [Formula.sizes] at bound₁ ⊢
    omega
  · rw [← Nat.add_assoc]
    refine (takes₁.loop (fuel + steps₂) (rest ++ visit)).trans ?_
    exact takes₂.loop fuel visit
  · intro f member
    rcases List.mem_cons.mp member with rfl | member
    · exact grows₂.hasLiteral (takes₁.has f List.mem_cons_self)
    · exact takes₂.has f member
  · rw [takes₂.cached unmapped]
    refine takes₁.cached ?_
    by_contra has
    rw [grows₂.hasLiteral (by simpa using has)] at unmapped
    contradiction

/-- A node that has a literal is taken off at once. -/
theorem handles_mapped {cache : List (Formula × Bool)} (s : CnfStream)
    (has : s.hasLiteral node = true) : Takes [node] cache s 1 cache s :=
  ⟨fun fuel visit => toCNFLoop_hasLiteral fuel visit has, by simpa using has, fun _ => rfl⟩

/-- A node whose children were handled is taken off in one more step, with a literal. -/
theorem seen_handled {cache : List (Formula × Bool)}
    (exact : Exact s value asserted)
    (admissible : (Formula.node k children).admissible = true)
    (gate : k ≠ .not → s.removable = false)
    (has : ∀ f ∈ children, s.hasLiteral f = true)
    (seen : s.hasLiteral (.node k children) = false → lookup cache (.node k children) = some false)
    : ∃ cache' s' value', Takes [.node k children] cache s 1 cache' s'
      ∧ Exact s' value' asserted ∧ Grows s value s' value' := by
  cases mapped : s.hasLiteral (.node k children) with
  | true => exact ⟨cache, s, value, handles_mapped s mapped, exact, Grows.refl s value⟩
  | false =>
    simp only [Formula.admissible, Bool.and_eq_true] at admissible
    obtain ⟨⟨arity, negation⟩, _⟩ := admissible
    by_cases isNot : k = .not
    · -- a negation has its literal since its child does
      subst isNot
      match children, arity with
      | [child], _ =>
        have plain : child.isNot = false := by simpa using negation
        have pair := exact.paired plain
        rw [has child List.mem_cons_self, Formula.notNode, mapped] at pair
        contradiction
    · obtain ⟨s', value', visited, exact', grows, has'⟩ :=
        visitNode_converted exact isNot arity (gate isNot) mapped has
      refine ⟨(.node k children, true) :: cache, s', value', ⟨fun fuel visit => ?_, ?_, ?_⟩, exact',
        grows⟩
      · exact toCNFLoop_seen fuel visit mapped (seen mapped) visited
      · simpa using has'
      · intro f unmapped
        rw [lookup_cons, if_neg]
        rintro rfl
        rw [has'] at unmapped
        contradiction

theorem handles_leaf (leaf : ∀ k children, node ≠ .node k children)
    (small : node.size ≤ size) : Handles [node] size := by
  intro s value asserted cache exact _ fresh
  cases mapped : s.hasLiteral node with
  | true =>
    refine ⟨1, cache, s, value, ?_, handles_mapped s mapped, exact, Grows.refl s value⟩
    have := node.size_pos
    simp only [Formula.sizes]
    omega
  | false =>
    obtain ⟨lit, s', value', isNew, exact', grows, has⟩ := convertAtom_converted exact leaf mapped
    have noChildren : node.children = [] := by
      cases node with
      | node k children => exact absurd rfl (leaf k children)
      | atom => rfl
      | const => rfl
    have visited : s.visitNode node = some s' := by
      cases node with
      | node k children => exact absurd rfl (leaf k children)
      | atom => simp [visitNode, isNew]
      | const => simp [visitNode, isNew]
    refine ⟨2, (node, true) :: (node, false) :: cache, s', value', ?_, ⟨fun fuel visit => ?_, ?_, ?_⟩,
      exact', grows⟩
    · have := node.size_pos
      simp only [Formula.sizes]
      omega
    · rw [List.singleton_append, toCNFLoop_unseen _ _ mapped (fresh node small mapped), noChildren]
      exact toCNFLoop_seen fuel visit mapped (by rw [lookup_cons, if_pos rfl]) visited
    · simpa using has
    · intro f unmapped
      have other : node ≠ f := by
        rintro rfl
        rw [has] at unmapped
        contradiction
      rw [lookup_cons, if_neg other, lookup_cons, if_neg other]

theorem handles_gate
    (inner : Handles children (Formula.sizes children))
    (admissible : (Formula.node k children).admissible = true)
    (small : (Formula.node k children).size ≤ size) : Handles [.node k children] size := by
  intro s value asserted cache exact literals fresh
  have literal := literals (.node k children) List.mem_cons_self
  rw [Formula.size] at small
  cases mapped : s.hasLiteral (.node k children) with
  | true =>
    refine ⟨1, cache, s, value, ?_, handles_mapped s mapped, exact, Grows.refl s value⟩
    simp only [Formula.sizes, Formula.size]
    omega
  | false =>
    have childLiterals (f : Formula) (member : f ∈ children) (removable : s.removable = true)
        : f.literal = true := by
      obtain ⟨child, -, rfl, isLiteral⟩ := Formula.literal_node (literal removable)
      rw [List.mem_singleton.mp member]
      exact isLiteral
    have gate (isGate : k ≠ .not) : s.removable = false := by
      by_contra removable
      obtain ⟨child, isNot, -⟩ := Formula.literal_node (literal (by simpa using removable))
      exact isGate isNot
    have childFresh (f : Formula) (isSmall : f.size ≤ Formula.sizes children)
        (unmapped : s.hasLiteral f = false)
        : lookup ((.node k children, false) :: cache) f = none := by
      rw [lookup_cons, if_neg]
      · exact fresh f (by omega) unmapped
      · rintro rfl
        rw [Formula.size] at isSmall
        omega
    obtain ⟨steps, cache₁, s₁, value₁, bound, takes, exact₁, grows₁⟩ :=
      inner exact childLiterals childFresh
    have seen (unmapped : s₁.hasLiteral (.node k children) = false)
        : lookup cache₁ (.node k children) = some false := by
      rw [takes.cached unmapped, lookup_cons, if_pos rfl]
    obtain ⟨cache₂, s₂, value₂, last, exact₂, grows₂⟩ := seen_handled exact₁ admissible
      (fun isGate => grows₁.removable.trans (gate isGate)) takes.has seen
    refine ⟨1 + steps + 1, cache₂, s₂, value₂, ?_, ⟨fun fuel visit => ?_, last.has, ?_⟩, exact₂,
      grows₁.trans grows₂⟩
    · simp only [Formula.sizes, Formula.size]
      omega
    · rw [List.singleton_append, ← Nat.add_assoc,
        toCNFLoop_unseen _ _ mapped (fresh _ (by rw [Formula.size]; exact small) mapped),
        ← Nat.add_assoc]
      refine (takes.loop (fuel + 1) (.node k children :: visit)).trans ?_
      exact last.loop fuel visit
    · intro f unmapped
      have unmapped₁ : s₁.hasLiteral f = false := by
        by_contra has
        rw [grows₂.hasLiteral (by simpa using has)] at unmapped
        contradiction
      have other : Formula.node k children ≠ f := by
        rintro rfl
        rw [last.has _ List.mem_cons_self] at unmapped
        contradiction
      rw [last.cached unmapped, takes.cached unmapped₁, lookup_cons, if_neg other]

mutual
/-- The loop handles an admissible node, by induction on the tree. -/
theorem handles_node (size : Nat) : (node : Formula) → node.admissible = true → node.size ≤ size
    → Handles [node] size
  | .atom _, _, small => handles_leaf (by simp) small
  | .const _, _, small => handles_leaf (by simp) small
  | .node k children, admissible, small => by
      have inner : Formula.allAdmissible children = true := by
        simp only [Formula.admissible, Bool.and_eq_true] at admissible
        exact admissible.2
      exact handles_gate
        (handles_nodes (Formula.sizes children) children inner fun _ => Formula.size_le_sizes)
        admissible small

theorem handles_nodes (size : Nat) : (nodes : List Formula)
    → Formula.allAdmissible nodes = true → (∀ f ∈ nodes, f.size ≤ size) → Handles nodes size
  | [], _, _ => handles_nil size
  | node :: rest, admissible, small => by
      simp only [Formula.allAdmissible, Bool.and_eq_true] at admissible
      exact Handles.cons (handles_node size node admissible.1 (small node List.mem_cons_self))
        (handles_nodes size rest admissible.2 fun f member => small f (List.mem_cons_of_mem _ member))
end

theorem toCNFLoop_done {fuel : Nat} {cache : List (Formula × Bool)}
    : toCNFLoop fuel [] cache s = some s := by
  cases fuel <;> rfl

/-- A node converts to a literal with its truth value. -/
theorem toCNF_converted (exact : Exact s value asserted)
    (admissible : node.admissible = true) (literal : s.removable = true → node.literal = true)
    (negated : Bool)
    : ∃ lit s' value', s.toCNF node negated = some (lit, s')
      ∧ Converted s value asserted node s' value' ∧ lit.var < s'.next
      ∧ ∀ v, lit.eval (value' v) = (node.eval v ^^ negated) := by
  have unseen (f : Formula) (_ : f.size ≤ node.size) (_ : s.hasLiteral f = false)
      : lookup [] f = none := rfl
  obtain ⟨steps, cache, s', value', bound, takes, exact', grows⟩ :=
    handles_node node.size node admissible (Nat.le_refl _) exact (by simpa using literal) unseen
  have has := takes.has node List.mem_cons_self
  obtain ⟨lit, found⟩ := Option.isSome_iff_exists.mp has
  obtain ⟨_, small, evals⟩ := exact'.literal found
  have loop : toCNFLoop (2 * node.size) [node] [] s = some s' := by
    have enough : 2 * node.size = 2 * node.size - steps + steps := by
      simp only [Formula.sizes] at bound
      omega
    rw [enough]
    refine (takes.loop _ []).trans toCNFLoop_done
  refine ⟨if negated then lit.neg else lit, s', value', ?_, ⟨exact', grows, has⟩, ?_, fun v => ?_⟩
  · simp only [toCNF, loop, Option.bind_eq_bind, Option.bind_some, found]
    rfl
  · cases negated <;> exact small
  · cases negated <;> simp [evals]

end CnfStream

end Ava6.Cnf

import Ava6.Booleans.ProofChecker

/-! Soundness of the propositional rules, and chains of resolutions as folds of single ones. -/

namespace Ava6.Booleans

variable {D : Type} [DecidableEq D] {valuation : Node → Value D}

/-- A formula that the rule returns is true where the premises are. -/
def Sound (valuation : Node → Value D) (rule : List Node → List Node → Option Node) : Prop :=
  ∀ children args result, rule children args = some result → result.isFormula = true
    → (∀ n ∈ children, Holds valuation n = true) → Holds valuation result = true

-- Clauses

/-- Some literal is true. -/
def AnyHolds (valuation : Node → Value D) (lits : List Node) : Prop :=
  ∃ l ∈ lits, Holds valuation l = true

theorem holds_mkOr (lits : List Node) : Holds valuation (mkOr lits) = true ↔ AnyHolds valuation lits := by
  match lits with
  | [] => simp [mkOr, falseNode, AnyHolds]
  | [n] => simp [mkOr, AnyHolds]
  | a :: b :: rest => simp [mkOr, AnyHolds]

variable {n : Node} {k : Kind}

theorem kind_eq_some (isKind : n.getKind = some k) : n = .apply k n.children := by
  cases n with
  | const _ => contradiction
  | constInteger _ => contradiction
  | apply k children =>
    cases isKind
    rfl

theorem anyHolds_children (isOr : n.getKind = some .or)
    : AnyHolds valuation n.children ↔ Holds valuation n = true := by
  rw [kind_eq_some isOr]
  simp [AnyHolds, Node.children]

theorem anyHolds_single (n : Node) : AnyHolds valuation [n] ↔ Holds valuation n = true := by
  simp [AnyHolds]

/-- A clause is true when the premise is, whichever way it is read. -/
theorem anyHolds_ite {asOne : Prop} [Decidable asOne]
    (other : ¬ asOne → n.getKind = some .or)
    : AnyHolds valuation (if asOne then [n] else n.children) ↔ Holds valuation n = true := by
  split
  · exact anyHolds_single n
  · next notOne => exact anyHolds_children (other notOne)

theorem anyHolds_clauseLits (pivot n : Node)
    : AnyHolds valuation (clauseLits pivot n) ↔ Holds valuation n = true := by
  unfold clauseLits
  split
  · next isOr => exact anyHolds_children isOr.1
  · exact anyHolds_single n

theorem anyHolds_firstClause (n pol lit : Node)
    : AnyHolds valuation (firstClause n pol lit) ↔ Holds valuation n = true :=
  anyHolds_ite fun notOne => not_not.mp (not_or.mp notOne).1

theorem anyHolds_rhsClause (n rhsElim : Node)
    : AnyHolds valuation (rhsClause n rhsElim) ↔ Holds valuation n = true :=
  anyHolds_ite fun notOne => not_not.mp (not_or.mp notOne).1

theorem anyHolds_disjunctsOf (n : Node)
    : AnyHolds valuation (disjunctsOf n) ↔ Holds valuation n = true := by
  unfold disjunctsOf
  split
  · next isOr => exact anyHolds_children isOr
  · exact anyHolds_single n

theorem holds_pivots (pol lit : Node)
    : Holds valuation (pivots pol lit).1 = !Holds valuation (pivots pol lit).2 := by
  unfold pivots
  split <;> simp

variable {pivot : Node} {lits : List Node}

/-- A true clause stays true without a false pivot, once or everywhere. -/
theorem anyHolds_without {kept : List Node} (holds : AnyHolds valuation lits)
    (isFalse : Holds valuation pivot = false) (keeps : ∀ l ∈ lits, l ≠ pivot → l ∈ kept)
    : AnyHolds valuation kept := by
  obtain ⟨l, member, isTrue⟩ := holds
  refine ⟨l, keeps l member ?_, isTrue⟩
  rintro rfl
  rw [isFalse] at isTrue
  contradiction

/-- One link of a chain: of two clauses that hold, each without a pivot, one still holds. -/
theorem anyHolds_resolve {left right left' right' : List Node} (pol lit : Node)
    (first : AnyHolds valuation left) (second : AnyHolds valuation right)
    (keepsLeft : ∀ l ∈ left, l ≠ (pivots pol lit).1 → l ∈ left')
    (keepsRight : ∀ l ∈ right, l ≠ (pivots pol lit).2 → l ∈ right')
    : AnyHolds valuation (left' ++ right') := by
  have opposite : Holds valuation (pivots pol lit).1 = _ := holds_pivots pol lit
  cases isPivot : Holds valuation (pivots pol lit).2 with
  | true =>
    rw [isPivot] at opposite
    obtain ⟨l, member, isTrue⟩ := anyHolds_without first opposite keepsLeft
    exact ⟨l, List.mem_append_left _ member, isTrue⟩
  | false =>
    obtain ⟨l, member, isTrue⟩ := anyHolds_without second isPivot keepsRight
    exact ⟨l, List.mem_append_right _ member, isTrue⟩

theorem mem_erase_of_ne
    : ∀ l ∈ lits, l ≠ pivot → l ∈ lits.erase pivot :=
  fun _ member different => (List.mem_erase_of_ne different).mpr member

theorem mem_filter_ne
    : ∀ l ∈ lits, l ≠ pivot → l ∈ lits.filter (· ≠ pivot) :=
  fun _ member different => List.mem_filter.mpr ⟨member, by simpa using different⟩

theorem resolution_sound : Sound valuation resolution := by
  intro children args result found _ premises
  match children, args with
  | [left, right], [pol, lit] =>
    cases found
    have first := premises left List.mem_cons_self
    have second := premises right (List.mem_cons_of_mem _ List.mem_cons_self)
    rw [holds_mkOr]
    exact anyHolds_resolve pol lit ((anyHolds_clauseLits _ left).mpr first)
      ((anyHolds_clauseLits _ right).mpr second) mem_erase_of_ne mem_erase_of_ne

variable {children lhs pols result : List Node}

theorem chainLinks_sound
    (found : chainLinks lhs children pols lits = some result) (first : AnyHolds valuation lhs)
    (premises : ∀ n ∈ children, Holds valuation n = true) : AnyHolds valuation result := by
  fun_induction chainLinks lhs children pols lits with
  | case1 lhs child children pol pols lit lits lhsElim rhsElim isPivots rhs _ ih =>
      obtain ⟨holds, later⟩ := List.forall_mem_cons.mp premises
      have second : AnyHolds valuation rhs := (anyHolds_rhsClause child rhsElim).mpr holds
      refine ih found (anyHolds_resolve pol lit first second ?_ ?_) later <;> rw [isPivots] <;> exact mem_erase_of_ne
  | case3 => exact Option.some.inj found ▸ first
  | case2 | case4 => cases found

theorem chainMLinks_sound
    (found : chainMLinks lhs children pols lits = some result) (first : AnyHolds valuation lhs)
    (premises : ∀ n ∈ children, Holds valuation n = true) : AnyHolds valuation result := by
  fun_induction chainMLinks lhs children pols lits with
  | case1 lhs child children pol pols lit lits lhsElim rhsElim isPivots rhs ih =>
      obtain ⟨holds, later⟩ := List.forall_mem_cons.mp premises
      have second : AnyHolds valuation rhs := (anyHolds_rhsClause child rhsElim).mpr holds
      refine ih found (anyHolds_resolve pol lit first second ?_ ?_) later <;> rw [isPivots] <;> exact mem_filter_ne
  | case2 => exact Option.some.inj found ▸ first
  | case3 => cases found

theorem chainResolution_sound : Sound valuation chainResolution := by
  intro children args result found _ premises
  match children, args with
  | first :: second :: rest, [polsNode, litsNode] =>
    simp only [chainResolution] at found
    split at found
    · obtain ⟨lits, links, rfl⟩ := Option.map_eq_some_iff.mp found
      rw [holds_mkOr]
      refine chainLinks_sound links ?_ fun n member => premises n (List.mem_cons_of_mem _ member)
      exact (anyHolds_firstClause first _ _).mpr (premises first List.mem_cons_self)
    · contradiction

theorem anyHolds_sameSet {first second : List Node} (same : sameSet first second = true)
    : AnyHolds valuation first ↔ AnyHolds valuation second := by
  simp only [sameSet, Bool.and_eq_true, List.all_eq_true, List.contains_iff_mem] at same
  constructor
  · intro ⟨l, member, holds⟩
    exact ⟨l, same.1 l member, holds⟩
  · intro ⟨l, member, holds⟩
    exact ⟨l, same.2 l member, holds⟩

theorem anyHolds_eraseDups (lits : List Node)
    : AnyHolds valuation lits.eraseDups ↔ AnyHolds valuation lits := by
  simp [AnyHolds]

theorem matchConclusion_sound {computed : List Node} {conclusion result : Node}
    (found : matchConclusion computed conclusion = some result) (holds : AnyHolds valuation computed)
    : Holds valuation result = true := by
  rw [← anyHolds_eraseDups] at holds
  unfold matchConclusion at found
  split at found
  · next empty =>
    rw [empty] at holds
    simp [AnyHolds] at holds
  · next lit single =>
    rw [single, anyHolds_single] at holds
    split at found
    · next isLit =>
      cases found
      rw [isLit]
      exact holds
    · contradiction
  · split at found
    · next isOr =>
      cases found
      rw [anyHolds_sameSet isOr.2, anyHolds_children isOr.1] at holds
      exact holds
    · contradiction

theorem chainMResolution_sound : Sound valuation chainMResolution := by
  intro children args result found _ premises
  match children, args with
  | first :: second :: rest, [conclusion, polsNode, litsNode] =>
    simp only [chainMResolution] at found
    split at found
    · obtain ⟨computed, links, matching⟩ := Option.bind_eq_some_iff.mp found
      refine matchConclusion_sound matching (chainMLinks_sound links ?_ fun n member =>
        premises n (List.mem_cons_of_mem _ member))
      exact (anyHolds_firstClause first _ _).mpr (premises first List.mem_cons_self)
    · split at found
      · contradiction
      · exact matchConclusion_sound found ⟨first, List.mem_cons_self, premises first List.mem_cons_self⟩
    · contradiction

theorem factoring_sound : Sound valuation factoring := by
  intro children args result found _ premises
  match children, args with
  | [clause], [] =>
    simp only [factoring] at found
    split at found
    · next isOr =>
      split at found
      · contradiction
      · cases found
        rw [holds_mkOr, anyHolds_eraseDups, anyHolds_children isOr]
        exact premises clause List.mem_cons_self
    · contradiction

theorem reordering_sound : Sound valuation reordering := by
  intro children args result found _ premises
  match children, args with
  | [clause], [conclusion] =>
    simp only [reordering] at found
    split at found
    · next same =>
      cases found
      rw [← anyHolds_disjunctsOf, ← anyHolds_sameSet same, anyHolds_disjunctsOf]
      exact premises clause List.mem_cons_self
    · contradiction

-- Families of rules

theorem elim_sound {conclusion : List Node → Option Node}
    (step : ∀ children result, conclusion children = some result → result.isFormula = true
      → Holds valuation (.apply k children) = true → Holds valuation result = true)
    : Sound valuation (elim k conclusion) := by
  intro children args result found formula premises
  match children, args with
  | [n], [] =>
    simp only [elim] at found
    split at found
    · next isKind =>
      have holds := premises n List.mem_cons_self
      rw [kind_eq_some isKind] at holds
      exact step _ _ found formula holds
    · contradiction

theorem notElim_sound {conclusion : List Node → Option Node}
    (step : ∀ children result, conclusion children = some result → result.isFormula = true
      → Holds valuation (.apply k children) = false → Holds valuation result = true)
    : Sound valuation (notElim k conclusion) := by
  refine elim_sound fun children result found formula holds => ?_
  match children with
  | [n] =>
    simp only at found
    split at found
    · next isKind =>
      rw [holds_not, Bool.not_eq_true'] at holds
      rw [kind_eq_some isKind] at holds
      exact step _ _ found formula holds
    · contradiction

theorem cnf_sound {disjuncts : Node → List Node → Option (List Node)}
    (step : ∀ children lits, disjuncts (.apply k children) children = some lits
      → (Node.apply .or lits).isFormula = true → AnyHolds valuation lits)
    : Sound valuation (cnf k disjuncts) := by
  intro children args result found formula _
  match children, args with
  | [], [n] =>
    simp only [cnf] at found
    split at found
    · next isKind =>
      obtain ⟨lits, isLits, rfl⟩ := Option.map_eq_some_iff.mp found
      rw [kind_eq_some isKind] at isLits
      simpa [AnyHolds] using step _ lits isLits formula
    · contradiction

theorem ofTwo_eq_some {α : Type} {f : Node → Node → α} {result : α}
    (found : ofTwo f children = some result) : ∃ a b, children = [a, b] ∧ result = f a b := by
  match children with
  | [a, b] =>
    cases found
    exact ⟨a, b, rfl, rfl⟩

theorem ofThree_eq_some {α : Type} {f : Node → Node → Node → α} {result : α}
    (found : ofThree f children = some result)
    : ∃ c a b, children = [c, a, b] ∧ result = f c a b := by
  match children with
  | [c, a, b] =>
    cases found
    exact ⟨c, a, b, rfl, rfl⟩

theorem elim_two {f : Node → Node → Node}
    (step : ∀ a b, (f a b).isFormula = true → Holds valuation (.apply k [a, b]) = true
      → Holds valuation (f a b) = true)
    : Sound valuation (elim k (ofTwo f)) := by
  refine elim_sound fun children result found formula holds => ?_
  obtain ⟨a, b, rfl, rfl⟩ := ofTwo_eq_some found
  exact step a b formula holds

theorem elim_three {f : Node → Node → Node → Node}
    (step : ∀ c a b, Holds valuation (.apply k [c, a, b]) = true → Holds valuation (f c a b) = true)
    : Sound valuation (elim k (ofThree f)) := by
  refine elim_sound fun children result found _ holds => ?_
  obtain ⟨c, a, b, rfl, rfl⟩ := ofThree_eq_some found
  exact step c a b holds

theorem notElim_two {f : Node → Node → Node}
    (step : ∀ a b, (f a b).isFormula = true → Holds valuation (.apply k [a, b]) = false
      → Holds valuation (f a b) = true)
    : Sound valuation (notElim k (ofTwo f)) := by
  refine notElim_sound fun children result found formula holds => ?_
  obtain ⟨a, b, rfl, rfl⟩ := ofTwo_eq_some found
  exact step a b formula holds

theorem notElim_three {f : Node → Node → Node → Node}
    (step : ∀ c a b, Holds valuation (.apply k [c, a, b]) = false → Holds valuation (f c a b) = true)
    : Sound valuation (notElim k (ofThree f)) := by
  refine notElim_sound fun children result found _ holds => ?_
  obtain ⟨c, a, b, rfl, rfl⟩ := ofThree_eq_some found
  exact step c a b holds

theorem cnf_two {f : Node → Node → Node → List Node}
    (step : ∀ a b, (Node.apply .or (f (.apply k [a, b]) a b)).isFormula = true
      → AnyHolds valuation (f (.apply k [a, b]) a b))
    : Sound valuation (cnf k fun n => ofTwo (f n)) := by
  refine cnf_sound fun children lits found formula => ?_
  obtain ⟨a, b, rfl, rfl⟩ := ofTwo_eq_some found
  exact step a b formula

theorem cnf_three {f : Node → Node → Node → Node → List Node}
    (step : ∀ c a b, AnyHolds valuation (f (.apply k [c, a, b]) c a b))
    : Sound valuation (cnf k fun n => ofThree (f n)) := by
  refine cnf_sound fun children lits found _ => ?_
  obtain ⟨c, a, b, rfl, rfl⟩ := ofThree_eq_some found
  exact step c a b

theorem formula_of_or (formula : (Node.apply .or lits).isFormula = true)
    : ∀ l ∈ lits, l.typeOf = some .bool := by
  intro l member
  simp only [Node.isFormula, Node.typeOf, Node.typesOf_eq_map, Node.typeOfKind, beq_iff_eq,
    Option.ite_none_right_eq_some, List.all_map, List.all_eq_true, Function.comp_apply] at formula
  exact formula.1.2 l member

@[simp]
theorem typeOf_notNode (n : Node) : n.notNode.typeOf = some .bool ↔ n.typeOf = some .bool := by
  simp only [Node.notNode, Node.typeOf, Node.typesOf]
  generalize n.typeOf = type
  rcases type with _ | (_ | _ | _) <;> simp [Node.typeOfKind]

-- Rules

theorem split_sound : Sound valuation split := by
  intro children args result found _ _
  match children, args with
  | [], [n] =>
    cases found
    cases holds : Holds valuation n <;> simp [or2, holds]

theorem contra_sound : Sound valuation fun children _ => contra children := by
  intro children args result found _ premises
  match children with
  | [n, negated] =>
    simp only [contra] at found
    split at found
    · next isNot =>
      have first := premises n List.mem_cons_self
      have second := premises negated (List.mem_cons_of_mem _ List.mem_cons_self)
      rw [isNot, holds_notNode, first] at second
      contradiction
    · contradiction

/-- From a node and one of a kind that leads on from it, the other side. -/
theorem detach_sound
    (step : ∀ a b, Holds valuation a = true → Holds valuation (.apply k [a, b]) = true
      → Holds valuation b = true)
    : Sound valuation (detach k) := by
  intro children args result found _ premises
  match children, args with
  | [n, .apply kind [a, b]], [] =>
    simp only [detach] at found
    split at found
    · next same =>
      obtain ⟨rfl, rfl⟩ := same
      cases found
      exact step n _ (premises n List.mem_cons_self)
        (premises _ (List.mem_cons_of_mem _ List.mem_cons_self))
    · contradiction

theorem andElim_sound : Sound valuation andElim := by
  intro children args result found _ premises
  match children, args with
  | [n], [index] =>
    obtain ⟨i, _, found⟩ := Option.bind_eq_some_iff.mp found
    split at found
    · next isAnd =>
      have holds := premises n List.mem_cons_self
      rw [kind_eq_some isAnd, holds_and, List.all_eq_true] at holds
      exact holds result (List.mem_of_getElem? found)
    · contradiction

theorem andIntro_sound : Sound valuation fun children _ => andIntro children := by
  intro children args result found _ premises
  match children with
  | [_] =>
    cases found
    exact premises _ List.mem_cons_self
  | a :: b :: rest =>
    cases found
    rw [holds_and, List.all_eq_true]
    exact premises

theorem notOrElim_sound : Sound valuation notOrElim := by
  intro children args result found _ premises
  match children, args with
  | [.apply .not [n]], [index] =>
    obtain ⟨i, _, found⟩ := Option.bind_eq_some_iff.mp found
    split at found
    · next isOr =>
      obtain ⟨a, isChild, rfl⟩ := Option.map_eq_some_iff.mp found
      have holds := premises _ List.mem_cons_self
      rw [holds_not, kind_eq_some isOr, holds_or, Bool.not_eq_true', List.any_eq_false] at holds
      simpa using holds a (List.mem_of_getElem? isChild)
    · contradiction

theorem cnfIndexed_sound {disjuncts : Node → Node → List Node}
    (step : ∀ children, ∀ a ∈ children, AnyHolds valuation (disjuncts (.apply k children) a))
    : Sound valuation (cnfIndexed k disjuncts) := by
  intro children args result found _ _
  match children, args with
  | [], [n, index] =>
    obtain ⟨i, _, found⟩ := Option.bind_eq_some_iff.mp found
    split at found
    · next isKind =>
      obtain ⟨a, isChild, rfl⟩ := Option.map_eq_some_iff.mp found
      have holds := step n.children a (List.mem_of_getElem? isChild)
      rw [← kind_eq_some isKind] at holds
      simpa [AnyHolds] using holds
    · contradiction

theorem notNotElim_sound : Sound valuation notNotElim := by
  refine notElim_sound fun children result found _ fails => ?_
  match children with
  | [n] =>
    cases found
    simpa using fails

theorem notAnd_sound : Sound valuation notAnd := by
  refine notElim_sound fun children result found _ fails => ?_
  cases found
  simpa using fails

theorem cnfAndPos_sound : Sound valuation cnfAndPos := by
  refine cnfIndexed_sound fun children a member => ?_
  cases holds : Holds valuation a with
  | true => exact ⟨a, by simp, holds⟩
  | false => exact ⟨_, List.mem_cons_self, by simpa using ⟨a, member, holds⟩⟩

theorem cnfOrNeg_sound : Sound valuation cnfOrNeg := by
  refine cnfIndexed_sound fun children a member => ?_
  cases holds : Holds valuation a with
  | true => exact ⟨_, List.mem_cons_self, by simpa using ⟨a, member, holds⟩⟩
  | false => exact ⟨a.notNode, by simp, by simp [holds]⟩

theorem cnfAndNeg_sound : Sound valuation cnfAndNeg := by
  refine cnf_sound fun children lits found _ => ?_
  cases found
  by_cases holds : Holds valuation (.apply .and children) = true
  · exact ⟨_, List.mem_cons_self, holds⟩
  · rw [holds_and, Bool.not_eq_true, List.all_eq_false] at holds
    obtain ⟨a, member, fails⟩ := holds
    exact ⟨a.notNode, List.mem_cons_of_mem _ (List.mem_map_of_mem member), by simpa using fails⟩

theorem cnfOrPos_sound : Sound valuation cnfOrPos := by
  refine cnf_sound fun children lits found _ => ?_
  cases found
  by_cases holds : Holds valuation (.apply .or children) = true
  · rw [holds_or, List.any_eq_true] at holds
    obtain ⟨a, member, isTrue⟩ := holds
    exact ⟨a, List.mem_cons_of_mem _ member, isTrue⟩
  · exact ⟨_, List.mem_cons_self, by simpa using holds⟩

/-- Every rule that is not trusted is sound, by the cases of the rule. -/
theorem checkInternal_sound (sorted : WellSorted valuation) (id : ProofRule)
    (notTrusted : id.isTrusted = false) : Sound valuation (checkInternal id) := by
  cases id with
  | resolution => exact resolution_sound
  | factoring => exact factoring_sound
  | reordering => exact reordering_sound
  | chainResolution => exact chainResolution_sound
  | chainMResolution => exact chainMResolution_sound
  | split => exact split_sound
  | contra => exact contra_sound
  | andElim => exact andElim_sound
  | andIntro => exact andIntro_sound
  | notOrElim => exact notOrElim_sound
  | eqResolve =>
    refine detach_sound fun a b first equal => ?_
    rw [holds_equal, decide_eq_true_eq] at equal
    rwa [Holds, ← equal]
  | modusPonens =>
    refine detach_sound fun a b first implies => ?_
    simpa [first] using implies
  | notNotElim => exact notNotElim_sound
  | notAnd => exact notAnd_sound
  | cnfAndPos => exact cnfAndPos_sound
  | cnfAndNeg => exact cnfAndNeg_sound
  | cnfOrPos => exact cnfOrPos_sound
  | cnfOrNeg => exact cnfOrNeg_sound
  | impliesElim | xorElim1 | xorElim2 =>
    refine elim_two fun a b _ holds => ?_
    cases first : Holds valuation a <;> simp_all [or2]
  | notImpliesElim1 | notImpliesElim2 | notXorElim1 | notXorElim2 =>
    refine notElim_two fun a b _ fails => ?_
    cases first : Holds valuation a <;> simp_all [or2]
  | iteElim1 | iteElim2 =>
    refine elim_three fun c a b holds => ?_
    cases condition : Holds valuation c <;> simp_all [or2]
  | notIteElim1 | notIteElim2 =>
    refine notElim_three fun c a b fails => ?_
    cases condition : Holds valuation c <;> simp_all [or2]
  | equivElim1 | equivElim2 =>
    refine elim_two fun a b formula holds => ?_
    have typed := formula_of_or formula
    simp only [List.mem_cons, List.not_mem_nil, or_false, forall_eq_or_imp, forall_eq,
      typeOf_notNode] at typed
    rw [holds_equal_formulas sorted typed.1 typed.2] at holds
    cases first : Holds valuation a <;> simp_all [or2]
  | notEquivElim1 | notEquivElim2 =>
    refine notElim_two fun a b formula fails => ?_
    have typed := formula_of_or formula
    simp only [List.mem_cons, List.not_mem_nil, or_false, forall_eq_or_imp, forall_eq,
      typeOf_notNode] at typed
    rw [holds_equal_formulas sorted typed.1 typed.2] at fails
    cases first : Holds valuation a <;> simp_all [or2]
  | cnfImpliesPos | cnfImpliesNeg1 | cnfImpliesNeg2 | cnfXorPos1 | cnfXorPos2 | cnfXorNeg1
  | cnfXorNeg2 =>
    refine cnf_two fun a b _ => ?_
    cases first : Holds valuation a <;> cases second : Holds valuation b <;>
      simp [AnyHolds, first, second]
  | cnfEquivPos1 | cnfEquivPos2 | cnfEquivNeg1 | cnfEquivNeg2 =>
    refine cnf_two fun a b formula => ?_
    have typed := formula_of_or formula
    simp only [List.mem_cons, List.not_mem_nil, or_false, forall_eq_or_imp, forall_eq,
      typeOf_notNode] at typed
    have equal := holds_equal_formulas sorted typed.2.1 typed.2.2
    cases first : Holds valuation a <;> cases second : Holds valuation b <;>
      simp [AnyHolds, equal, first, second]
  | cnfItePos1 | cnfItePos2 | cnfItePos3 | cnfIteNeg1 | cnfIteNeg2 | cnfIteNeg3 =>
    refine cnf_three fun c a b => ?_
    cases condition : Holds valuation c <;> cases first : Holds valuation a <;>
      cases second : Holds valuation b <;> simp [AnyHolds, condition, first, second]
  | satRefutation | dratRefutation | satExternalProve => contradiction

-- Chains as folds

/-- Resolution folded over the premises, with the polarities and pivots of its links. -/
def foldResolution : Node → List Node → List Node → List Node → Option Node
  | clause, child :: children, pol :: pols, lit :: lits => do
      let next ← resolution [clause, child] [pol, lit]
      foldResolution next children pols lits
  | clause, [], [], [] => some clause
  | _, _, _, _ => none

/-- A node is larger than its children, so none is its own child. -/
theorem not_mem_children (k : Kind) (children : List Node) : Node.apply k children ∉ children := by
  intro member
  have smaller := List.sizeOf_lt_of_mem member
  simp only [Node.apply.sizeOf_spec] at smaller
  omega

/-- The literals of a computed clause are read back from its node when the pivot is among them. -/
theorem clauseLits_mkOr (member : pivot ∈ lits)
    : clauseLits pivot (mkOr lits) = lits := by
  match lits with
  | [n] =>
    rw [List.mem_singleton] at member
    simp [clauseLits, mkOr, member]
  | a :: b :: rest =>
    have different : pivot ≠ .apply .or (a :: b :: rest) := by
      rintro rfl
      exact not_mem_children _ _ member
    simp [clauseLits, mkOr, different, Node.getKind, Node.children]

theorem rhsClause_eq (n rhsElim : Node) : rhsClause n rhsElim = clauseLits rhsElim n := by
  unfold rhsClause clauseLits
  by_cases isOr : n.getKind = some .or <;> by_cases same : n = rhsElim <;>
    simp [isOr, same, eq_comm]

theorem firstClause_eq (n pol lit : Node)
    : firstClause n pol lit = clauseLits (pivots pol lit).1 n := by
  unfold firstClause clauseLits pivots
  by_cases isOr : n.getKind = some .or
  · have notNot : n ≠ lit.notNode := by
      rintro rfl
      cases isOr
    by_cases positive : pol = trueNode
    · by_cases same : n = lit <;> simp [isOr, positive, same, trueNode, falseNode, eq_comm]
    · simp [isOr, positive, notNot, Ne.symm notNot]
  · simp [isOr]

theorem resolution_pair (left right pol lit : Node)
    : resolution [left, right] [pol, lit]
      = some (mkOr ((clauseLits (pivots pol lit).1 left).erase (pivots pol lit).1
        ++ (clauseLits (pivots pol lit).2 right).erase (pivots pol lit).2)) := rfl

/-- A chain that returns a clause returns the fold, by induction on the links. The node in hand is
read as the literals of the chain at the next link, and makes their disjunction after the last one. -/
theorem chainLinks_fold {clause : Node}
    (found : chainLinks lhs children pols lits = some result)
    (reads : ∀ pol ∈ pols.head?, ∀ lit ∈ lits.head?, (pivots pol lit).1 ∈ lhs
      → clauseLits (pivots pol lit).1 clause = lhs)
    (last : pols = [] → clause = mkOr lhs)
    : foldResolution clause children pols lits = some (mkOr result) := by
  induction children generalizing lhs pols lits clause with
  | nil =>
    match pols, lits with
    | [], [] =>
      cases found
      rw [foldResolution, last rfl]
    | [], _ :: _ | _ :: _, _ => simp [chainLinks] at found
  | cons child children ih =>
    match pols, lits with
    | pol :: pols, lit :: lits =>
      simp only [chainLinks] at found
      split at found
      · next occurs =>
        rw [foldResolution, resolution_pair, reads pol rfl lit rfl occurs.1, ← rhsClause_eq]
        exact ih found (fun _ _ _ _ => clauseLits_mkOr) fun _ => rfl
      · contradiction
    | [], _ | _ :: _, [] => simp [chainLinks] at found

/-- The chain is a fold over its premises. -/
theorem chainResolution_fold {first : Node} {rest : List Node} {polsNode litsNode result : Node}
    (found : chainResolution (first :: rest) [polsNode, litsNode] = some result)
    : foldResolution first rest polsNode.children litsNode.children = some result := by
  cases rest with
  | nil => cases found
  | cons second rest =>
    simp only [chainResolution] at found
    split at found
    · next pol pols lit lits isPols isLits =>
      obtain ⟨clause, links, rfl⟩ := Option.map_eq_some_iff.mp found
      rw [isPols, isLits]
      refine chainLinks_fold links ?_ (by simp)
      intro pol' isPol lit' isLit _
      cases isPol
      cases isLit
      exact (firstClause_eq first pol lit).symm
    · contradiction

/-- A formula that the checker returns from a rule that is not trusted is true under every valuation
that makes the premises true, and a chain of resolutions returns their fold. -/
theorem checkInternal_correct (id : ProofRule) (notTrusted : id.isTrusted = false)
    (children args : List Node) (result : Node) (found : checkInternal id children args = some result)
    : (result.isFormula = true → ∀ valuation : Node → Value D, WellSorted valuation
        → (∀ n ∈ children, Holds valuation n = true) → Holds valuation result = true)
      ∧ (id = .chainResolution → ∃ first rest polsNode litsNode, children = first :: rest
        ∧ args = [polsNode, litsNode]
        ∧ foldResolution first rest polsNode.children litsNode.children = some result) := by
  refine ⟨fun formula valuation sorted premises =>
    checkInternal_sound sorted id notTrusted children args result found formula premises, ?_⟩
  rintro rfl
  match children, args with
  | first :: rest, [polsNode, litsNode] =>
    exact ⟨first, rest, polsNode, litsNode, rfl, rfl, chainResolution_fold found⟩
  | [], _ | [_], _ | _ :: _ :: _, [] | _ :: _ :: _, [_] | _ :: _ :: _, _ :: _ :: _ :: _ =>
    contradiction

/-- A Boolean variable. -/
def boolVar (name : Nat) : Node := .apply (.op name .bool) []

/-- A list of nodes as an argument. -/
def argList (nodes : List Node) : Node := .apply (.op 0 (.other 0)) nodes

theorem checkInternal_correct_chain
    : checkInternal .chainResolution
        [or2 (boolVar 0) (boolVar 1), (boolVar 0).notNode, or2 (boolVar 1).notNode (boolVar 2)]
        [argList [trueNode, trueNode], argList [boolVar 0, boolVar 1]] = some (boolVar 2)
      ∧ ∀ valuation : Node → Value Nat, WellSorted valuation
        → (∀ n ∈ [or2 (boolVar 0) (boolVar 1), (boolVar 0).notNode,
            or2 (boolVar 1).notNode (boolVar 2)], Holds valuation n = true)
        → Holds valuation (boolVar 2) = true :=
  ⟨by decide +kernel,
    (checkInternal_correct .chainResolution rfl _
      [argList [trueNode, trueNode], argList [boolVar 0, boolVar 1]] (boolVar 2)
      (by decide +kernel)).1 (by decide +kernel)⟩

end Ava6.Booleans

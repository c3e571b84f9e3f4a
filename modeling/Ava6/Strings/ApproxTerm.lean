import Ava6.Strings.FindApprox

/-! The term that is returned for a sum that is entailed not to be negative: the approximated variables of the monomials
are substituted wherever they occur in the sum, also in products of other monomials.
-/

namespace Ava6.Strings.ArithApprox

open PolyNorm Ava6.Library.MonomialSum

-- Substitution

variable {A : Assignment} {subs : List (IntTerm × IntTerm)}

variable {a : IntTerm}

theorem ne_of_not_hasArithSubterm {t : IntTerm} (notSubterm : hasArithSubterm t a = false) : a ≠ t := by
  unfold hasArithSubterm at notSubterm
  exact of_decide_eq_false (Bool.or_eq_false_iff.mp notSubterm).1

theorem lookup_eq_none (isOther : ∀ p ∈ subs, a ≠ p.1) : subs.lookup a = none := by
  rw [List.lookup_eq_none_iff]
  intro p member
  exact bne_iff_ne.mpr (isOther p member)

mutual
theorem applyArith_eq_self {a : IntTerm} (notSubterm : ∀ p ∈ subs, hasArithSubterm p.1 a = false)
    : applyArith subs a = a := by
  have notFound : subs.lookup a = none := lookup_eq_none (fun p member => ne_of_not_hasArithSubterm (notSubterm p member))
  have below (p) (member : p ∈ subs) := notSubterm p member
  unfold hasArithSubterm at below
  unfold applyArith
  rw [notFound]
  match a with
  | .add children | .mult children | .nonlinearMult children =>
      have same := applyAriths_eq_self (fun p member => (Bool.or_eq_false_iff.mp (below p member)).2)
      simp only [same]
  | .sub b c =>
      have parts (p) (member : p ∈ subs) := Bool.or_eq_false_iff.mp (Bool.or_eq_false_iff.mp (below p member)).2
      simp only
      rw [applyArith_eq_self (fun p member => (parts p member).1), applyArith_eq_self (fun p member => (parts p member).2)]
  | .const _ | .var _ | .length _ | .indexof _ _ _ | .toInt _ => rfl

theorem applyAriths_eq_self {children : IntTerms} (notSubterm : ∀ p ∈ subs, hasArithSubterms p.1 children = false)
    : applyAriths subs children = children := by
  match children with
  | .nil => rfl
  | .cons a rest =>
      have parts (p) (member : p ∈ subs) := Bool.or_eq_false_iff.mp (notSubterm p member)
      rw [applyAriths, applyArith_eq_self (fun p member => (parts p member).1),
        applyAriths_eq_self (fun p member => (parts p member).2)]
end

theorem sum_applyAriths (children : IntTerms)
    : (applyAriths subs children).sum A = (children.toList.map (fun a => (applyArith subs a).eval A)).sum := by
  cases children with
  | nil => rfl
  | cons a rest => rw [applyAriths, IntTerms.sum, IntTerms.toList, List.map_cons, List.sum_cons, sum_applyAriths rest]

/-- What a variable is replaced by. -/
def replacement (subs : List (IntTerm × IntTerm)) (v : IntTerm) : IntTerm := (subs.lookup v).getD v

/-- The value of a monomial whose variable is replaced. -/
def replacedValue (A : Assignment) (σ : IntTerm → IntTerm) (m : Option IntTerm × Option Int) : Int :=
  m.2.getD 1 * (m.1.map (fun v => (σ v).eval A)).getD 1

theorem getMonomial_cases (a : IntTerm)
    : (∃ n, a = .const n ∧ getMonomial a = (none, some n))
      ∨ (∃ c v, a = .mult (.ofList [.const c, v]) ∧ getMonomial a = (some v, some c))
      ∨ getMonomial a = (some a, none) := by
  unfold getMonomial
  split
  · next n => exact Or.inl ⟨n, rfl, rfl⟩
  · next c v => exact Or.inr (Or.inl ⟨c, v, rfl, rfl⟩)
  · exact Or.inr (Or.inr rfl)

/-- In a summand only its own variable is replaced. -/
theorem eval_applyArith_summand (noConst : ∀ p ∈ subs, ∀ n, p.1 ≠ .const n)
    (outermost : ∀ p ∈ subs, (getMonomial a).1 ≠ some p.1 → hasArithSubterm p.1 a = false)
    : (applyArith subs a).eval A = replacedValue A (replacement subs) (getMonomial a) := by
  have ofVariable {v : IntTerm} (below : ∀ p ∈ subs, v ≠ p.1 → hasArithSubterm p.1 v = false)
      : (applyArith subs v).eval A = (replacement subs v).eval A := by
    rw [replacement]
    cases found : subs.lookup v with
    | some s =>
        unfold applyArith
        rw [found]
        rfl
    | none =>
        have notFound := List.lookup_eq_none_iff.mp found
        rw [applyArith_eq_self (fun p member => below p member (bne_iff_ne.mp (notFound p member)))]
        rfl
  have ofConst (n : Int) : applyArith subs (.const n) = .const n := by
    unfold applyArith
    rw [lookup_eq_none (fun p member same => noConst p member n same.symm)]
  rcases getMonomial_cases a with ⟨n, rfl, isMonomial⟩ | ⟨c, v, rfl, isMonomial⟩ | isMonomial
  · rw [isMonomial, ofConst, IntTerm.eval]
    exact (mul_one n).symm
  · rw [isMonomial] at outermost ⊢
    have isSmaller : v ≠ .mult (.ofList [.const c, v]) := by
      intro same
      have sizes := congrArg sizeOf same
      simp only [IntTerms.ofList, IntTerm.mult.sizeOf_spec, IntTerms.cons.sizeOf_spec] at sizes
      omega
    have notFound : subs.lookup (.mult (.ofList [.const c, v])) = none := by
      refine lookup_eq_none (fun p member same => ?_)
      have notSubterm := outermost p member (fun isOwn => isSmaller ((Option.some.inj isOwn).trans same.symm))
      exact ne_of_not_hasArithSubterm notSubterm same
    have below (p) (member : p ∈ subs) (isOther : v ≠ p.1) : hasArithSubterm p.1 v = false := by
      have notSubterm := outermost p member (fun same => isOther (Option.some.inj same))
      unfold hasArithSubterm at notSubterm
      simp only [IntTerms.ofList, hasArithSubterms, Bool.or_eq_false_iff] at notSubterm
      exact notSubterm.2.2.1
    unfold applyArith
    rw [notFound]
    simp only [IntTerms.ofList, applyAriths, ofConst, IntTerm.eval, IntTerms.product, ofVariable below, replacedValue,
      Option.getD_some, Option.map_some, mul_one]
  · rw [isMonomial] at outermost ⊢
    rw [ofVariable (fun p member isOther => outermost p member (fun same => isOther (Option.some.inj same)))]
    exact (one_mul _).symm

theorem sizeOf_lt_of_mem {children : IntTerms} (member : a ∈ children.toList) : sizeOf a < sizeOf children := by
  match children with
  | .nil => cases member
  | .cons first rest =>
      rw [IntTerms.cons.sizeOf_spec]
      rcases List.mem_cons.mp member with rfl | member
      · omega
      · have isSmaller := sizeOf_lt_of_mem member
        omega

theorem getMonomial_ne_add {b : IntTerm} {children : IntTerms} (member : b ∈ children.toList)
    : (getMonomial b).1 ≠ some (.add children) := by
  have isSmaller := sizeOf_lt_of_mem member
  intro same
  rcases getMonomial_cases b with ⟨n, rfl, isMonomial⟩ | ⟨c, v, rfl, isMonomial⟩ | isMonomial
  · rw [isMonomial] at same
    cases same
  · rw [isMonomial] at same
    cases same
    simp only [IntTerms.ofList, IntTerm.mult.sizeOf_spec, IntTerms.cons.sizeOf_spec, IntTerm.add.sizeOf_spec] at isSmaller
    omega
  · rw [isMonomial] at same
    cases same
    rw [IntTerm.add.sizeOf_spec] at isSmaller
    omega

variable {ar : IntTerm}

/-- In a sum only the variables of its monomials are replaced. -/
theorem eval_applyArith (noConst : ∀ p ∈ subs, ∀ n, p.1 ≠ .const n)
    (ofSummands : ∀ p ∈ subs, ∃ b ∈ summands ar, (getMonomial b).1 = some p.1)
    (outermost : ∀ a ∈ summands ar, ∀ p ∈ subs, (getMonomial a).1 ≠ some p.1 → hasArithSubterm p.1 a = false)
    : (applyArith subs ar).eval A
      = ((summands ar).map (fun a => replacedValue A (replacement subs) (getMonomial a))).sum := by
  have ofSummand (a) (member : a ∈ summands ar) := eval_applyArith_summand (A := A) noConst (outermost a member)
  rw [← List.map_congr_left ofSummand]
  match ar with
  | .add children =>
      have notFound : subs.lookup (.add children) = none := by
        refine lookup_eq_none (fun p member same => ?_)
        obtain ⟨b, inSum, isVariable⟩ := ofSummands p member
        exact getMonomial_ne_add inSum (same ▸ isVariable)
      have isSum : applyArith subs (.add children) = .add (applyAriths subs children) := by
        unfold applyArith
        rw [notFound]
      rw [isSum, IntTerm.eval]
      exact sum_applyAriths children
  | .const _ | .var _ | .mult _ | .nonlinearMult _ | .sub _ _ | .length _ | .indexof _ _ _ | .toInt _ =>
      exact (List.sum_singleton).symm

-- The approximations that are made

variable {id : IntTerm → Nat} {check : IntTerm → Bool → Bool} {isSimple : Bool} {fuel : Nat}

/-- The variable of a monomial is not approximated by itself only. -/
def IsApproximated (id : IntTerm → Nat) (check : IntTerm → Bool → Bool) (v : IntTerm) (c : Option Int) : Prop :=
  getPolyNorm id v ≠ v ∨ getArithApproximations check (isOver c) v ≠ []

theorem not_isApproximated_const (n : Int) (c : Option Int) : ¬IsApproximated id check (.const n) c := by
  have isNormal : getPolyNorm id (.const n) = .const n := by
    rw [getPolyNorm, mkPolyNorm, PolyNorm.addMonomial]
    split
    · next isZero => rw [isZero]; rfl
    · rfl
  have isLast : getArithApproximations check (isOver c) (.const n) = [] := rfl
  rintro (notNormal | notLast)
  · exact notNormal isNormal
  · exact notLast isLast

variable {v : IntTerm} {c : Option Int} {approx : List IntTerm}

theorem approximateFrom_of_not_isApproximated
    (found : approximateFrom id check (isOver c) isSimple fuel [] [v] [] = some approx)
    (isItself : ¬IsApproximated id check v c) : approx = [v] := by
  obtain ⟨isNormal, isLast⟩ := not_or.mp isItself
  rw [not_not] at isNormal isLast
  cases fuel with
  | zero => cases found
  | succ fuel =>
      rw [approximateFrom] at found
      simp only [isNormal, List.not_mem_nil, if_false, isLast] at found
      unfold approximateFrom at found
      exact (Option.some.inj found).symm

def Setup.keys (setup : Setup) : List IntTerm := setup.approxMap.map Prod.fst ++ setup.mApprox.map Choice.v

theorem Setup.keys_addMonomial (v : IntTerm) (c : Option Int) (approx : List IntTerm) (setup : Setup)
    : (setup.addMonomial v c approx).keys.Perm (v :: setup.keys)
      ∨ approx = [v] ∧ (setup.addMonomial v c approx).keys = setup.keys := by
  unfold Setup.addMonomial
  split
  · next single =>
      by_cases same : v = single
      · exact Or.inr ⟨by rw [same], by simp only [Setup.keys, if_pos same]⟩
      · refine Or.inl ?_
        simp only [Setup.keys, if_neg same]
        exact List.Perm.refl _
  · exact Or.inl List.perm_middle

variable {setup : Setup}

theorem Setup.mem_keys_addMonomial {key : IntTerm}
    (member : key ∈ (setup.addMonomial v c approx).keys) : key = v ∨ key ∈ setup.keys := by
  rcases setup.keys_addMonomial v c approx with isPerm | ⟨-, same⟩
  · exact List.mem_cons.mp (isPerm.mem_iff.mp member)
  · exact Or.inr (same ▸ member)

theorem approximateMonomials_cons {rest : MonomialSum}
    (found : approximateMonomials id check isSimple fuel ((some v, c) :: rest) = some setup)
    : ∃ approx setup', approximateFrom id check (isOver c) isSimple fuel [] [v] [] = some approx
      ∧ approximateMonomials id check isSimple fuel rest = some setup' ∧ setup = setup'.addMonomial v c approx := by
  rw [approximateMonomials] at found
  obtain ⟨approx, foundApprox, found⟩ := Option.bind_eq_some_iff.mp found
  obtain ⟨setup', found', isSetup⟩ := Option.bind_eq_some_iff.mp found
  exact ⟨approx, setup', foundApprox, found', (Option.some.inj isSetup).symm⟩

theorem approximateMonomials_cons_none {rest : MonomialSum}
    (found : approximateMonomials id check isSimple fuel ((none, c) :: rest) = some setup)
    : ∃ setup', approximateMonomials id check isSimple fuel rest = some setup'
      ∧ setup = { setup' with aarSum := .const (c.getD 1) :: setup'.aarSum } := by
  rw [approximateMonomials] at found
  obtain ⟨setup', found', isSetup⟩ := Option.bind_eq_some_iff.mp found
  exact ⟨setup', found', (Option.some.inj isSetup).symm⟩

variable {msum : MonomialSum}

/-- Only variables that are approximated are replaced. -/
theorem isApproximated_of_mem_keys
    (found : approximateMonomials id check isSimple fuel msum = some setup) (member : v ∈ setup.keys)
    : ∃ c, (some v, c) ∈ msum ∧ IsApproximated id check v c := by
  induction msum generalizing setup with
  | nil =>
      cases found
      cases member
  | cons monomial rest ih =>
      obtain ⟨_ | u, c⟩ := monomial
      · obtain ⟨setup', found', rfl⟩ := approximateMonomials_cons_none found
        obtain ⟨c', inSum, isApproximated⟩ := ih found' member
        exact ⟨c', List.mem_cons_of_mem _ inSum, isApproximated⟩
      · obtain ⟨approx, setup', foundApprox, found', rfl⟩ := approximateMonomials_cons found
        have ofRest (inRest : v ∈ setup'.keys) : ∃ c', (some v, c') ∈ (some u, c) :: rest ∧ IsApproximated id check v c' := by
          obtain ⟨c', inSum, isApproximated⟩ := ih found' inRest
          exact ⟨c', List.mem_cons_of_mem _ inSum, isApproximated⟩
        by_cases isItself : IsApproximated id check u c
        · rcases Setup.mem_keys_addMonomial member with rfl | inRest
          · exact ⟨c, List.mem_cons_self, isItself⟩
          · exact ofRest inRest
        · refine ofRest ?_
          rw [approximateFrom_of_not_isApproximated foundApprox isItself] at member
          simpa [Setup.addMonomial, Setup.keys] using member

theorem nodup_keys
    (found : approximateMonomials id check isSimple fuel msum = some setup) (nodup : (msum.map Prod.fst).Nodup)
    : setup.keys.Nodup := by
  induction msum generalizing setup with
  | nil =>
      cases found
      exact List.nodup_nil
  | cons monomial rest ih =>
      rw [List.map_cons, List.nodup_cons] at nodup
      obtain ⟨_ | v, c⟩ := monomial
      · obtain ⟨setup', found', rfl⟩ := approximateMonomials_cons_none found
        have isRest := ih found' nodup.2
        exact isRest
      · obtain ⟨approx, setup', -, found', rfl⟩ := approximateMonomials_cons found
        have isNew : v ∉ setup'.keys := by
          intro inRest
          obtain ⟨c', inSum, -⟩ := isApproximated_of_mem_keys found' inRest
          exact nodup.1 (List.mem_map.mpr ⟨_, inSum, rfl⟩)
        rcases setup'.keys_addMonomial v c approx with isPerm | ⟨-, same⟩
        · exact isPerm.nodup_iff.mpr (List.nodup_cons.mpr ⟨isNew, ih found' nodup.2⟩)
        · exact same ▸ ih found' nodup.2

/-- The value of what is fixed, with what the variables of the other monomials are replaced by. -/
def Setup.replacedValue (A : Assignment) (σ : IntTerm → IntTerm) (setup : Setup) : Int :=
  (setup.aarSum.map (IntTerm.eval A)).sum + (setup.mApprox.map (fun m => m.c.getD 1 * (σ m.v).eval A)).sum

theorem Setup.replacedValue_addMonomial
    {σ : IntTerm → IntTerm} (replaced : ∀ p ∈ (setup.addMonomial v c approx).approxMap, σ p.1 = p.2)
    (unchanged : v ∉ (setup.addMonomial v c approx).keys → σ v = v) (isNew : v ∉ setup.keys)
    : (setup.addMonomial v c approx).replacedValue A σ = c.getD 1 * (σ v).eval A + setup.replacedValue A σ
      ∧ ∀ p ∈ setup.approxMap, σ p.1 = p.2 := by
  match approx with
  | [single] =>
      by_cases same : v = single
      · simp only [Setup.addMonomial, if_pos same] at replaced unchanged ⊢
        refine ⟨?_, replaced⟩
        have isItself : σ v = v := unchanged isNew
        simp only [Setup.replacedValue, List.map_cons, List.sum_cons, eval_mkCoeffTerm, isItself, ← same]
        omega
      · simp only [Setup.addMonomial, if_neg same] at replaced ⊢
        refine ⟨?_, fun p member => replaced p (List.mem_cons_of_mem _ member)⟩
        have isSingle : σ v = single := replaced (v, single) List.mem_cons_self
        simp only [Setup.replacedValue, List.map_cons, List.sum_cons, eval_mkCoeffTerm, isSingle]
        omega
  | [] | _ :: _ :: _ =>
      refine ⟨?_, replaced⟩
      simp only [Setup.addMonomial, Setup.replacedValue, List.map_cons, List.sum_cons]
      omega

theorem approximateMonomials_replaced {σ : IntTerm → IntTerm}
    (found : approximateMonomials id check isSimple fuel msum = some setup) (nodup : (msum.map Prod.fst).Nodup)
    (replaced : ∀ p ∈ setup.approxMap, σ p.1 = p.2)
    (unchanged : ∀ v c, (some v, c) ∈ msum → v ∉ setup.keys → σ v = v)
    : (msum.map (ArithApprox.replacedValue A σ)).sum = setup.replacedValue A σ := by
  induction msum generalizing setup with
  | nil =>
      cases found
      rfl
  | cons monomial rest ih =>
      rw [List.map_cons, List.nodup_cons] at nodup
      obtain ⟨_ | v, c⟩ := monomial
      · obtain ⟨setup', found', rfl⟩ := approximateMonomials_cons_none found
        have isRest := ih found' nodup.2 replaced (fun u d member => unchanged u d (List.mem_cons_of_mem _ member))
        rw [List.map_cons, List.sum_cons, isRest]
        simp only [Setup.replacedValue, ArithApprox.replacedValue, List.map_cons, List.sum_cons, IntTerm.eval,
          Option.map_none, Option.getD_none]
        omega
      · obtain ⟨approx, setup', -, found', rfl⟩ := approximateMonomials_cons found
        have isNew : v ∉ setup'.keys := by
          intro inRest
          obtain ⟨c', inSum, -⟩ := isApproximated_of_mem_keys found' inRest
          exact nodup.1 (List.mem_map.mpr ⟨_, inSum, rfl⟩)
        have unchanged' : ∀ u d, (some u, d) ∈ rest → u ∉ setup'.keys → σ u = u := by
          intro u d inRest notKey
          refine unchanged u d (List.mem_cons_of_mem _ inRest) (fun isKey => ?_)
          rcases Setup.mem_keys_addMonomial isKey with rfl | inKeys
          · exact nodup.1 (List.mem_map.mpr ⟨_, inRest, rfl⟩)
          · exact notKey inKeys
        obtain ⟨isSum, replaced'⟩ := Setup.replacedValue_addMonomial (A := A) replaced (unchanged v c List.mem_cons_self) isNew
        rw [List.map_cons, List.sum_cons, ih found' nodup.2 replaced' unchanged', isSum]
        rfl

/-- Every choice is one of the replacements in the end. -/
theorem decideFrom_replaced {mApprox : List Choice} {aar aar' : IntTerm} {msumAar : MonomialSum}
    {approxMap approxMap' : List (IntTerm × IntTerm)}
    (found : decideFrom id mApprox aar msumAar approxMap = some (aar', approxMap'))
    : approxMap'.map Prod.fst = approxMap.map Prod.fst ++ mApprox.map Choice.v
      ∧ (∀ p ∈ approxMap, p ∈ approxMap')
      ∧ ∀ σ : IntTerm → IntTerm, (∀ p ∈ approxMap', σ p.1 = p.2)
        → aar'.eval A = aar.eval A + (mApprox.map (fun m => m.c.getD 1 * (σ m.v).eval A)).sum := by
  induction mApprox generalizing aar msumAar approxMap with
  | nil =>
      cases found
      refine ⟨(List.append_nil _).symm, fun p member => member, fun σ _ => (add_zero _).symm⟩
  | cons m mApprox ih =>
      rw [decideFrom] at found
      obtain ⟨vapprox, -, found⟩ := Option.bind_eq_some_iff.mp found
      obtain ⟨msumAar', -, found⟩ := Option.bind_eq_some_iff.mp found
      obtain ⟨sameKeys, isKept, isSum⟩ := ih found
      refine ⟨?_, fun p member => isKept p (List.mem_append_left _ member), fun σ replaced => ?_⟩
      · rw [sameKeys, List.map_append, List.append_assoc]
        rfl
      · have isReplaced : σ m.v = vapprox :=
          replaced (m.v, vapprox) (isKept _ (List.mem_append_right _ List.mem_cons_self))
        rw [isSum σ replaced, eval_getPolyNorm, eval_add_two, eval_mkCoeffTerm, List.map_cons, List.sum_cons, isReplaced]
        omega

theorem replacement_eq {p : IntTerm × IntTerm} (nodup : (subs.map Prod.fst).Nodup) (member : p ∈ subs)
    : replacement subs p.1 = p.2 := by
  rw [replacement]
  induction subs with
  | nil => cases member
  | cons first rest ih =>
      rw [List.map_cons, List.nodup_cons] at nodup
      rw [List.lookup_cons]
      rcases List.mem_cons.mp member with rfl | inRest
      · rw [beq_self_eq_true]
        rfl
      · have differs : p.1 ≠ first.1 := fun same => nodup.1 (same ▸ List.mem_map_of_mem inRest)
        rw [beq_false_of_ne differs]
        exact ih nodup.2 inRest

theorem replacement_eq_self (notKey : v ∉ subs.map Prod.fst) : replacement subs v = v := by
  have notFound : subs.lookup v = none := by
    refine lookup_eq_none (fun p member same => notKey ?_)
    rw [same]
    exact List.mem_map_of_mem member
  rw [replacement, notFound]
  rfl

/-- A variable that is approximated occurs in the sum only as the variable of its monomial. -/
def ReplacesOutermost (id : IntTerm → Nat) (check : IntTerm → Bool → Bool) (ar : IntTerm) : Prop :=
  ∀ a ∈ summands ar, ∀ b ∈ summands ar, ∀ v ∈ (getMonomial b).1, IsApproximated id check v (getMonomial b).2
    → (getMonomial a).1 ≠ some v → hasArithSubterm v a = false

/-- The returned term has the value of the fixed sum. -/
theorem Approximation.eval_applyArith (made : Approximation id check isSimple fuel ar)
    (outermost : ReplacesOutermost id check ar) : (applyArith made.approxMap ar).eval A = made.aar.eval A := by
  obtain ⟨msumAar, decided⟩ := made.isDecided
  obtain ⟨sameKeys, isKept, isSum⟩ := decideFrom_replaced (A := A) decided
  have isPerm := ofMonomials_perm made.isSum
  have nodup := nodup_ofMonomials made.isSum
  have nodupKeys : (made.approxMap.map Prod.fst).Nodup := sameKeys ▸ nodup_keys made.isSetup nodup
  have replaced (p) (member : p ∈ made.approxMap) := replacement_eq nodupKeys member
  have ofKey (p) (member : p ∈ made.approxMap)
      : ∃ b ∈ summands ar, (getMonomial b).1 = some p.1 ∧ IsApproximated id check p.1 (getMonomial b).2 := by
    have isKey : p.1 ∈ made.setup.keys := by
      have isFirst := List.mem_map_of_mem (f := Prod.fst) member
      rwa [sameKeys] at isFirst
    obtain ⟨c, inSum, isApproximated⟩ := isApproximated_of_mem_keys made.isSetup isKey
    obtain ⟨b, inSummands, isMonomial⟩ := List.mem_map.mp (isPerm.mem_iff.mp inSum)
    exact ⟨b, inSummands, by rw [isMonomial], by rw [isMonomial]; exact isApproximated⟩
  have isReplaced : (applyArith made.approxMap ar).eval A
      = ((summands ar).map (fun a => replacedValue A (replacement made.approxMap) (getMonomial a))).sum := by
    refine ArithApprox.eval_applyArith (fun p member n isConst => ?_) (fun p member => ?_) (fun a inSum p member => ?_)
    · obtain ⟨b, -, -, isApproximated⟩ := ofKey p member
      rw [isConst] at isApproximated
      exact not_isApproximated_const n _ isApproximated
    · obtain ⟨b, inSummands, isVariable, -⟩ := ofKey p member
      exact ⟨b, inSummands, isVariable⟩
    · obtain ⟨b, inSummands, isVariable, isApproximated⟩ := ofKey p member
      exact outermost a inSum b inSummands p.1 isVariable isApproximated
  have isSetup := approximateMonomials_replaced (A := A) (σ := replacement made.approxMap) made.isSetup nodup
    (fun p member => replaced p (isKept p member)) (fun v c _ notKey => by
      have notReplaced : v ∉ made.approxMap.map Prod.fst := by rwa [sameKeys]
      exact replacement_eq_self notReplaced)
  rw [isReplaced, isSum _ replaced, eval_getPolyNorm, eval_sumNode]
  rw [(isPerm.map _).sum_eq, List.map_map] at isSetup
  exact isSetup

/-- An approximation that is found is not negative and is a lower bound, by the lemma for one round and the
check of its result.
-/
theorem findApproxWith_bounds {check : IntTerm → Bool → Bool → Bool} {recApprox : Bool}
    (sound : ∀ isSimple, IsSound (check · · isSimple)) {r : IntTerm}
    (outermost : checkSimple ar = true ∨ ReplacesOutermost id (check · · (isSimple || !recApprox)) ar)
    (found : findApproxWith id recApprox check fuel ar isSimple = some r) (A : Assignment)
    : r.eval A ≤ ar.eval A ∧ 0 ≤ r.eval A := by
  rw [findApproxWith] at found
  split at found
  · next checked =>
      cases found
      exact ⟨le_refl _, nonneg_of_checkSimple A checked⟩
  · next notSimple =>
      obtain ⟨made, rfl⟩ := findApproxInternal_cases found
      rw [made.eval_applyArith (outermost.resolve_left notSimple)]
      exact ⟨made.aar_le (sound _), (sound _ _ _ made.isChecked A).1⟩

/-- What is checked holds under every assignment, and so does what the returned term says, where only the variables of the
monomials are replaced in it.
-/
theorem arithEntail_sound (id : IntTerm → Nat) (recApprox : Bool) (fuel : Nat)
    : (∀ a strict isSimple, ArithApprox.check id recApprox fuel a strict isSimple = true
        → ∀ A, 0 ≤ a.eval A ∧ (strict = true → 0 < a.eval A))
      ∧ ∀ ar isSimple r,
        checkSimple ar = true
            ∨ ReplacesOutermost id (ArithApprox.check id recApprox fuel · · (isSimple || !recApprox)) ar
        → findApprox id recApprox fuel ar isSimple = some r → ∀ A, r.eval A ≤ ar.eval A ∧ 0 ≤ r.eval A := by
  refine ⟨fun a strict isSimple => check_isSound fuel isSimple a strict, fun ar isSimple r outermost found => ?_⟩
  exact findApproxWith_bounds (fun isSimple => check_isSound fuel isSimple) outermost found

/-- `(str.len (str.from_int (str.len w)))`, which is at least one. -/
def digits : IntTerm := .length (.fromInt (.length (.var 0)))

def productOf : IntTerm := .mult (.ofList [digits, .length (.var 1)])

/-- Identifiers in the order in which the terms are made. -/
def termIds (a : IntTerm) : Nat := [.const (-1), digits, .length (.var 1), productOf].idxOf a

/-- The length of a string minus that of another, which is cut to it. -/
def cutLength : IntTerm :=
  .add (.ofList [.length (.var 0), .mult (.ofList [.const (-1), .length (.substr (.var 1) (.const 0) (.length (.var 0)))])])

theorem arithEntail_sound_cutLength
    : ∃ r, findApprox termIds false 3 cutLength true = some r ∧ ∀ A, r.eval A ≤ cutLength.eval A ∧ 0 ≤ r.eval A := by
  have isFound : (findApprox termIds false 3 cutLength true).isSome = true := by decide
  have outermost : ReplacesOutermost termIds (ArithApprox.check termIds false 3 · · (true || !false)) cutLength := by
    unfold ReplacesOutermost IsApproximated
    decide
  obtain ⟨r, found⟩ := Option.isSome_iff_exists.mp isFound
  exact ⟨r, found, (arithEntail_sound termIds false 3).2 cutLength true r (Or.inr outermost) found⟩

/-- A monomial that is also a factor of another one. -/
def factorSum : IntTerm :=
  .add (.ofList [.const (-1), digits, productOf,
    .mult (.ofList [.const (-1), .length (.substr (.var 2) (.var 0) productOf)])])

/-- Ten characters in one string, and three in the others. -/
def factorAssignment : Assignment := ⟨fun name => if name = 0 then List.replicate 10 0 else List.replicate 3 0, fun _ => 0⟩

/-- The factor is replaced by one, so that what is returned can be negative. -/
theorem findApprox_factorSum
    : ¬∀ (id : IntTerm → Nat) (recApprox : Bool) (fuel : Nat) (ar : IntTerm) (isSimple : Bool) (r : IntTerm),
      findApprox id recApprox fuel ar isSimple = some r → ∀ A, r.eval A ≤ ar.eval A ∧ 0 ≤ r.eval A := by
  intro sound
  have isValue : (findApprox termIds false 3 factorSum true).map (IntTerm.eval factorAssignment) = some (-3) := by decide
  obtain ⟨r, found, isNegative⟩ := Option.map_eq_some_iff.mp isValue
  have isNonNegative := (sound termIds false 3 factorSum true r found factorAssignment).2
  rw [isNegative] at isNonNegative
  exact absurd isNonNegative (by decide)

end Ava6.Strings.ArithApprox

import Mathlib.SetTheory.Cardinal.Order
import Ava6.Arith.Rewriter.NormalForms

/-! What is promised of the rewriter of atoms: its results are equivalent, and stay as they are when they are rewritten
again.
-/

namespace Ava6.Arith.Rewriter

open Library

variable [LinearOrder Node]

section Equalities

variable {first second : Node}

/-- The difference of the sides. -/
def equalitySum (first second : Node) : Sum :=
  addToSum (addToSum .empty false (removeToReal first)) true (removeToReal second)

/-- The sides are neither the same nor two constants. -/
structure Undecided (first second : Node) : Prop where
  differ : removeToReal first ≠ removeToReal second
  notEvaluated : tryEvaluateRelation .equal (removeToReal first) (removeToReal second) = none

omit [LinearOrder Node] in
theorem tryEvaluateRelation_none {left right : Node}
    : tryEvaluateRelation .equal left right = none ↔ left.getConst = none ∨ right.getConst = none := by
  unfold tryEvaluateRelation
  cases left.getConst <;> cases right.getConst <;> simp

omit [LinearOrder Node] in
theorem Undecided.swap (undecided : Undecided first second) : Undecided second first :=
  ⟨undecided.differ.symm, tryEvaluateRelation_none.mpr (tryEvaluateRelation_none.mp undecided.notEvaluated).symm⟩

theorem equalitySum_swap (first second : Node) : equalitySum second first = (equalitySum first second).scale (-1) := by
  refine LinearForm.ext (fun key => ?_)
  have swapped := coefficient_difference (removeToReal second) (removeToReal first) false key
  have straight := coefficient_difference (removeToReal first) (removeToReal second) false key
  rw [Bool.not_false] at swapped straight
  rw [LinearForm.coefficient_scale, equalitySum, equalitySum, swapped, straight]
  ring

theorem normalizeEquality_of_undecided (undecided : Undecided first second)
    : normalizeEquality (mkNode .equal [first, second])
      = if isIntegral (equalitySum first second) then
          buildIntegerEquality (equalitySum first second) (decide (first.getType = .real))
        else buildRealEquality (equalitySum first second) := by
  change normalizeEquality (.apply .equal (.cons first (.cons second .nil))) = _
  unfold normalizeEquality
  simp only [tryEvaluateRelationReflexive, if_neg undecided.differ, undecided.notEvaluated]
  rfl

/-- Otherwise the equality is decided. -/
theorem normalizeEquality_decided (decided : ¬Undecided first second)
    : ∃ b, normalizeEquality (mkNode .equal [first, second]) = (.constBoolean b, false) := by
  change ∃ b, normalizeEquality (.apply .equal (.cons first (.cons second .nil))) = (.constBoolean b, false)
  unfold normalizeEquality
  simp only
  split
  · exact ⟨_, rfl⟩
  · next notReflexive =>
      split
      · exact ⟨_, rfl⟩
      · next notEvaluated =>
          refine absurd ⟨fun same => ?_, notEvaluated⟩ decided
          rw [tryEvaluateRelationReflexive, if_pos same] at notReflexive
          cases notReflexive

/-- The normal form is a constant, or made of a summand of the difference. -/
theorem normalizeEquality_cases (firstFlat : isFlat first = true) (secondFlat : isFlat second = true)
    : (∃ b, normalizeEquality (mkNode .equal [first, second]) = (.constBoolean b, false))
      ∨ Undecided first second ∧ isIntegral (equalitySum first second) = true
        ∧ (∃ m r, IntegerNormal (equalitySum first second) m r)
      ∨ Undecided first second ∧ isIntegral (equalitySum first second) = false := by
  have flat : FlatKeys (equalitySum first second) := flatKeys_difference firstFlat secondFlat false
  by_cases undecided : Undecided first second
  · cases integral : isIntegral (equalitySum first second) with
    | true =>
        rcases buildIntegerEquality_cases flat (decide (first.getType = .real)) with ⟨b, isConst⟩ | normal
        · refine Or.inl ⟨b, ?_⟩
          rw [normalizeEquality_of_undecided undecided, integral]
          exact isConst
        · exact Or.inr (Or.inl ⟨undecided, rfl, normal⟩)
    | false => exact Or.inr (Or.inr ⟨undecided, rfl⟩)
  · exact Or.inl (normalizeEquality_decided undecided)

/-- A left side that is not constant, with another sum than the right side. -/
theorem Undecided.of_sum {key : Monomial} (notConst : (removeToReal first).getConst = none)
    (nonzero : (equalitySum first second).coefficient key ≠ 0)
    : Undecided first second := by
  refine ⟨fun same => nonzero ?_, tryEvaluateRelation_none.mpr (Or.inl notConst)⟩
  have difference := coefficient_difference (removeToReal first) (removeToReal second) false key
  rw [Bool.not_false] at difference
  rw [equalitySum, difference, same, sub_self, mul_zero]

end Equalities

section Again

variable {first second : Node}

/-- The normal form of an integral equality is its own normal form. -/
theorem integer_again {sum : Sum} {m : Monomial} {r : Rat} (flat : FlatKeys sum) (integral : isIntegral sum = true)
    (normal : IntegerNormal sum m r) (isReal : Bool)
    : normalizeEquality (integerNormalForm (normalizeGCDLCM sum false).1 m r isReal)
      = (integerNormalForm (normalizeGCDLCM sum false).1 m r isReal, false) := by
  have normalizedFlat := normalized_flat flat
  have mFlat : m.Flat := normalizedFlat.of_mem normal.member
  have isInt : m.node.getType = .int := by
    rw [← normalized_isIntegral] at integral
    exact mFlat.getType_eq_int (List.all_eq_true.mp integral _ normal.member)
  have notConst := getConst_mkMultTerm normal.notConst |r|
  have notCast := (getKind_mkMultTerm |r| mFlat).2
  have isSum := difference_integerNormalForm flat normal isReal
  have signNonzero : sign (decide (r < 0)) ≠ 0 := by
    rcases sign_cases (decide (r < 0)) with isSign | isSign <;> rw [isSign] <;> decide
  have den : |r|.den = 1 := by
    have integralR := normalized_den sum normal.member normal.notConst
    rcases abs_choice r with same | negated
    · rw [same]
      exact integralR
    · rw [negated, Rat.neg_den]
      exact integralR
  have undecided : Undecided (castSide isReal (mkMultTerm |r| m.node))
      (castSide isReal (collectSum (((normalizeGCDLCM sum false).1.erase m).scale (-sign (decide (r < 0)))))) := by
    refine @Undecided.of_sum _ _ _ m ?_ ?_
    · rw [removeToReal_castSide isReal notConst notCast]
      exact notConst
    · rw [equalitySum, isSum, LinearForm.coefficient_scale, LinearForm.coefficient_of_mem normal.member]
      exact mul_ne_zero normal.nonzero signNonzero
  rw [integerNormalForm, normalizeEquality_of_undecided undecided, equalitySum, isSum,
    isIntegral_scale _ signNonzero, normalized_isIntegral, integral, if_pos rfl,
    getType_castSide isReal notConst (getType_mkMultTerm normal.notConst isInt den),
    buildIntegerEquality_again normal isReal]
  rfl

/-- The normal form of a real equality is its own normal form. -/
theorem real_again {sum : Sum} (flat : FlatKeys sum) (notIntegral : isIntegral sum = false)
    : normalizeEquality (buildRealEquality sum).1 = ((buildRealEquality sum).1, false) := by
  obtain ⟨s, member, notConst, notInt, removed⟩ := removeLTerm_real flat notIntegral
  have nonzero : s.2 ≠ 0 := (LinearForm.mem_entries.mp member).2
  have none : s.1.node.getConst = none := by simpa [Node.isConst] using notConst
  have isSum := difference_realNormalForm flat member notConst
  have notCast : s.1.node.getKind ≠ .toReal := by
    rw [← mkMultTerm_one notConst]
    exact (getKind_mkMultTerm 1 (flat.of_mem member)).2
  have undecided : Undecided (castSide true s.1.node)
      (castSide true (collectSum ((sum.erase s.1).scale (-s.2)⁻¹))) := by
    refine @Undecided.of_sum _ _ _ s.1 ?_ ?_
    · rw [removeToReal_castSide true none notCast]
      exact none
    · rw [equalitySum, isSum, LinearForm.coefficient_scale, LinearForm.coefficient_of_mem member]
      exact mul_ne_zero nonzero (inv_ne_zero nonzero)
  rw [buildRealEquality_of removed nonzero notConst]
  change normalizeEquality (realNormalForm sum s.1 s.2) = (realNormalForm sum s.1 s.2, false)
  rw [realNormalForm, normalizeEquality_of_undecided undecided, equalitySum, isSum,
    isIntegral_scale _ (inv_ne_zero nonzero), notIntegral, if_neg (by decide),
    buildRealEquality_again removed nonzero notConst]
  rfl

/-- Normal forms are their own normal forms, and not negated. -/
theorem normalizeEquality_again (firstFlat : isFlat first = true) (secondFlat : isFlat second = true)
    : normalizeEquality (normalizeEquality (mkNode .equal [first, second])).1
      = ((normalizeEquality (mkNode .equal [first, second])).1, false) := by
  have flat : FlatKeys (equalitySum first second) := flatKeys_difference firstFlat secondFlat false
  rcases normalizeEquality_cases firstFlat secondFlat with ⟨b, isConst⟩ | ⟨undecided, integral, m, r, normal⟩ |
    ⟨undecided, notIntegral⟩
  · rw [isConst]
    rfl
  · rw [normalizeEquality_of_undecided undecided, integral, if_pos rfl, buildIntegerEquality_of normal]
    exact integer_again flat integral normal _
  · rw [normalizeEquality_of_undecided undecided, notIntegral, if_neg (by decide)]
    exact real_again flat notIntegral

omit [LinearOrder Node] in
theorem decide_neg_lt_zero {r : Rat} (nonzero : r ≠ 0) : decide (r * -1 < 0) = !decide (r < 0) := by
  rw [mul_neg_one, ← decide_not]
  refine decide_eq_decide.mpr ?_
  rw [Left.neg_neg_iff, not_lt]
  exact ⟨le_of_lt, fun nonneg => lt_of_le_of_ne nonneg nonzero.symm⟩

/-- The other orientation has the other flag, and its normal form is not a constant either. -/
theorem normalizeEquality_swap (firstFlat : isFlat first = true) (secondFlat : isFlat second = true)
    (notConst : ∀ b, (normalizeEquality (mkNode .equal [first, second])).1 ≠ .constBoolean b)
    : (normalizeEquality (mkNode .equal [second, first])).2 = !(normalizeEquality (mkNode .equal [first, second])).2
      ∧ ∀ b, (normalizeEquality (mkNode .equal [second, first])).1 ≠ .constBoolean b := by
  have flat : FlatKeys (equalitySum first second) := flatKeys_difference firstFlat secondFlat false
  rcases normalizeEquality_cases firstFlat secondFlat with ⟨b, isConst⟩ | ⟨undecided, integral, m, r, normal⟩ |
    ⟨undecided, notIntegral⟩
  · exact absurd (congrArg Prod.fst isConst) (notConst b)
  · rw [normalizeEquality_of_undecided undecided.swap, normalizeEquality_of_undecided undecided, equalitySum_swap,
      isIntegral_scale _ (by decide), integral, if_pos rfl, if_pos rfl, buildIntegerEquality_of normal,
      buildIntegerEquality_of (normal.scale (Or.inr rfl))]
    exact ⟨decide_neg_lt_zero normal.nonzero, nofun⟩
  · obtain ⟨s, member, sNotConst, -, removed⟩ := removeLTerm_real flat notIntegral
    have nonzero : s.2 ≠ 0 := (LinearForm.mem_entries.mp member).2
    have swapped : removeLTerm ((equalitySum first second).scale (-1))
        = ((s.1, s.2 * -1), ((equalitySum first second).scale (-1)).erase (s.1, s.2 * -1).1) := by
      rw [removeLTerm_scale _ (by decide), removed, LinearForm.erase_scale]
    rw [normalizeEquality_of_undecided undecided.swap, normalizeEquality_of_undecided undecided, equalitySum_swap,
      isIntegral_scale _ (by decide), notIntegral, if_neg (by decide), if_neg (by decide),
      buildRealEquality_of removed nonzero sNotConst,
      buildRealEquality_of swapped (mul_ne_zero nonzero (by decide)) sNotConst]
    exact ⟨decide_neg_lt_zero nonzero, nofun⟩

/-- `postRewriteAtom` of an equality: a constant, or the equality that its normal form is oriented like. -/
theorem postRewriteAtom_equal (first second : Node)
    : (∃ b, postRewriteAtom (mkNode .equal [first, second]) = .constBoolean b)
      ∨ Undecided first second
        ∧ (∀ b, (normalizeEquality (mkNode .equal [first, second])).1 ≠ .constBoolean b)
        ∧ postRewriteAtom (mkNode .equal [first, second])
          = if (normalizeEquality (mkNode .equal [first, second])).2 then mkNode .equal [second, first]
            else mkNode .equal [first, second] := by
  change (∃ b, postRewriteRelation .equal first second = .constBoolean b)
    ∨ _ ∧ _ ∧ postRewriteRelation .equal first second = _
  unfold postRewriteRelation
  simp only [if_true]
  split
  · exact Or.inl ⟨_, rfl⟩
  · next notReflexive =>
      split
      · exact Or.inl ⟨_, rfl⟩
      · next notEvaluated =>
          split
          · exact Or.inl ⟨_, rfl⟩
          · next norm negated notConst normalized =>
              rw [normalized]
              refine Or.inr ⟨⟨fun same => ?_, notEvaluated⟩, notConst, rfl⟩
              rw [tryEvaluateRelationReflexive, if_pos same] at notReflexive
              cases notReflexive

/-- Only constant normal forms make constants. -/
theorem postRewriteAtom_const (undecided : Undecided first second) {b : Bool}
    (isConst : postRewriteAtom (mkNode .equal [first, second]) = .constBoolean b)
    : (normalizeEquality (mkNode .equal [first, second])).1 = .constBoolean b := by
  change postRewriteRelation .equal first second = .constBoolean b at isConst
  unfold postRewriteRelation at isConst
  simp only [if_true, tryEvaluateRelationReflexive, if_neg undecided.differ, undecided.notEvaluated] at isConst
  split at isConst
  · next normalized =>
      rw [normalized]
      exact isConst
  · split at isConst
    · cases isConst
    · cases isConst

/-- Equalities are rewritten once. -/
theorem postRewriteAtom_again (firstFlat : isFlat first = true) (secondFlat : isFlat second = true)
    : postRewriteAtom (postRewriteAtom (mkNode .equal [first, second]))
      = postRewriteAtom (mkNode .equal [first, second]) := by
  rcases postRewriteAtom_equal first second with ⟨b, isConst⟩ | ⟨undecided, notConst, oriented⟩
  · rw [isConst]
    rfl
  · cases negated : (normalizeEquality (mkNode .equal [first, second])).2 with
    | false =>
        rw [negated, if_neg (by decide)] at oriented
        rw [oriented, oriented]
    | true =>
        rw [negated, if_pos rfl] at oriented
        obtain ⟨flag, swappedNotConst⟩ := normalizeEquality_swap firstFlat secondFlat notConst
        rw [negated, Bool.not_true] at flag
        rw [oriented]
        rcases postRewriteAtom_equal second first with ⟨b, isConst⟩ | ⟨-, -, again⟩
        · have decided := postRewriteAtom_const undecided.swap isConst
          exact absurd decided (swappedNotConst b)
        · rw [again, flag, if_neg (by decide)]

end Again

/-- Relations between flattened terms: rewriting them and taking the normal form of an equality keep their truth, the
normal form is its own normal form, exactly one orientation of an equality with a normal form is flagged as negated, and
so equalities are rewritten only once. -/
theorem relations_normalised (first second : Node) (firstFlat : isFlat first = true)
    (secondFlat : isFlat second = true)
    : (∀ k : Kind, k.isRelation = true → ∀ I : Interpretation,
        (postRewriteAtom (mkNode k [first, second])).value I = (mkNode k [first, second]).value I)
      ∧ (∀ I : Interpretation, (normalizeEquality (mkNode .equal [first, second])).1.value I
        = (mkNode .equal [first, second]).value I)
      ∧ (normalizeEquality (normalizeEquality (mkNode .equal [first, second])).1).1
        = (normalizeEquality (mkNode .equal [first, second])).1
      ∧ ((∀ b, (normalizeEquality (mkNode .equal [first, second])).1 ≠ .constBoolean b)
        → (normalizeEquality (mkNode .equal [second, first])).2
          = !(normalizeEquality (mkNode .equal [first, second])).2)
      ∧ postRewriteAtom (postRewriteAtom (mkNode .equal [first, second]))
        = postRewriteAtom (mkNode .equal [first, second]) := by
  refine ⟨?_, ?_, ?_, ?_, postRewriteAtom_again firstFlat secondFlat⟩
  · intro k isRelation I
    rw [value_relation I isRelation, ← value_postRewriteRelation I isRelation firstFlat secondFlat]
    cases k with
    | equal | lt | leq | gt | geq => rfl
    | _ => cases isRelation
  · intro I
    rw [value_normalizeEquality I firstFlat secondFlat]
    exact (@value_relation I .equal rfl first second).symm
  · rw [normalizeEquality_again firstFlat secondFlat]
  · intro notConst
    exact (normalizeEquality_swap firstFlat secondFlat notConst).1

omit [LinearOrder Node] in
/-- The equality of `2 * x` and `y + 1`. -/
theorem doubled_normalised
    : let order : LinearOrder Node := @linearOrderOfSTO _ WellOrderingRel _ (Classical.decRel _)
      let first := mkNode .mult [.constInteger 2, .var .int 0]
      let second := mkNode .add [.var .int 1, .constInteger 1]
      isFlat first = true ∧ isFlat second = true
        ∧ (∀ I : Interpretation, (@normalizeEquality order (mkNode .equal [first, second])).1.value I
          = (mkNode .equal [first, second]).value I)
        ∧ @postRewriteAtom order (@postRewriteAtom order (mkNode .equal [first, second]))
          = @postRewriteAtom order (mkNode .equal [first, second]) := by
  intro order first second
  have firstFlat : isFlat first = true := by decide
  have secondFlat : isFlat second = true := by decide
  have normalised := relations_normalised first second firstFlat secondFlat
  exact ⟨firstFlat, secondFlat, normalised.2.1, normalised.2.2.2.2⟩

end Ava6.Arith.Rewriter

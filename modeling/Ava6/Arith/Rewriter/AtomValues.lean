import Mathlib.Tactic.Linarith
import Ava6.Arith.Rewriter.FlatSums

/-! The rewritten atoms are equivalent to the atoms: a sum may be scaled before it is compared with zero, and bounds
of integral sums may be rounded.
-/

namespace Ava6.Arith.Rewriter

open Library

section Relations

variable (I : Interpretation) {k : Kind} {left right : Node}

theorem evaluateRelation_iff (k : Kind) (l r : Rat) : evaluateRelation k l r = true ↔ k.relates l r := by
  cases k <;> simp [evaluateRelation, Kind.relates]

theorem tryEvaluateRelation_iff {response : Bool}
    (evaluated : tryEvaluateRelation k left right = some response)
    : response = true ↔ k.relates (left.value I) (right.value I) := by
  unfold tryEvaluateRelation at evaluated
  split at evaluated
  · next l r isLeft isRight =>
      rw [← Option.some.inj evaluated, evaluateRelation_iff, value_of_getConst I isLeft,
        value_of_getConst I isRight]
  · cases evaluated

theorem tryEvaluateRelationReflexive_iff {response : Bool}
    (evaluated : tryEvaluateRelationReflexive k left right = some response)
    : response = true ↔ k.relates (left.value I) (right.value I) := by
  unfold tryEvaluateRelationReflexive at evaluated
  split at evaluated
  · next same =>
      subst same
      cases k with
      | lt | leq | equal | distinct | geq | gt =>
          cases evaluated
          simp [Kind.relates]
      | _ => cases evaluated
  · cases evaluated

theorem value_constBoolean {b : Bool} {p : Prop} (same : b = true ↔ p) : (Node.constBoolean b).value I = truth p := by
  rw [Node.value]
  exact truth_congr same

theorem value_not {n : Node} {p : Prop} (same : n.value I = truth p) : (mkNode .not [n]).value I = truth ¬p := by
  rw [value_mkNode, List.map_cons, same]
  exact one_sub_truth p

theorem value_buildRelation (isRelation : k.isRelation = true) (left right : Node) (negate : Bool)
    : (buildRelation k left right negate).value I
      = truth (k.relates (left.value I) (right.value I) ↔ negate = false) := by
  unfold buildRelation
  split
  · next response evaluated =>
      refine value_constBoolean I ?_
      rw [← tryEvaluateRelation_iff I evaluated]
      cases response <;> cases negate <;> simp
  · cases negate with
    | false =>
        refine (value_relation I isRelation left right).trans (truth_congr ?_)
        simp
    | true =>
        refine (value_not I (value_relation I isRelation left right)).trans (truth_congr ?_)
        simp

end Relations

section Order

variable [LinearOrder Node] {sum : Sum} {m m' : Monomial}

theorem Monomial.lt_iff : m < m' ↔ m.rank < m'.rank := Iff.rfl

/-- Constants come first. -/
theorem Monomial.isConst_of_lt (less : m < m') (isConst : m'.node.isConst = true) : m.node.isConst = true := by
  rw [Monomial.lt_iff, rank, rank, Prod.Lex.toLex_lt_toLex', isConst] at less
  exact Bool.not_eq_false' .. |>.mp (le_bot_iff.mp less.1)

/-- Real monomials come before those of type Int. -/
theorem Monomial.getType_of_lt (less : m < m') (sameConst : m.node.isConst = m'.node.isConst)
    (notInt : m'.node.getType ≠ .int)
    : m.node.getType ≠ .int := by
  rw [Monomial.lt_iff, rank, rank, Prod.Lex.toLex_lt_toLex', sameConst] at less
  have rest := less.2 rfl
  rw [Prod.Lex.toLex_lt_toLex', beq_eq_false_iff_ne.mpr notInt] at rest
  exact beq_eq_false_iff_ne.mp (le_bot_iff.mp rest.1)

theorem entries_sorted (sum : Sum) : sum.entries.Pairwise (fun first second => first.1 < second.1) :=
  sum.monomials.sorted

/-- There is no constant after the first summand. -/
theorem isConst_of_mem_rest {front s : Monomial × Rat} {rest : List (Monomial × Rat)} (flat : FlatKeys sum)
    (entries : sum.entries = front :: rest) (member : s ∈ rest)
    : s.1.node.isConst = false := by
  rw [← Bool.not_eq_true]
  intro isConst
  have sorted := entries_sorted sum
  rw [entries] at sorted
  have less : front.1 < s.1 := (List.pairwise_cons.mp sorted).1 s member
  have frontFlat : front.1.Flat := flat.of_mem (entries ▸ List.mem_cons_self)
  have sFlat : s.1.Flat := flat.of_mem (entries ▸ List.mem_cons_of_mem front member)
  have isOne := frontFlat.eq_one (Monomial.isConst_of_lt less isConst)
  have same : front.1 = s.1 := congrArg Monomial.mk (isOne.trans (sFlat.eq_one isConst).symm)
  exact lt_irrefl _ (same ▸ less)

theorem mem_getLTermIt (flat : FlatKeys sum) {s : Monomial × Rat}
    : s ∈ getLTermIt sum ↔ s ∈ sum.entries ∧ s.1.node.isConst = false := by
  unfold getLTermIt
  split
  · next entries => simp [entries]
  · next front rest entries =>
      have others (member : s ∈ rest) := isConst_of_mem_rest flat entries member
      rw [entries]
      split
      · next isConst =>
          refine ⟨fun member => ⟨List.mem_cons_of_mem front member, others member⟩, fun inSum => ?_⟩
          rcases List.mem_cons.mp inSum.1 with rfl | member
          · simp [isConst] at inSum
          · exact member
      · next notConst =>
          refine ⟨fun member => ⟨member, ?_⟩, And.left⟩
          rcases List.mem_cons.mp member with rfl | inRest
          · exact Bool.eq_false_iff.mpr notConst
          · exact others inRest

theorem mem_coefficients {r : Rat}
    : r ∈ coefficients sum ↔ ∃ m : Monomial, (m, r) ∈ sum.entries ∧ m.node.isConst = false := by
  rw [coefficients, List.mem_map]
  constructor
  · rintro ⟨s, member, rfl⟩
    obtain ⟨inSum, notConst⟩ := List.mem_filter.mp member
    exact ⟨s.1, inSum, by simpa using notConst⟩
  · rintro ⟨m, inSum, notConst⟩
    exact ⟨(m, r), List.mem_filter.mpr ⟨inSum, by simpa using notConst⟩, rfl⟩

end Order

section Scaling

variable [LinearOrder Node] {sum : Sum}

theorem nonzero_of_mem_coefficients {r : Rat} (member : r ∈ coefficients sum) : r ≠ 0 := by
  obtain ⟨m, inSum, -⟩ := mem_coefficients.mp member
  exact (LinearForm.mem_entries.mp inSum).2

theorem content_coefficients_pos (nonempty : coefficients sum ≠ []) : 0 < content (coefficients sum) := by
  obtain ⟨r, member⟩ := List.exists_mem_of_ne_nil _ nonempty
  exact content_pos member (nonzero_of_mem_coefficients member)

theorem normalizeGCDLCM_nil (isNil : coefficients sum = []) (followLCoeffSign : Bool)
    : normalizeGCDLCM sum followLCoeffSign = (sum, false) := by
  unfold normalizeGCDLCM
  rw [isNil]
  rfl

/-- The sum is divided by the content of its coefficients. -/
theorem normalizeGCDLCM_eq (nonempty : coefficients sum ≠ []) (followLCoeffSign : Bool)
    : normalizeGCDLCM sum followLCoeffSign
      = (sum.scale (sign (followLCoeffSign && decide (lcoeff sum < 0)) * (content (coefficients sum))⁻¹),
        followLCoeffSign && decide (lcoeff sum < 0)) := by
  have positive := content_coefficients_pos nonempty
  have numerator : commonNumerator (coefficients sum) ≠ 0 := by
    intro isZero
    rw [content, isZero] at positive
    simp at positive
  unfold normalizeGCDLCM
  simp only [if_neg numerator]
  rw [content, inv_div]
  split
  · next negate =>
      rw [negate, sign, if_pos rfl, neg_one_mul]
  · next keep =>
      rw [Bool.not_eq_true] at keep
      rw [keep, sign, if_neg (by decide), one_mul]

/-- The sum is scaled, and the coefficients become integral. -/
theorem normalizeGCDLCM_spec (sum : Sum) (followLCoeffSign : Bool)
    : ∃ c : Rat, c ≠ 0 ∧ (normalizeGCDLCM sum followLCoeffSign).1 = sum.scale c
      ∧ ((normalizeGCDLCM sum followLCoeffSign).2 = true ↔ c < 0)
      ∧ ∀ r ∈ coefficients (sum.scale c), r.den = 1 := by
  by_cases isNil : coefficients sum = []
  · refine ⟨1, one_ne_zero, ?_, ?_, ?_⟩
    · rw [normalizeGCDLCM_nil isNil, LinearForm.scale_one]
    · rw [normalizeGCDLCM_nil isNil]
      simp
    · rw [LinearForm.scale_one, isNil]
      exact List.forall_mem_nil _
  · have positive := content_coefficients_pos isNil
    rw [normalizeGCDLCM_eq isNil]
    generalize (followLCoeffSign && decide (lcoeff sum < 0)) = negate
    have signNonzero : sign negate ≠ 0 := by cases negate <;> simp [sign]
    refine ⟨_, mul_ne_zero signNonzero (inv_ne_zero positive.ne'), rfl, ?_, ?_⟩
    · cases negate with
      | false => simpa [sign] using positive.le
      | true => simpa [sign] using positive
    · intro r member
      obtain ⟨m, inSum, notConst⟩ := mem_coefficients.mp member
      obtain ⟨isCoefficient, nonzero⟩ := LinearForm.mem_entries.mp inSum
      rw [LinearForm.coefficient_scale] at isCoefficient
      have oldNonzero : sum.coefficient m ≠ 0 := by
        intro isZero
        rw [isZero, zero_mul] at isCoefficient
        exact nonzero isCoefficient.symm
      have old : sum.coefficient m ∈ coefficients sum :=
        mem_coefficients.mpr ⟨m, LinearForm.mem_entries.mpr ⟨rfl, oldNonzero⟩, notConst⟩
      obtain ⟨z, isMultiple⟩ := exists_multiple old
      have isInteger : r = ((if negate then -z else z : Int) : Rat) := by
        rw [← isCoefficient, isMultiple]
        cases negate <;> simp [sign, positive.ne']
      rw [isInteger, Rat.den_intCast]

end Scaling

-- Removing summands

section Removing

variable [LinearOrder Node] (I : Interpretation) {sum : Sum}

theorem sumValue_scale (sum : Sum) (c : Rat) : sumValue I (sum.scale c) = sumValue I sum * c := by
  rw [sumValue, LinearForm.eval_scale, eq_ratCast]
  rfl

theorem sumValue_erase {s : Monomial × Rat} (member : s ∈ sum.entries)
    : sumValue I sum = s.2 * s.1.node.value I + sumValue I (sum.erase s.1) := by
  rw [sumValue, LinearForm.eval_erase _ sum s.1, LinearForm.coefficient_of_mem member, eq_ratCast]
  rfl

theorem sumValue_removeConstant (flat : FlatKeys sum)
    : sumValue I sum = (removeConstant sum).1 + sumValue I (removeConstant sum).2 := by
  unfold removeConstant
  split
  · simp
  · next front rest entries =>
      split
      · next isConst =>
          have member : front ∈ sum.entries := entries ▸ List.mem_cons_self
          have isOne : front.1.node = .constInteger 1 := (flat.of_mem member).eq_one isConst
          rw [sumValue_erase I member, isOne, Node.value, Int.cast_one, mul_one]
      · simp

theorem mem_removeConstant (flat : FlatKeys sum) {s : Monomial × Rat} (member : s ∈ (removeConstant sum).2.entries)
    : s ∈ sum.entries ∧ s.1.node.isConst = false := by
  unfold removeConstant at member
  split at member
  · next entries =>
      rw [entries] at member
      cases member
  · next front rest entries =>
      split at member
      · next isConst =>
          obtain ⟨inSum, differs⟩ := LinearForm.mem_entries_erase.mp member
          have inRest : s ∈ rest := by
            rw [entries] at inSum
            refine (List.mem_cons.mp inSum).resolve_left (fun same => differs (congrArg Prod.fst same))
          exact ⟨inSum, isConst_of_mem_rest flat entries inRest⟩
      · next notConst =>
          refine ⟨member, ?_⟩
          rw [entries] at member
          rcases List.mem_cons.mp member with rfl | inRest
          · exact Bool.eq_false_iff.mpr notConst
          · exact isConst_of_mem_rest flat entries inRest

omit [LinearOrder Node] in
theorem foldl_minAbs_mem (rest : List (Monomial × Rat)) (first : Monomial × Rat)
    : rest.foldl (fun min s => if s.1.node.isConst then min else if |s.2| < |min.2| then s else min) first
      ∈ first :: rest := by
  induction rest generalizing first with
  | nil => exact List.mem_cons_self
  | cons s rest ih =>
      have skip : first :: rest ⊆ first :: s :: rest :=
        List.cons_subset_cons first (List.subset_cons_self s rest)
      rw [List.foldl_cons]
      split
      · exact skip (ih first)
      · split
        · exact List.mem_cons_of_mem _ (ih s)
        · exact skip (ih first)

/-- The removed summand is one of those that are not constant, if there is one. -/
theorem removeMinAbsCoeff_spec (flat : FlatKeys sum)
    : (getLTermIt sum = [] ∧ removeMinAbsCoeff sum = ((⟨.constInteger 1⟩, 0), sum))
      ∨ ∃ s ∈ sum.entries, s.1.node.isConst = false ∧ removeMinAbsCoeff sum = (s, sum.erase s.1) := by
  unfold removeMinAbsCoeff
  split
  · next isNil => exact Or.inl ⟨isNil, rfl⟩
  · next lterm rest entries =>
      have member := foldl_minAbs_mem rest lterm
      rw [← entries, mem_getLTermIt flat] at member
      exact Or.inr ⟨_, member.1, member.2, rfl⟩

theorem removeLTerm_spec (flat : FlatKeys sum)
    : (getLTermIt sum = [] ∧ removeLTerm sum = ((⟨.constInteger 1⟩, 0), sum))
      ∨ ∃ s ∈ sum.entries, s.1.node.isConst = false ∧ removeLTerm sum = (s, sum.erase s.1) := by
  unfold removeLTerm
  split
  · next isNil => exact Or.inl ⟨isNil, rfl⟩
  · next lterm rest entries =>
      have member : lterm ∈ getLTermIt sum := entries ▸ List.mem_cons_self
      rw [mem_getLTermIt flat] at member
      exact Or.inr ⟨_, member.1, member.2, rfl⟩

/-- A sum is the summand that is removed and the others. -/
theorem sumValue_removed {result : (Monomial × Rat) × Sum}
    (removed : (getLTermIt sum = [] ∧ result = ((⟨.constInteger 1⟩, 0), sum))
      ∨ ∃ s ∈ sum.entries, s.1.node.isConst = false ∧ result = (s, sum.erase s.1))
    : sumValue I sum = result.1.2 * result.1.1.node.value I + sumValue I result.2 := by
  rcases removed with ⟨-, rfl⟩ | ⟨s, member, -, rfl⟩
  · simp
  · exact sumValue_erase I member

/-- Integral sums have integral values, apart from the constant. -/
theorem integer_sumValue {rest : Sum}
    (integral : ∀ s ∈ rest.entries, s.2.den = 1 ∧ IsInteger (s.1.node.value I))
    : IsInteger (sumValue I rest) := by
  rw [sumValue, LinearForm.eval_eq_sum]
  refine IsInteger.sum (fun x member => ?_)
  obtain ⟨s, isSummand, rfl⟩ := List.mem_map.mp member
  obtain ⟨isIntegral, isInteger⟩ := integral s isSummand
  refine IsInteger.mul ⟨s.2.num, ?_⟩ isInteger
  rw [eq_ratCast, ← Rat.cast_intCast, Rat.coe_int_num_of_den_eq_one isIntegral]

/-- All keys of an integral sum have integral values. -/
theorem integer_of_isIntegral (flat : FlatKeys sum) (integral : isIntegral sum = true) {s : Monomial × Rat}
    (member : s ∈ sum.entries)
    : IsInteger (s.1.node.value I) :=
  integer_of_getType I ((flat.of_mem member).getType_eq_int (List.all_eq_true.mp integral s member))

end Removing

-- Equalities with zero

section Equalities

variable [LinearOrder Node] (I : Interpretation) {sum : Sum}

/-- A sum of integers and a fraction is not zero. -/
theorem sumValue_ne_zero (flat : FlatKeys sum) (integral : isIntegral sum = true)
    (coprime : ∀ r ∈ coefficients sum, r.den = 1) (fraction : hasFraction sum = true)
    : sumValue I sum ≠ 0 := by
  intro isZero
  rw [sumValue_removeConstant I flat] at isZero
  have restInteger : IsInteger (sumValue I (removeConstant sum).2) := by
    refine integer_sumValue I (fun s member => ?_)
    obtain ⟨inSum, notConst⟩ := mem_removeConstant flat member
    exact ⟨coprime s.2 (mem_coefficients.mpr ⟨s.1, inSum, notConst⟩), integer_of_isIntegral I flat integral inSum⟩
  obtain ⟨z, isRest⟩ := restInteger
  rw [isRest] at isZero
  have isConstant : (removeConstant sum).1 = ((-z : Int) : Rat) := by
    have cast : ((removeConstant sum).1 : ℝ) = ((-z : Int) : Rat) := by
      push_cast
      linarith
    exact_mod_cast cast
  have integralConstant : (removeConstant sum).1.den = 1 := by rw [isConstant, Rat.den_intCast]
  unfold hasFraction at fraction
  unfold removeConstant at integralConstant
  split at fraction
  · cases fraction
  · next entries =>
      obtain ⟨isConst, differs⟩ := Bool.and_eq_true_iff.mp fraction
      rw [entries] at integralConstant
      simp only [isConst, if_true] at integralConstant
      exact of_decide_eq_true differs integralConstant

theorem isIntegral_scale (sum : Sum) {c : Rat} (differs : c ≠ 0) : isIntegral (sum.scale c) = isIntegral sum := by
  rw [isIntegral, LinearForm.entries_scale sum differs, List.all_map]
  rfl

theorem sumValue_empty (isEmpty : sum.entries.isEmpty = true) : sumValue I sum = 0 := by
  rw [sumValue, LinearForm.eval_eq_sum, List.isEmpty_iff.mp isEmpty]
  rfl

omit [LinearOrder Node] in
theorem truth_equal (left right : Node) (p : Prop) (same : left.value I = right.value I ↔ p)
    : (buildRelation .equal left right false).value I = truth p := by
  rw [value_buildRelation I rfl]
  refine truth_congr ?_
  simpa [Kind.relates] using same

/-- The built equality holds where the sum is zero: scaling by factors other than zero and moving a monomial
keep this.
-/
theorem value_buildIntegerEquality (flat : FlatKeys sum) (integral : isIntegral sum = true) (isReal : Bool)
    : (buildIntegerEquality sum isReal).1.value I = truth (sumValue I sum = 0) := by
  obtain ⟨c, differs, isScaled, -, coprime⟩ := normalizeGCDLCM_spec sum false
  have scaledFlat : FlatKeys (sum.scale c) := flat.scale c
  have scaledZero : sumValue I (sum.scale c) = 0 ↔ sumValue I sum = 0 := by
    rw [sumValue_scale, mul_eq_zero, or_iff_left (Rat.cast_ne_zero.mpr differs)]
  unfold buildIntegerEquality
  split
  · next isEmpty =>
      refine value_constBoolean I ?_
      simp [sumValue_empty I isEmpty]
  · simp only [isScaled]
    split
    · next fraction =>
        refine value_constBoolean I ?_
        rw [← isIntegral_scale sum differs] at integral
        simpa [← scaledZero] using sumValue_ne_zero I scaledFlat integral coprime fraction
    · have removed := sumValue_removed I (removeMinAbsCoeff_spec scaledFlat)
      generalize removeMinAbsCoeff (sum.scale c) = minabscoeff at removed
      obtain ⟨⟨m, r⟩, rest⟩ := minabscoeff
      have sides : (mkMultTerm (if decide (r < 0) then -r else r) m.node).value I
            = (collectSum (if decide (r < 0) then rest else rest.scale (-1))).value I
          ↔ sumValue I sum = 0 := by
        rw [← scaledZero, removed, value_mkMultTerm, value_collectSum]
        simp only
        split
        · push_cast
          constructor <;> intro same <;> linarith
        · rw [sumValue_scale]
          push_cast
          constructor <;> intro same <;> linarith
      cases isReal with
      | true =>
          refine truth_equal I _ _ _ ?_
          rw [value_ensureReal, value_ensureReal]
          exact sides
      | false => exact truth_equal I _ _ _ sides

theorem value_buildRealEquality (flat : FlatKeys sum)
    : (buildRealEquality sum).1.value I = truth (sumValue I sum = 0) := by
  have removed := sumValue_removed I (removeLTerm_spec flat)
  unfold buildRealEquality
  generalize removeLTerm sum = lterm at removed
  obtain ⟨⟨m, r⟩, rest⟩ := lterm
  simp only at removed ⊢
  split
  · next isZero =>
      refine truth_equal I _ _ _ ?_
      rw [value_mkConst, value_collectSum, removed, isZero, Rat.cast_zero, zero_mul, zero_add]
      exact eq_comm
  · next differs =>
      have nonzero : (r : ℝ) ≠ 0 := Rat.cast_ne_zero.mpr differs
      refine truth_equal I _ _ _ ?_
      rw [value_ensureReal, value_ensureReal, value_collectSum, sumValue_scale, removed]
      push_cast
      rw [inv_neg, mul_neg, ← div_eq_mul_inv, ← neg_div, eq_div_iff nonzero]
      constructor <;> intro same <;> linarith

end Equalities

-- Inequalities with zero

section Inequalities

variable [LinearOrder Node] (I : Interpretation) {sum : Sum} {k : Kind}

omit [LinearOrder Node] in
/-- Relations with zero under a positive multiple. -/
theorem relates_scale (isInequality : k = .geq ∨ k = .gt) {x c : ℝ} (positive : 0 < c)
    : k.relates (x * c) 0 ↔ k.relates x 0 := by
  rcases isInequality with rfl | rfl
  · exact mul_nonneg_iff_of_pos_right positive
  · exact mul_pos_iff_of_pos_right positive

omit [LinearOrder Node] in
/-- Relations with zero under a negative multiple. -/
theorem relates_scale_neg (isInequality : k = .geq ∨ k = .gt) {x c : ℝ} (negative : c < 0)
    : (if k = .geq then Kind.gt else .geq).relates (x * c) 0 ↔ ¬k.relates x 0 := by
  rcases isInequality with rfl | rfl
  · rw [if_pos rfl]
    change 0 < x * c ↔ ¬0 ≤ x
    rw [not_le]
    exact ⟨fun positive => neg_of_mul_pos_left positive negative.le,
      fun xNegative => mul_pos_of_neg_of_neg xNegative negative⟩
  · rw [if_neg (by decide)]
    change 0 ≤ x * c ↔ ¬0 < x
    rw [not_lt]
    exact ⟨fun nonneg => nonpos_of_mul_nonneg_left nonneg negative,
      fun nonpos => mul_nonneg_of_nonpos_of_nonpos nonpos negative.le⟩

/-- The bound of an integral sum, rounded. -/
def roundBound (k : Kind) (bound : Rat) : Int := if bound.den = 1 ∧ k = .gt then bound.num + 1 else ⌈bound⌉

omit [LinearOrder Node] in
theorem roundBound_le (isInequality : k = .geq ∨ k = .gt) {x : ℝ} (integral : IsInteger x) (bound : Rat)
    : (roundBound k bound : ℝ) ≤ x ↔ k.relates (-bound + x) 0 := by
  obtain ⟨z, rfl⟩ := integral
  have ceil : ((⌈bound⌉ : Int) : ℝ) ≤ z ↔ (bound : ℝ) ≤ z := by
    rw [Int.cast_le, Int.ceil_le]
    exact_mod_cast Iff.rfl
  unfold roundBound
  split
  · next isStrict =>
      obtain ⟨isIntegral, rfl⟩ := isStrict
      have isBound : (bound : ℝ) = bound.num := by
        nth_rewrite 1 [← Rat.coe_int_num_of_den_eq_one isIntegral]
        rw [Rat.cast_intCast]
      change _ ↔ 0 < -(bound : ℝ) + z
      rw [Int.cast_le, Int.add_one_le_iff, isBound, lt_neg_add_iff_add_lt, add_zero, Int.cast_lt]
  · next notStrict =>
      rcases isInequality with rfl | rfl
      · change _ ↔ 0 ≤ -(bound : ℝ) + z
        rw [ceil, le_neg_add_iff_add_le, add_zero]
      · change _ ↔ 0 < -(bound : ℝ) + z
        rw [ceil, lt_neg_add_iff_add_lt, add_zero]
        refine ⟨fun atMost => lt_of_le_of_ne atMost (fun same => ?_), le_of_lt⟩
        have isInteger : bound = (z : Rat) := by exact_mod_cast same
        exact notStrict ⟨by rw [isInteger, Rat.den_intCast], rfl⟩

theorem buildIntegerInequality_eq (sum : Sum) (k : Kind)
    : buildIntegerInequality sum k
      = buildRelation .geq (collectSum (removeConstant (normalizeGCDLCM sum true).1).2)
          (.constInteger (roundBound
            (if (normalizeGCDLCM sum true).2 then (if k = .geq then .gt else .geq) else k)
            (-(removeConstant (normalizeGCDLCM sum true).1).1)))
          (normalizeGCDLCM sum true).2 := rfl

/-- The built inequality holds where the sum is in relation to zero, with the bound rounded for integers. -/
theorem value_buildIntegerInequality (flat : FlatKeys sum) (integral : isIntegral sum = true)
    (isInequality : k = .geq ∨ k = .gt)
    : (buildIntegerInequality sum k).value I = truth (k.relates (sumValue I sum) 0) := by
  obtain ⟨c, differs, isScaled, negated, coprime⟩ := normalizeGCDLCM_spec sum true
  have scaledFlat : FlatKeys (sum.scale c) := flat.scale c
  rw [buildIntegerInequality_eq, isScaled, value_buildRelation I rfl, value_collectSum]
  refine truth_congr ?_
  have restInteger : IsInteger (sumValue I (removeConstant (sum.scale c)).2) := by
    refine integer_sumValue I (fun s member => ?_)
    obtain ⟨inSum, notConst⟩ := mem_removeConstant scaledFlat member
    rw [← isIntegral_scale sum differs] at integral
    exact ⟨coprime s.2 (mem_coefficients.mpr ⟨s.1, inSum, notConst⟩),
      integer_of_isIntegral I scaledFlat integral inSum⟩
  have bound (k' : Kind) (isInequality' : k' = .geq ∨ k' = .gt)
      : Kind.geq.relates (sumValue I (removeConstant (sum.scale c)).2)
          ((Node.constInteger (roundBound k' (-(removeConstant (sum.scale c)).1))).value I)
        ↔ k'.relates (sumValue I sum * c) 0 := by
    rw [← sumValue_scale, sumValue_removeConstant I scaledFlat]
    refine (roundBound_le isInequality' restInteger _).trans ?_
    rw [Rat.cast_neg, neg_neg]
  cases negate : (normalizeGCDLCM sum true).2 with
  | false =>
      have positive : (0 : ℝ) < c := by
        have notNegative : ¬c < 0 := fun negative => by simp [negated.mpr negative] at negate
        exact Rat.cast_pos.mpr (lt_of_le_of_ne (not_lt.mp notNegative) differs.symm)
      simp only [Bool.false_eq_true, if_false, iff_true]
      exact (bound k isInequality).trans (relates_scale isInequality positive)
  | true =>
      have negative : (c : ℝ) < 0 := Rat.cast_lt_zero.mpr (negated.mp negate)
      simp only [if_true, Bool.true_eq_false, iff_false]
      have flipped : (if k = .geq then Kind.gt else .geq) = .geq ∨ (if k = .geq then Kind.gt else .geq) = .gt := by
        split <;> simp
      rw [bound _ flipped, relates_scale_neg isInequality negative, not_not]

theorem mem_getLTermIt_of_two {front second : Monomial × Rat} {rest : List (Monomial × Rat)}
    (entries : sum.entries = front :: second :: rest)
    : ∃ lterm ∈ sum.entries, lcoeff sum = lterm.2 := by
  unfold lcoeff getLTermIt
  rw [entries]
  cases isConst : front.1.node.isConst with
  | true => exact ⟨second, by simp, by simp [isConst]⟩
  | false => exact ⟨front, by simp, by simp [isConst]⟩

/-- The sum is divided by a positive number. -/
theorem normalizeLCoeffAbsOne_spec (sum : Sum) : ∃ c : Rat, 0 < c ∧ normalizeLCoeffAbsOne sum = sum.scale c := by
  unfold normalizeLCoeffAbsOne
  split
  · exact ⟨1, one_pos, (LinearForm.scale_one sum).symm⟩
  · next front entries =>
      have member : front ∈ sum.entries := entries ▸ List.mem_cons_self
      obtain ⟨isCoefficient, nonzero⟩ := LinearForm.mem_entries.mp member
      refine ⟨|front.2|⁻¹, inv_pos.mpr (abs_pos.mpr nonzero), LinearForm.ext (fun key => ?_)⟩
      rw [LinearForm.coefficient_assign, LinearForm.coefficient_scale]
      split
      · next isKey =>
          rw [isKey, isCoefficient]
          split
          · next positive => rw [abs_of_pos positive, mul_inv_cancel₀ nonzero]
          · next notPositive =>
              rw [abs_of_nonpos (not_lt.mp notPositive), inv_neg, mul_neg, mul_inv_cancel₀ nonzero]
      · next isOther =>
          have missing : sum.coefficient key = 0 := by
            by_contra present
            have inSum := LinearForm.mem_entries.mpr ⟨rfl, present⟩
            rw [entries] at inSum
            exact isOther (congrArg Prod.fst (List.mem_singleton.mp inSum))
          rw [missing, zero_mul]
  · next notEmpty notSingle =>
      match entries : sum.entries with
      | [] => exact absurd entries notEmpty
      | [front] => exact absurd entries (notSingle front)
      | front :: second :: rest =>
          obtain ⟨lterm, member, isLeading⟩ := mem_getLTermIt_of_two entries
          have nonzero : lcoeff sum ≠ 0 := isLeading ▸ (LinearForm.mem_entries.mp member).2
          exact ⟨_, inv_pos.mpr (abs_pos.mpr nonzero), rfl⟩

theorem value_buildRealInequality (flat : FlatKeys sum) (isInequality : k = .geq ∨ k = .gt)
    : (buildRealInequality sum k).value I = truth (k.relates (sumValue I sum) 0) := by
  obtain ⟨c, positive, isScaled⟩ := normalizeLCoeffAbsOne_spec sum
  have isRelation : k.isRelation = true := by rcases isInequality with rfl | rfl <;> rfl
  have removed := sumValue_removeConstant I (flat.scale c)
  unfold buildRealInequality
  rw [isScaled]
  simp only
  rw [value_buildRelation I isRelation, value_collectSum, value_mkConst]
  refine truth_congr ?_
  rw [← relates_scale isInequality (Rat.cast_pos.mpr positive), ← sumValue_scale, removed]
  rcases isInequality with rfl | rfl
  · simp [Kind.relates, neg_le_iff_add_nonneg']
  · simp [Kind.relates, neg_lt_iff_pos_add']

end Inequalities

-- Atoms

section Atoms

variable [LinearOrder Node] (I : Interpretation) {first second : Node}

theorem sumValue_difference (left right : Node) (negate : Bool)
    : sumValue I (addToSum (addToSum .empty negate left) (!negate) right)
      = sign negate * (left.value I - right.value I) := by
  rw [sumValue_addToSum, sumValue_addToSum]
  cases negate <;> simp [sumValue, sign] <;> ring

/-- A normalised equality has its value, by cases on whether its sum is integral. -/
theorem value_normalizeEquality (firstFlat : isFlat first = true) (secondFlat : isFlat second = true)
    : (normalizeEquality (mkNode .equal [first, second])).1.value I = truth (first.value I = second.value I) := by
  have difference := sumValue_difference I (removeToReal first) (removeToReal second) false
  have flat := flatKeys_difference firstFlat secondFlat false
  rw [value_removeToReal, value_removeToReal, Bool.not_false] at difference
  rw [Bool.not_false] at flat
  have isZero : sumValue I (addToSum (addToSum .empty false (removeToReal first)) true (removeToReal second)) = 0
      ↔ first.value I = second.value I := by
    rw [difference]
    simp [sign, sub_eq_zero]
  change (normalizeEquality (.apply .equal (.cons first (.cons second .nil)))).1.value I = _
  unfold normalizeEquality
  simp only
  split
  · next evaluated =>
      refine value_constBoolean I ((tryEvaluateRelationReflexive_iff I evaluated).trans ?_)
      rw [value_removeToReal, value_removeToReal]
      rfl
  · split
    · next evaluated =>
        refine value_constBoolean I ((tryEvaluateRelation_iff I evaluated).trans ?_)
        rw [value_removeToReal, value_removeToReal]
        rfl
    · split
      · next integral => exact (value_buildIntegerEquality I flat integral _).trans (truth_congr isZero)
      · exact (value_buildRealEquality I flat).trans (truth_congr isZero)

omit [LinearOrder Node] in
/-- Inequalities in terms of the difference of the sides. -/
theorem relates_difference {k : Kind} (isRelation : k.isRelation = true) (notEqual : k ≠ .equal) (x y : ℝ)
    : (if k = .leq then Kind.geq else if k = .lt then .gt else k).relates
        (sign (decide (k = .leq ∨ k = .lt)) * (x - y)) 0
      ↔ k.relates x y := by
  cases k with
  | lt | leq | gt | geq => simp [Kind.relates, sign]
  | equal => exact absurd rfl notEqual
  | _ => cases isRelation

/-- The relation that `postRewriteRelation` returns is equivalent to the given one. -/
theorem value_postRewriteRelation {k : Kind} (isRelation : k.isRelation = true) (firstFlat : isFlat first = true)
    (secondFlat : isFlat second = true)
    : (postRewriteRelation k first second).value I = truth (k.relates (first.value I) (second.value I)) := by
  unfold postRewriteRelation
  simp only
  split
  · next evaluated =>
      refine value_constBoolean I ((tryEvaluateRelationReflexive_iff I evaluated).trans ?_)
      rw [value_removeToReal, value_removeToReal]
  · split
    · next evaluated =>
        refine value_constBoolean I ((tryEvaluateRelation_iff I evaluated).trans ?_)
        rw [value_removeToReal, value_removeToReal]
    · split
      · next isEqual =>
          subst isEqual
          have normalized := value_normalizeEquality I firstFlat secondFlat
          split
          · next isConst =>
              rw [isConst] at normalized
              exact normalized
          · split
            · refine (value_relation I rfl second first).trans (truth_congr ?_)
              exact eq_comm
            · exact value_relation I rfl first second
      · next notEqual =>
          have flat := flatKeys_difference firstFlat secondFlat (decide (k = .leq ∨ k = .lt))
          have difference := sumValue_difference I (removeToReal first) (removeToReal second)
            (decide (k = .leq ∨ k = .lt))
          rw [value_removeToReal, value_removeToReal] at difference
          have isInequality : (if k = .leq then Kind.geq else if k = .lt then .gt else k) = .geq
              ∨ (if k = .leq then Kind.geq else if k = .lt then .gt else k) = .gt := by
            cases k <;> first | (cases isRelation; done) | simp at notEqual ⊢
          have same := relates_difference isRelation notEqual (first.value I) (second.value I)
          rw [← difference] at same
          split
          · next integral => exact (value_buildIntegerInequality I flat integral isInequality).trans (truth_congr same)
          · exact (value_buildRealInequality I flat isInequality).trans (truth_congr same)

end Atoms

end Ava6.Arith.Rewriter

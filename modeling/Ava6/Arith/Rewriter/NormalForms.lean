import Ava6.Arith.Rewriter.AtomValues

/-! Normal forms of equalities: the normal form of a normal form is itself, and of the two orientations of an
equality exactly one points in the direction of its normal form.
-/

namespace Ava6.Arith.Rewriter

open Library

-- Scaled sums

section Scaled

variable [LinearOrder Node] {sum : Sum} {c : Rat}

theorem getLTermIt_scale (sum : Sum) (differs : c ≠ 0)
    : getLTermIt (sum.scale c) = (getLTermIt sum).map (fun s => (s.1, s.2 * c)) := by
  unfold getLTermIt
  rw [LinearForm.entries_scale sum differs]
  cases sum.entries with
  | nil => rfl
  | cons front rest =>
      simp only [List.map_cons]
      split
      · rfl
      · rfl

theorem coefficients_scale (sum : Sum) (differs : c ≠ 0)
    : coefficients (sum.scale c) = (coefficients sum).map (· * c) := by
  rw [coefficients, coefficients, LinearForm.entries_scale sum differs, List.filter_map, List.map_map, List.map_map]
  rfl

omit [LinearOrder Node] in
/-- The least absolute coefficient stays at its place. -/
theorem foldl_minAbs_scale (differs : c ≠ 0) (rest : List (Monomial × Rat)) (first : Monomial × Rat)
    : (rest.map (fun s => (s.1, s.2 * c))).foldl
        (fun min s => if s.1.node.isConst then min else if |s.2| < |min.2| then s else min) (first.1, first.2 * c)
      = ((rest.foldl (fun min s => if s.1.node.isConst then min else if |s.2| < |min.2| then s else min) first).1,
        (rest.foldl (fun min s => if s.1.node.isConst then min else if |s.2| < |min.2| then s else min) first).2
          * c) := by
  induction rest generalizing first with
  | nil => rfl
  | cons s rest ih =>
      have less : |s.2 * c| < |first.2 * c| ↔ |s.2| < |first.2| := by
        rw [abs_mul, abs_mul]
        exact mul_lt_mul_iff_left₀ (abs_pos.mpr differs)
      rw [List.map_cons, List.foldl_cons, List.foldl_cons]
      simp only [less]
      split
      · exact ih first
      · split
        · exact ih s
        · exact ih first

theorem removeMinAbsCoeff_scale (sum : Sum) (differs : c ≠ 0)
    : removeMinAbsCoeff (sum.scale c)
      = (((removeMinAbsCoeff sum).1.1, (removeMinAbsCoeff sum).1.2 * c), (removeMinAbsCoeff sum).2.scale c) := by
  unfold removeMinAbsCoeff
  rw [getLTermIt_scale sum differs]
  cases getLTermIt sum with
  | nil => simp
  | cons lterm rest =>
      simp only [List.map_cons, foldl_minAbs_scale differs rest lterm, LinearForm.erase_scale]

theorem removeLTerm_scale (sum : Sum) (differs : c ≠ 0)
    : removeLTerm (sum.scale c) = (((removeLTerm sum).1.1, (removeLTerm sum).1.2 * c), (removeLTerm sum).2.scale c) := by
  unfold removeLTerm
  rw [getLTermIt_scale sum differs]
  cases getLTermIt sum with
  | nil => simp
  | cons lterm rest => simp only [List.map_cons, LinearForm.erase_scale]

/-- The sign of a sum does not make fractions of its constant. -/
theorem hasFraction_scale (sum : Sum) (isSign : c = 1 ∨ c = -1) : hasFraction (sum.scale c) = hasFraction sum := by
  have differs : c ≠ 0 := by rcases isSign with rfl | rfl <;> decide
  unfold hasFraction
  rw [LinearForm.entries_scale sum differs]
  cases sum.entries with
  | nil => rfl
  | cons front rest =>
      have sameDen : (front.2 * c).den = front.2.den := by
        rcases isSign with rfl | rfl
        · rw [mul_one]
        · rw [mul_neg_one, Rat.neg_den]
      simp only [List.map_cons, sameDen]

theorem isEmpty_scale (sum : Sum) (differs : c ≠ 0) : (sum.scale c).entries.isEmpty = sum.entries.isEmpty := by
  rw [LinearForm.entries_scale sum differs, List.isEmpty_map]

theorem normalized_eq (nonempty : coefficients sum ≠ [])
    : (normalizeGCDLCM sum false).1 = sum.scale (content (coefficients sum))⁻¹ := by
  rw [normalizeGCDLCM_eq nonempty]
  simp [sign]

theorem content_scale (nonempty : coefficients sum ≠ []) (differs : c ≠ 0)
    : content (coefficients (sum.scale c)) = content (coefficients sum) * |c| := by
  obtain ⟨r, member⟩ := List.exists_mem_of_ne_nil _ nonempty
  rw [coefficients_scale sum differs,
    content_map_mul (coefficients sum) ⟨r, member, nonzero_of_mem_coefficients member⟩ differs]

/-- Normalising keeps the sign. -/
theorem normalized_scale (sum : Sum) (isSign : c = 1 ∨ c = -1)
    : (normalizeGCDLCM (sum.scale c) false).1 = (normalizeGCDLCM sum false).1.scale c := by
  have differs : c ≠ 0 := by rcases isSign with rfl | rfl <;> decide
  have isUnit : |c| = 1 := by rcases isSign with rfl | rfl <;> simp
  have sameNil : coefficients (sum.scale c) = [] ↔ coefficients sum = [] := by
    rw [coefficients_scale sum differs, List.map_eq_nil_iff]
  by_cases isNil : coefficients sum = []
  · rw [normalizeGCDLCM_nil isNil, normalizeGCDLCM_nil (sameNil.mpr isNil)]
  · rw [normalized_eq isNil, normalized_eq (mt sameNil.mp isNil), content_scale isNil differs, isUnit, mul_one,
      LinearForm.scale_scale, LinearForm.scale_scale, mul_comm]

/-- Normalised sums are left as they are. -/
theorem normalized_normalized (sum : Sum)
    : (normalizeGCDLCM (normalizeGCDLCM sum false).1 false).1 = (normalizeGCDLCM sum false).1 := by
  by_cases isNil : coefficients sum = []
  · rw [normalizeGCDLCM_nil isNil, normalizeGCDLCM_nil isNil]
  · have positive := content_coefficients_pos isNil
    have differs : (content (coefficients sum))⁻¹ ≠ 0 := inv_ne_zero positive.ne'
    have notNil : coefficients (sum.scale (content (coefficients sum))⁻¹) ≠ [] := by
      rw [coefficients_scale sum differs]
      exact mt List.map_eq_nil_iff.mp isNil
    rw [normalized_eq isNil, normalized_eq notNil, content_scale isNil differs, abs_of_pos (inv_pos.mpr positive),
      mul_inv_cancel₀ positive.ne', inv_one, LinearForm.scale_one]

theorem normalized_flat (flat : FlatKeys sum) : FlatKeys (normalizeGCDLCM sum false).1 := by
  obtain ⟨c, -, isScaled, -⟩ := normalizeGCDLCM_spec sum false
  rw [isScaled]
  exact flat.scale c

theorem normalized_isIntegral (sum : Sum) : isIntegral (normalizeGCDLCM sum false).1 = isIntegral sum := by
  obtain ⟨c, differs, isScaled, -⟩ := normalizeGCDLCM_spec sum false
  rw [isScaled, isIntegral_scale sum differs]

theorem normalized_isEmpty (sum : Sum) : (normalizeGCDLCM sum false).1.entries.isEmpty = sum.entries.isEmpty := by
  obtain ⟨c, differs, isScaled, -⟩ := normalizeGCDLCM_spec sum false
  rw [isScaled, isEmpty_scale sum differs]

theorem normalized_den (sum : Sum) {s : Monomial × Rat} (member : s ∈ (normalizeGCDLCM sum false).1.entries)
    (notConst : s.1.node.isConst = false)
    : s.2.den = 1 := by
  obtain ⟨c, differs, isScaled, -, coprime⟩ := normalizeGCDLCM_spec sum false
  rw [isScaled] at member
  exact coprime s.2 (mem_coefficients.mpr ⟨s.1, member, notConst⟩)

end Scaled

-- The sides of normal forms

/-- A side of an equality between real terms. -/
def castSide (isReal : Bool) (t : Node) : Node := if isReal then ensureReal t else t

section Sides

variable {t : Node} {multiplicity : Rat} {m : Monomial}

theorem removeToReal_of_kind (notCast : t.getKind ≠ .toReal) : removeToReal t = t := by
  unfold removeToReal
  split
  · exact absurd rfl notCast
  · rfl

theorem removeToReal_castSide (isReal : Bool) (notConst : t.getConst = none) (notCast : t.getKind ≠ .toReal)
    : removeToReal (castSide isReal t) = t := by
  unfold castSide
  split
  · unfold ensureReal
    split
    · rw [notConst]
      rfl
    · exact removeToReal_of_kind notCast
  · exact removeToReal_of_kind notCast

theorem getConst_castSide (isReal : Bool) (notConst : t.getConst = none) : (castSide isReal t).getConst = none := by
  unfold castSide
  split
  · unfold ensureReal
    split
    · rw [notConst]
      rfl
    · exact notConst
  · exact notConst

theorem getType_castSide (isReal : Bool) (notConst : t.getConst = none) (isInt : t.getType = .int)
    : decide ((castSide isReal t).getType = .real) = isReal := by
  unfold castSide
  split
  · next isTrue =>
      rw [isTrue, ensureReal, if_pos isInt, notConst]
      rfl
  · next isFalse => simp [isInt, Bool.not_eq_true _ ▸ isFalse]

theorem getConst_mkMultTerm (notConst : m.node.isConst = false) (multiplicity : Rat)
    : (mkMultTerm multiplicity m.node).getConst = none := by
  have none : m.node.getConst = none := by simpa [Node.isConst] using notConst
  unfold mkMultTerm
  rw [none]
  simp only
  split
  · exact none
  · rfl

theorem getType_mkMultTerm (notConst : m.node.isConst = false) (isInt : m.node.getType = .int)
    (integral : multiplicity.den = 1)
    : (mkMultTerm multiplicity m.node).getType = .int := by
  have none : m.node.getConst = none := by simpa [Node.isConst] using notConst
  unfold mkMultTerm
  rw [none]
  simp only
  split
  · exact isInt
  · rw [getType_mkNode, mkConst, if_pos integral]
    refine if_pos ?_
    simp [isInt, Node.getType]

theorem buildRelation_of_left {left right : Node} (notConst : left.getConst = none) (k : Kind)
    : buildRelation k left right false = mkNode k [left, right] := by
  unfold buildRelation tryEvaluateRelation
  rw [notConst]
  rfl

variable [LinearOrder Node] {sum : Sum}

theorem sumOf_removeToReal_castSide (isReal : Bool) (notCast : t.getKind ≠ .toReal)
    : sumOf (removeToReal (castSide isReal t)) = sumOf t := by
  cases isConst : t.getConst with
  | none => rw [removeToReal_castSide isReal isConst notCast]
  | some r =>
      unfold castSide
      split
      · unfold ensureReal
        split
        · next isInt =>
            rw [isConst]
            match t with
            | .constInteger z =>
                cases isConst
                rfl
            | .constRational _ => cases isInt
        · rw [removeToReal_of_kind notCast]
      · rw [removeToReal_of_kind notCast]

theorem getKind_collectSum (flat : FlatKeys sum) : (collectSum sum).getKind ≠ .toReal := by
  have each : ∀ n ∈ sum.entries.map (fun m => mkMultTerm m.2 m.1.node), n.getKind ≠ .toReal := by
    intro n member
    obtain ⟨s, inSum, rfl⟩ := List.mem_map.mp member
    exact (getKind_mkMultTerm s.2 (flat.of_mem inSum)).2
  unfold collectSum
  generalize sum.entries.map (fun m => mkMultTerm m.2 m.1.node) = nodes at each
  match nodes with
  | [] => exact (getKind_mkConst 0).2
  | [n] => exact each n List.mem_cons_self
  | _ :: _ :: _ => exact nofun

/-- The difference of the sides of a normal form. -/
theorem difference_castSide (isReal : Bool) {rest : Sum} (multiplicity : Rat) (flat : m.Flat)
    (restFlat : FlatKeys rest) (key : Monomial)
    : (addToSum (addToSum .empty false (removeToReal (castSide isReal (mkMultTerm multiplicity m.node)))) true
        (removeToReal (castSide isReal (collectSum rest)))).coefficient key
      = (if key = m then multiplicity else 0) - rest.coefficient key := by
  have difference := coefficient_difference (removeToReal (castSide isReal (mkMultTerm multiplicity m.node)))
    (removeToReal (castSide isReal (collectSum rest))) false key
  rw [Bool.not_false] at difference
  rw [difference, sumOf_removeToReal_castSide isReal (getKind_mkMultTerm multiplicity flat).2,
    sumOf_removeToReal_castSide isReal (getKind_collectSum restFlat), coefficient_sumOf_mkMultTerm multiplicity flat,
    sumOf_collectSum restFlat, sign, if_neg (by decide), one_mul]

end Sides

-- Integer equalities

theorem sign_cases (negate : Bool) : sign negate = 1 ∨ sign negate = -1 := by
  cases negate
  · exact Or.inl rfl
  · exact Or.inr rfl

theorem mul_sign (r : Rat) : r * sign (decide (r < 0)) = |r| := by
  by_cases negative : r < 0
  · simp [sign, negative, abs_of_neg negative]
  · simp [sign, negative, abs_of_nonneg (not_lt.mp negative)]

section Integer

variable [LinearOrder Node] {sum : Sum} {m : Monomial} {r : Rat}

/-- The summand that goes to the left side of the normal form. -/
structure IntegerNormal (sum : Sum) (m : Monomial) (r : Rat) : Prop where
  nonempty : sum.entries.isEmpty = false
  noFraction : hasFraction (normalizeGCDLCM sum false).1 = false
  notConst : m.node.isConst = false
  member : (m, r) ∈ (normalizeGCDLCM sum false).1.entries
  removed : removeMinAbsCoeff (normalizeGCDLCM sum false).1 = ((m, r), (normalizeGCDLCM sum false).1.erase m)

/-- The normal form of an equality with zero. -/
def integerNormalForm (normalized : Sum) (m : Monomial) (r : Rat) (isReal : Bool) : Node :=
  mkNode .equal [castSide isReal (mkMultTerm |r| m.node),
    castSide isReal (collectSum ((normalized.erase m).scale (-sign (decide (r < 0)))))]

theorem IntegerNormal.nonzero (normal : IntegerNormal sum m r) : r ≠ 0 := (LinearForm.mem_entries.mp normal.member).2

theorem buildIntegerEquality_of (normal : IntegerNormal sum m r) (isReal : Bool)
    : buildIntegerEquality sum isReal
      = (integerNormalForm (normalizeGCDLCM sum false).1 m r isReal, decide (r < 0)) := by
  have left : (if decide (r < 0) then -r else r) = |r| := by
    by_cases negative : r < 0
    · simp [negative, abs_of_neg negative]
    · simp [negative, abs_of_nonneg (not_lt.mp negative)]
  have right (rest : Sum)
      : (if decide (r < 0) then rest else rest.scale (-1)) = rest.scale (-sign (decide (r < 0))) := by
    by_cases negative : r < 0 <;> simp [negative, sign]
  have notConst := getConst_castSide isReal (getConst_mkMultTerm normal.notConst |r|)
  unfold buildIntegerEquality
  rw [normal.nonempty]
  simp only [Bool.false_eq_true, if_false, normal.noFraction, normal.removed, left, right]
  cases isReal with
  | true =>
      rw [if_pos rfl]
      exact congrArg (·, decide (r < 0)) (buildRelation_of_left notConst .equal)
  | false =>
      rw [if_neg (by decide)]
      exact congrArg (·, decide (r < 0)) (buildRelation_of_left notConst .equal)

theorem entries_of_getLTermIt_nil (flat : FlatKeys sum) (isNil : getLTermIt sum = [])
    : ∀ s ∈ sum.entries, s.1.node.isConst = true := by
  intro s member
  by_contra notConst
  have leading := (mem_getLTermIt flat).mpr ⟨member, Bool.not_eq_true _ ▸ notConst⟩
  rw [isNil] at leading
  cases leading

/-- The term of a sum without other summands is a constant. -/
theorem getConst_collectSum (flat : FlatKeys sum) (constant : ∀ s ∈ sum.entries, s.1.node.isConst = true)
    : ∃ value, (collectSum sum).getConst = some value := by
  unfold collectSum
  match entries : sum.entries with
  | [] => exact ⟨0, getConst_mkConst 0⟩
  | [s] =>
      have isConst := constant s (entries ▸ List.mem_cons_self)
      obtain ⟨value, isValue⟩ := Option.isSome_iff_exists.mp isConst
      refine ⟨s.2 * value, ?_⟩
      change (mkMultTerm s.2 s.1.node).getConst = _
      unfold mkMultTerm
      rw [isValue]
      exact getConst_mkConst _
  | s :: s' :: rest =>
      have notConst := isConst_of_mem_rest flat entries List.mem_cons_self
      rw [constant s' (entries ▸ by simp)] at notConst
      cases notConst

omit [LinearOrder Node] in
theorem buildRelation_const (isReal : Bool) {left right : Node} {l r : Rat} (isLeft : left.getConst = some l)
    (isRight : right.getConst = some r)
    : ∃ b, buildRelation .equal (castSide isReal left) (castSide isReal right) false = .constBoolean b := by
  have cast {t : Node} {c : Rat} (isConst : t.getConst = some c) : (castSide isReal t).getConst = some c := by
    unfold castSide
    split
    · unfold ensureReal
      split
      · rw [isConst]
        rfl
      · exact isConst
    · exact isConst
  unfold buildRelation tryEvaluateRelation
  rw [cast isLeft, cast isRight]
  exact ⟨_, rfl⟩

/-- An equality with zero is a constant, or has a summand for the left side. -/
theorem buildIntegerEquality_cases (flat : FlatKeys sum) (isReal : Bool)
    : (∃ b, buildIntegerEquality sum isReal = (.constBoolean b, false)) ∨ ∃ m r, IntegerNormal sum m r := by
  have normalizedFlat := normalized_flat flat
  cases isEmpty : sum.entries.isEmpty with
  | true =>
      refine Or.inl ⟨true, ?_⟩
      unfold buildIntegerEquality
      rw [isEmpty]
      rfl
  | false =>
      cases fraction : hasFraction (normalizeGCDLCM sum false).1 with
      | true =>
          refine Or.inl ⟨false, ?_⟩
          unfold buildIntegerEquality
          rw [isEmpty]
          simp only [fraction, Bool.false_eq_true, if_false, if_true]
      | false =>
          rcases removeMinAbsCoeff_spec normalizedFlat with ⟨isNil, removed⟩ | ⟨s, member, notConst, removed⟩
          · have constant := entries_of_getLTermIt_nil normalizedFlat isNil
            have scaledConstant
                : ∀ s ∈ ((normalizeGCDLCM sum false).1.scale (-1)).entries, s.1.node.isConst = true := by
              intro s member
              rw [LinearForm.entries_scale _ (by decide)] at member
              obtain ⟨old, isOld, rfl⟩ := List.mem_map.mp member
              exact constant old isOld
            obtain ⟨value, isValue⟩ := getConst_collectSum (normalizedFlat.scale (-1)) scaledConstant
            have isZero : (mkMultTerm 0 (.constInteger 1)).getConst = some 0 := by
              change (mkConst (0 * ((1 : Int) : Rat))).getConst = some 0
              rw [zero_mul, getConst_mkConst]
            obtain ⟨b, isConst⟩ := buildRelation_const isReal isZero isValue
            refine Or.inl ⟨b, ?_⟩
            unfold buildIntegerEquality
            rw [isEmpty]
            simp only [Bool.false_eq_true, if_false, fraction, removed, lt_irrefl, decide_false]
            cases isReal with
            | true => exact congrArg (·, false) isConst
            | false => exact congrArg (·, false) isConst
          · exact Or.inr ⟨s.1, s.2, isEmpty, fraction, notConst, member, removed⟩

theorem IntegerNormal.scale (normal : IntegerNormal sum m r) {c : Rat} (isSign : c = 1 ∨ c = -1)
    : IntegerNormal (sum.scale c) m (r * c) := by
  have differs : c ≠ 0 := by rcases isSign with rfl | rfl <;> decide
  refine ⟨?_, ?_, normal.notConst, ?_, ?_⟩
  · rw [isEmpty_scale sum differs]
    exact normal.nonempty
  · rw [normalized_scale sum isSign, hasFraction_scale _ isSign]
    exact normal.noFraction
  · rw [normalized_scale sum isSign, LinearForm.entries_scale _ differs]
    exact List.mem_map.mpr ⟨(m, r), normal.member, rfl⟩
  · rw [normalized_scale sum isSign, removeMinAbsCoeff_scale _ differs, normal.removed, LinearForm.erase_scale]

theorem IntegerNormal.normalized (normal : IntegerNormal sum m r)
    : IntegerNormal (normalizeGCDLCM sum false).1 m r := by
  refine ⟨?_, ?_, normal.notConst, ?_, ?_⟩
  · rw [normalized_isEmpty]
    exact normal.nonempty
  · rw [normalized_normalized]
    exact normal.noFraction
  · rw [normalized_normalized]
    exact normal.member
  · rw [normalized_normalized]
    exact normal.removed

/-- The sum of the normal form is the normalised sum, up to the sign. -/
theorem difference_integerNormalForm (flat : FlatKeys sum) (normal : IntegerNormal sum m r) (isReal : Bool)
    : addToSum (addToSum .empty false (removeToReal (castSide isReal (mkMultTerm |r| m.node)))) true
        (removeToReal (castSide isReal
          (collectSum (((normalizeGCDLCM sum false).1.erase m).scale (-sign (decide (r < 0)))))))
      = (normalizeGCDLCM sum false).1.scale (sign (decide (r < 0))) := by
  have normalizedFlat := normalized_flat flat
  refine LinearForm.ext (fun key => ?_)
  rw [difference_castSide isReal |r| (normalizedFlat.of_mem normal.member) ((normalizedFlat.erase m).scale _),
    LinearForm.coefficient_scale, LinearForm.coefficient_scale, LinearForm.coefficient_erase]
  split
  · next isKey => rw [isKey, LinearForm.coefficient_of_mem normal.member, mul_sign, zero_mul, sub_zero]
  · rw [zero_sub, mul_neg, neg_neg]

/-- The second run takes the same summand, and the sides are not exchanged. -/
theorem buildIntegerEquality_again (normal : IntegerNormal sum m r) (isReal : Bool)
    : buildIntegerEquality ((normalizeGCDLCM sum false).1.scale (sign (decide (r < 0)))) isReal
      = (integerNormalForm (normalizeGCDLCM sum false).1 m r isReal, false) := by
  have isSign := sign_cases (decide (r < 0))
  have again := normal.normalized.scale isSign
  have notNegative : decide (|r| < 0) = false := decide_eq_false (not_lt.mpr (abs_nonneg r))
  rw [mul_sign] at again
  rw [buildIntegerEquality_of again isReal, notNegative, normalized_scale _ isSign, normalized_normalized,
    integerNormalForm, integerNormalForm, abs_abs, notNegative, LinearForm.erase_scale, LinearForm.scale_scale]
  simp [sign]

end Integer

-- Real equalities

section Real

variable {m : Monomial}

theorem isIntegralNode_of_getType {n : Node} (isLeaf : n.isLeaf = true) (isInt : n.getType = .int)
    : isIntegralNode n = true := by
  obtain ⟨notConst, kind, -⟩ := Node.isLeaf_iff.mp isLeaf
  match n with
  | .constInteger _ => cases notConst
  | .constRational _ => cases notConst
  | .var _ _ => exact beq_iff_eq.mpr isInt
  | .term _ _ => exact beq_iff_eq.mpr isInt
  | .constBoolean _ => cases isInt
  | .constBitVector _ _ => cases isInt
  | .apply k children =>
      have notArithmetic : ¬(k = .add ∨ k = .neg ∨ k = .sub ∨ k = .mult ∨ k = .nonlinearMult) := by
        rintro (rfl | rfl | rfl | rfl | rfl) <;> cases kind
      rw [isIntegralNode, if_neg notArithmetic]
      exact beq_iff_eq.mpr isInt

theorem areIntegral_of_forall {nodes : List Node} (integral : ∀ n ∈ nodes, isIntegralNode n = true)
    : areIntegralNodes (.ofList nodes) = true := by
  induction nodes with
  | nil => rfl
  | cons n rest ih =>
      obtain ⟨first, others⟩ := List.forall_mem_cons.mp integral
      exact Bool.and_eq_true_iff.mpr ⟨first, ih others⟩

/-- Products of leaves of type Int are integral. -/
theorem Monomial.Flat.isIntegralNode (flat : m.Flat) (isInt : m.node.getType = .int)
    : isIntegralNode m.node = true := by
  obtain ⟨factors, leaves, isProduct⟩ := flat
  rw [isProduct] at isInt ⊢
  match factors with
  | [] => rfl
  | [n] => exact isIntegralNode_of_getType (leaves n List.mem_cons_self) isInt
  | first :: second :: rest =>
      change Rewriter.isIntegralNode (mkNode .nonlinearMult _) = true
      change (mkNode .nonlinearMult _).getType = .int at isInt
      rw [getType_mkNode] at isInt
      have all : ((first :: second :: rest).map Node.getType).all (· == .int) = true := by
        by_contra mixed
        exact nomatch (if_neg mixed).symm.trans isInt
      rw [mkNode, Rewriter.isIntegralNode, if_pos (by simp)]
      refine areIntegral_of_forall (fun n isFactor => isIntegralNode_of_getType (leaves n isFactor) ?_)
      exact beq_iff_eq.mp (List.all_eq_true.mp all _ (List.mem_map_of_mem isFactor))

variable [LinearOrder Node] {sum : Sum} {r : Rat}

/-- The leading term of a sum that is not integral is real. -/
theorem removeLTerm_real (flat : FlatKeys sum) (notIntegral : isIntegral sum = false)
    : ∃ s ∈ sum.entries, s.1.node.isConst = false ∧ s.1.node.getType ≠ .int
      ∧ removeLTerm sum = (s, sum.erase s.1) := by
  obtain ⟨other, inSum, real⟩ := List.all_eq_false.mp notIntegral
  have notInt : other.1.node.getType ≠ .int := fun isInt => real ((flat.of_mem inSum).isIntegralNode isInt)
  have notConst : other.1.node.isConst = false := by
    by_contra isConst
    rw [Bool.not_eq_false] at isConst
    rw [(flat.of_mem inSum).eq_one isConst] at notInt
    exact notInt rfl
  have leading := (mem_getLTermIt flat).mpr ⟨inSum, notConst⟩
  rcases removeLTerm_spec flat with ⟨isNil, -⟩ | ⟨s, member, sNotConst, removed⟩
  · rw [isNil] at leading
    cases leading
  · refine ⟨s, member, sNotConst, ?_, removed⟩
    have first : ∃ rest, getLTermIt sum = s :: rest := by
      unfold removeLTerm at removed
      split at removed
      · next isNil =>
          rw [isNil] at leading
          cases leading
      · next rest entries => exact ⟨rest, entries.trans (congrArg (· :: rest) (congrArg Prod.fst removed))⟩
    obtain ⟨rest, entries⟩ := first
    have sorted : (getLTermIt sum).Pairwise (fun first second => first.1 < second.1) := by
      have all := entries_sorted sum
      unfold getLTermIt
      split
      · exact List.Pairwise.nil
      · next front tail isEntries =>
          rw [isEntries] at all
          split
          · exact (List.pairwise_cons.mp all).2
          · exact all
    rw [entries] at leading sorted
    rcases List.mem_cons.mp leading with rfl | later
    · exact notInt
    · exact Monomial.getType_of_lt ((List.pairwise_cons.mp sorted).1 other later) (sNotConst.trans notConst.symm) notInt

/-- The normal form of an equality with zero, from the leading term. -/
def realNormalForm (sum : Sum) (m : Monomial) (r : Rat) : Node :=
  mkNode .equal [castSide true m.node, castSide true (collectSum ((sum.erase m).scale (-r)⁻¹))]

theorem buildRealEquality_of {s : Monomial × Rat} (removed : removeLTerm sum = (s, sum.erase s.1))
    (nonzero : s.2 ≠ 0) (notConst : s.1.node.isConst = false)
    : buildRealEquality sum = (realNormalForm sum s.1 s.2, decide (s.2 < 0)) := by
  have none : s.1.node.getConst = none := by simpa [Node.isConst] using notConst
  unfold buildRealEquality
  rw [removed]
  simp only [if_neg nonzero]
  exact congrArg (·, decide (s.2 < 0)) (buildRelation_of_left (getConst_castSide true none) .equal)

omit [LinearOrder Node] in
theorem mkMultTerm_one (notConst : m.node.isConst = false) : mkMultTerm 1 m.node = m.node := by
  have none : m.node.getConst = none := by simpa [Node.isConst] using notConst
  unfold mkMultTerm
  rw [none]
  rfl

/-- The sum of the normal form is a multiple of the sum. -/
theorem difference_realNormalForm (flat : FlatKeys sum) {s : Monomial × Rat} (member : s ∈ sum.entries)
    (notConst : s.1.node.isConst = false)
    : addToSum (addToSum .empty false (removeToReal (castSide true s.1.node))) true
        (removeToReal (castSide true (collectSum ((sum.erase s.1).scale (-s.2)⁻¹))))
      = sum.scale s.2⁻¹ := by
  have nonzero : s.2 ≠ 0 := (LinearForm.mem_entries.mp member).2
  refine LinearForm.ext (fun key => ?_)
  have difference := difference_castSide true 1 (flat.of_mem member) ((flat.erase s.1).scale (-s.2)⁻¹) key
  rw [mkMultTerm_one notConst] at difference
  rw [difference, LinearForm.coefficient_scale, LinearForm.coefficient_scale, LinearForm.coefficient_erase]
  split
  · next isKey => rw [isKey, LinearForm.coefficient_of_mem member, mul_inv_cancel₀ nonzero, zero_mul, sub_zero]
  · rw [inv_neg, zero_sub, mul_neg, neg_neg]

theorem buildRealEquality_again {s : Monomial × Rat} (removed : removeLTerm sum = (s, sum.erase s.1))
    (nonzero : s.2 ≠ 0) (notConst : s.1.node.isConst = false)
    : buildRealEquality (sum.scale s.2⁻¹) = (realNormalForm sum s.1 s.2, false) := by
  have again : removeLTerm (sum.scale s.2⁻¹) = ((s.1, 1), (sum.scale s.2⁻¹).erase (s.1, (1 : Rat)).1) := by
    rw [removeLTerm_scale sum (inv_ne_zero nonzero), removed, LinearForm.erase_scale]
    simp [nonzero]
  rw [buildRealEquality_of again one_ne_zero notConst, realNormalForm, realNormalForm, LinearForm.erase_scale,
    LinearForm.scale_scale, inv_neg, inv_neg, inv_one, mul_neg, mul_one]
  rfl

end Real

end Ava6.Arith.Rewriter

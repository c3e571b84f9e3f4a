import Ava6.Arith.NodeTypes
import Ava6.Arith.ProofChecker
import Mathlib.Tactic.Linarith
import Mathlib.Algebra.Order.Floor.Ring

/-! Soundness of the arithmetic proof rules. -/

namespace Ava6.Arith

variable {types : List TypeNode} {k : Kind}

/-- What a literal of the kind says about the numbers on its two sides. -/
def Kind.Relates : Kind → ℝ → ℝ → Prop
  | .lt, a, b => a < b
  | .leq, a, b => a ≤ b
  | .gt, a, b => b < a
  | .geq, a, b => b ≤ a
  | .equal, a, b => a = b
  | _, _, _ => True

/-- The number a node denotes. -/
noncomputable def Node.toReal (I : Interpretation) (n : Node) : ℝ := (n.eval I).toReal

variable {I : Interpretation} {left right : Node}

/-- A true literal relates the numbers of its sides. -/
theorem satisfies_relates {child : Node}
    (first : child.first = some left) (second : child.second = some right)
    (holds : I.Satisfies child)
    : child.getKind.Relates (left.toReal I) (right.toReal I) := by
  match child, first, second, holds with
  | .apply k (.cons a (.cons b rest)), first, second, holds =>
    simp only [Node.first, Node.second, Option.some.injEq] at first second
    subst first second
    cases rest with
    | nil =>
      cases k <;> simp_all [Interpretation.Satisfies, Node.eval, Nodes.eval, Kind.apply,
        Value.IsTrue, Kind.Relates, Node.getKind, Node.toReal]
    | cons c rest =>
      cases k <;> simp_all [Interpretation.Satisfies, Node.eval, Nodes.eval, Kind.apply,
        Value.IsTrue, Kind.Relates, Node.getKind]

@[simp]
theorem toReal_add (I : Interpretation) (children : List Node)
    : (mkNode .add children).toReal I = (children.map (Node.toReal I)).sum := by
  rw [Node.toReal, eval_mkNode, Kind.apply, List.map_map]
  rfl

/-- A literal over two nodes holds when their numbers are related; an equation may hold for
other values too. -/
theorem satisfies_mkNode_iff (I : Interpretation) (a b : Node)
    (order : k = .lt ∨ k = .leq ∨ k = .gt ∨ k = .geq)
    : I.Satisfies (mkNode k [a, b]) ↔ k.Relates (a.toReal I) (b.toReal I) := by
  rw [Interpretation.Satisfies, eval_mkNode]
  rcases order with rfl | rfl | rfl | rfl <;> rfl

@[simp]
theorem toReal_mult (I : Interpretation) (a b : Node)
    : (mkNode .mult [a, b]).toReal I = a.toReal I * b.toReal I := by
  simp [Node.toReal, Kind.apply, Value.toReal]

variable {n : Node} {q : Rat}

/-- A constant denotes its value. -/
theorem toReal_of_getConst (I : Interpretation) (value : n.getConst = some q)
    : n.toReal I = q := by
  cases n <;> simp_all [Node.getConst, Node.toReal, Node.eval, Value.toReal]
  simp [← value]

theorem toReal_scaled (I : Interpretation) {arg : Node} (value : arg.getConst = some q)
    (n : Node)
    : (scaled arg q n).toReal I = q * n.toReal I := by
  unfold scaled
  split
  · next one => simp [one]
  · rw [toReal_mult, toReal_of_getConst I value]

-- Sums of upper bounds

/-- The left sum is at most the right one, and below it when a summand is strict. -/
def SumBound (I : Interpretation) (sums : Bool × List Node × List Node) : Prop :=
  (sums.2.1.map (Node.toReal I)).sum ≤ (sums.2.2.map (Node.toReal I)).sum
    ∧ (sums.1 = true → (sums.2.1.map (Node.toReal I)).sum < (sums.2.2.map (Node.toReal I)).sum)

variable {sums : Bool × List Node × List Node}

theorem mkSumRelation_sound
    (bound : SumBound I sums)
    : I.Satisfies (mkSumRelation sums) := by
  obtain ⟨strict, leftSum, rightSum⟩ := sums
  cases strict with
  | false =>
    refine (satisfies_mkNode_iff I _ _ (by simp)).mpr ?_
    rw [toReal_add, toReal_add]
    exact bound.1
  | true =>
    refine (satisfies_mkNode_iff I _ _ (by simp)).mpr ?_
    rw [toReal_add, toReal_add]
    exact bound.2 rfl

/-- One more summand keeps the bound. -/
theorem SumBound.cons {strict : Bool}
    (bound : SumBound I sums)
    (le : left.toReal I ≤ right.toReal I) (less : strict = true → left.toReal I < right.toReal I)
    : SumBound I (strict || sums.1, left :: sums.2.1, right :: sums.2.2) := by
  obtain ⟨sumLe, sumLess⟩ := bound
  refine ⟨?_, ?_⟩
  · simpa only [List.map_cons, List.sum_cons] using add_le_add le sumLe
  · intro someStrict
    simp only [List.map_cons, List.sum_cons]
    rcases Bool.or_eq_true_iff.mp someStrict with here | later
    · exact add_lt_add_of_lt_of_le (less here) sumLe
    · exact add_lt_add_of_le_of_lt le (sumLess later)

variable {children : List Node}

/-- The loop over upper bounds, by induction on the children. -/
theorem sumUbLoop_sound
    (result : sumUbLoop children = some sums)
    (holds : ∀ child ∈ children, I.Satisfies child)
    : SumBound I sums := by
  induction children generalizing sums with
  | nil =>
    simp only [sumUbLoop, Option.some.injEq] at result
    subst result
    exact ⟨le_refl _, by simp⟩
  | cons child rest ih =>
    simp only [sumUbLoop, Option.ite_none_left_eq_some, Option.bind_eq_bind,
      Option.bind_eq_some_iff, Option.some.injEq] at result
    obtain ⟨kind, left, first, right, second, tail, loop, rfl⟩ := result
    have related := satisfies_relates first second (holds child (by simp))
    have bound := ih loop (fun c member => holds c (by simp [member]))
    refine bound.cons ?_ ?_
    · rcases not_and_or.mp kind with lt | other
      · rw [not_not] at lt
        rw [lt] at related
        exact related.le
      · rcases not_and_or.mp other with leq | equal
        · rw [not_not] at leq
          rw [leq] at related
          exact related
        · rw [not_not] at equal
          rw [equal] at related
          exact le_of_eq related
    · intro strict
      rw [beq_iff_eq] at strict
      rw [strict] at related
      exact related

/-- Scaling a literal by a factor of the accepted sign gives an upper bound. -/
theorem scaled_bound (relation : k.isRelation = true) (nonzero : q ≠ 0)
    (sign : wrongSign k q = false) {a b : ℝ} (related : k.Relates a b)
    : q * a ≤ q * b ∧ ((k == .gt || k == .lt) = true → q * a < q * b) := by
  have up (positive : 0 < q) (less : a < b) : (q : ℝ) * a < q * b :=
    mul_lt_mul_of_pos_left less (by exact_mod_cast positive)
  have down (negative : q < 0) (less : b < a) : (q : ℝ) * a < q * b :=
    mul_lt_mul_of_neg_left less (by exact_mod_cast negative)
  cases k <;> simp only [Kind.isRelation, Bool.false_eq_true] at relation <;>
    simp only [wrongSign, decide_eq_false_iff_not, not_lt] at sign
  case lt =>
    have less := up (lt_of_le_of_ne sign (Ne.symm nonzero)) related
    exact ⟨less.le, fun _ => less⟩
  case leq =>
    exact ⟨mul_le_mul_of_nonneg_left related (by exact_mod_cast sign), by simp⟩
  case gt =>
    have less := down (lt_of_le_of_ne sign nonzero) related
    exact ⟨less.le, fun _ => less⟩
  case geq =>
    exact ⟨mul_le_mul_of_nonpos_left related (by exact_mod_cast sign), by simp⟩
  case equal =>
    have same : a = b := related
    exact ⟨by rw [same], by simp⟩

variable {args : List Node}

/-- The loop over scaled literals, by induction on the children, as long as every child is
one of the five relations. -/
theorem scaleSumUbLoop_sound
    (result : scaleSumUbLoop children args = some sums)
    (relations : ∀ child ∈ children, child.getKind.isRelation = true)
    (holds : ∀ child ∈ children, I.Satisfies child)
    : SumBound I sums := by
  induction children generalizing args sums with
  | nil =>
    cases args with
    | nil =>
      simp only [scaleSumUbLoop, Option.some.injEq] at result
      subst result
      exact ⟨le_refl _, by simp⟩
    | cons arg args => simp [scaleSumUbLoop] at result
  | cons child rest ih =>
    cases args with
    | nil => simp [scaleSumUbLoop] at result
    | cons arg args =>
      simp only [scaleSumUbLoop, Option.bind_eq_bind, Option.bind_eq_some_iff,
        Option.ite_none_left_eq_some, Option.some.injEq, not_or, Bool.not_eq_true] at result
      obtain ⟨scalar, value, left, first, right, second, ⟨nonzero, _, sign⟩, tail, loop, rfl⟩ :=
        result
      have related := satisfies_relates first second (holds child (by simp))
      have bound := scaled_bound (relations child (by simp)) nonzero sign related
      have rest := ih loop (fun c member => relations c (by simp [member]))
        (fun c member => holds c (by simp [member]))
      refine rest.cons ?_ ?_
      · rw [toReal_scaled I value, toReal_scaled I value]
        exact bound.1
      · intro strict
        rw [toReal_scaled I value, toReal_scaled I value]
        exact bound.2 strict

-- Integer tightening

/-- A node of integer sort denotes an integer. -/
theorem toReal_int (I : Interpretation) (typed : n.getType = some .int)
    : ∃ z : Int, n.toReal I = z := by
  have sort := n.getType_sound I typed
  rw [Node.toReal]
  cases value : n.eval I <;> rw [value] at sort <;> simp_all [Value.HasType, Value.toReal]

@[simp]
theorem toReal_constInteger (I : Interpretation) (z : Int) : (Node.constInteger z).toReal I = z :=
  rfl

/-- Above a bound the integers start at its floor plus one; at a bound that is not an
integer, or strictly above it. -/
theorem leastIntGreaterThan_le {z : Int}
    (above : (q : ℝ) < z ∨ (q : ℝ) ≤ z ∧ q.isInt = false)
    : leastIntGreaterThan q ≤ z := by
  unfold leastIntGreaterThan
  rw [Int.add_one_le_iff, Int.floor_lt]
  rcases above with less | ⟨le, fraction⟩
  · exact_mod_cast less
  · refine lt_of_le_of_ne (by exact_mod_cast le) fun equal => ?_
    simp [equal, Rat.isInt] at fraction

theorem le_greatestIntLessThan {z : Int}
    (below : (z : ℝ) < q ∨ (z : ℝ) ≤ q ∧ q.isInt = false)
    : z ≤ greatestIntLessThan q := by
  unfold greatestIntLessThan
  rw [Int.le_sub_one_iff, Int.lt_ceil]
  rcases below with less | ⟨le, fraction⟩
  · exact_mod_cast less
  · refine lt_of_le_of_ne (by exact_mod_cast le) fun equal => ?_
    simp [← equal, Rat.isInt] at fraction

variable {r : Node}

/-- What the tightening rules read from a child they accept. -/
theorem checkTight_cases {strict nonstrict : Kind} {bound : Rat → Int}
    (result : checkTight strict nonstrict bound children = some r)
    : ∃ child left right q, children = [child] ∧ child.first = some left
      ∧ child.second = some right ∧ right.getConst = some q ∧ left.getType = some .int
      ∧ (child.getKind = strict ∨ child.getKind = nonstrict)
      ∧ r = mkNode nonstrict [left, .constInteger (bound q)] := by
  match children, result with
  | [child], result =>
    simp only [checkTight, Option.bind_eq_bind, Option.bind_eq_some_iff,
      Option.ite_none_left_eq_some, Option.some.injEq] at result
    obtain ⟨left, first, right, second, accepted, q, value, rfl⟩ := result
    rw [not_or, not_and_or, not_not, not_not, not_not] at accepted
    exact ⟨child, left, right, q, rfl, first, second, value, accepted.2, accepted.1, rfl⟩

/-- The second side of a literal, when it is a constant. -/
def Node.bound (n : Node) : Option Rat := n.second.bind Node.getConst

/-- A literal that tightening may move: a strict one, or one whose bound is no integer. -/
def Tightenable (child : Node) : Prop :=
  child.getKind = .gt ∨ child.getKind = .lt ∨ ∀ q, child.bound = some q → q.isInt = false

/-- Tightening is sound where the integers in the strict relation to a bound, and those in the other relation to a bound
that is no integer, are in the other relation to the rounded bound.
-/
theorem checkTight_sound {strict nonstrict : Kind} {bound : Rat → Int}
    (result : checkTight strict nonstrict bound children = some r)
    (weak : nonstrict = .geq ∨ nonstrict = .leq)
    (rounds : ∀ (z : Int) (q : Rat), strict.Relates z q ∨ nonstrict.Relates z q ∧ q.isInt = false
      → nonstrict.Relates z (bound q : Int))
    (tightenable : ∀ child ∈ children, Tightenable child)
    (holds : ∀ child ∈ children, I.Satisfies child)
    : I.Satisfies r := by
  obtain ⟨child, left, right, q, rfl, first, second, value, typed, kind, rfl⟩ :=
    checkTight_cases result
  have related := satisfies_relates first second (holds child (by simp))
  obtain ⟨z, integral⟩ := toReal_int I typed
  rw [integral, toReal_of_getConst I value] at related
  rw [satisfies_mkNode_iff I _ _ (by rcases weak with rfl | rfl <;> simp), integral, toReal_constInteger]
  refine rounds z q ?_
  rcases kind with isStrict | isWeak
  · exact Or.inl (isStrict ▸ related)
  · rw [isWeak] at related
    rcases tightenable child (by simp) with gt | lt | fraction
    · rcases weak with rfl | rfl <;> simp [gt] at isWeak
    · rcases weak with rfl | rfl <;> simp [lt] at isWeak
    · exact Or.inr ⟨related, fraction q (by simp [Node.bound, second, value])⟩

-- Trichotomy

variable {a : Node}

/-- A well-sorted relation has two sides, of arithmetic sorts for the orders. -/
theorem relation_cases (typed : a.getType = some .bool)
    (kind : a.getKind.isRelation = true) (first : a.first = some left)
    (second : a.second = some right)
    : a = mkNode a.getKind [left, right]
      ∧ (a.getKind ≠ .equal → ∃ s t, left.getType = some s ∧ right.getType = some t
        ∧ s.isRealOrInt = true ∧ t.isRealOrInt = true) := by
  match a, first, second with
  | .apply k (.cons x (.cons y rest)), first, second =>
    simp only [Node.first, Node.second, Option.some.injEq] at first second
    subst first second
    simp only [Node.getType, Nodes.getTypes, Option.bind_eq_bind, Option.bind_eq_some_iff,
      Option.pure_def, Option.some.injEq] at typed
    obtain ⟨_, ⟨s, sEq, _, ⟨t, tEq, types, restEq, rfl⟩, rfl⟩, computed⟩ := typed
    have none : rest = .nil ∧ (k ≠ .equal → s.isRealOrInt = true ∧ t.isRealOrInt = true) := by
      cases rest with
      | nil =>
        simp only [Nodes.getTypes, Option.some.injEq] at restEq
        subst restEq
        refine ⟨rfl, fun order => ?_⟩
        cases k <;> simp_all [Node.getKind, Kind.isRelation, Kind.computeType]
      | cons z rest =>
        simp only [Nodes.getTypes, Option.bind_eq_bind, Option.bind_eq_some_iff,
          Option.pure_def, Option.some.injEq] at restEq
        obtain ⟨u, _, us, _, rfl⟩ := restEq
        cases k <;> simp_all [Node.getKind, Kind.isRelation, Kind.computeType]
    obtain ⟨rfl, order⟩ := none
    exact ⟨rfl, fun differ => ⟨s, t, sEq, tEq, order differ⟩⟩

theorem getType_mkNode_pair {b : Node} {s t : TypeNode}
    (left : a.getType = some s) (right : b.getType = some t)
    : (mkNode k [a, b]).getType = k.computeType [s, t] := by
  simp [mkNode, Nodes.ofList, Node.getType, Nodes.getTypes, left, right]

/-- The complementary order excludes the literal. -/
theorem withKind_sound
    (typed : n.getType = some .bool) (kind : n.getKind.isRelation = true)
    (order : n.getKind ≠ .equal) (target : k = .lt ∨ k = .leq ∨ k = .gt ∨ k = .geq)
    (result : n.withKind k = some a) (holds : I.Satisfies n)
    (excludes : ∀ x y, n.getKind.Relates x y → ¬ k.Relates x y)
    : ¬ I.Satisfies a ∧ a.getType = some .bool := by
  simp only [Node.withKind, Option.bind_eq_bind, Option.bind_eq_some_iff,
    Option.some.injEq] at result
  obtain ⟨left, first, right, second, rfl⟩ := result
  obtain ⟨-, sorts⟩ := relation_cases typed kind first second
  obtain ⟨s, t, sEq, tEq, sArith, tArith⟩ := sorts order
  refine ⟨?_, ?_⟩
  · rw [satisfies_mkNode_iff I _ _ target]
    exact excludes _ _ (satisfies_relates first second holds)
  · rw [getType_mkNode_pair sEq tEq]
    rcases target with rfl | rfl | rfl | rfl <;> simp [Kind.computeType, sArith, tArith]

/-- A true negation has one child, which is false. -/
theorem not_cases (kind : n.getKind = .not)
    (typed : n.getType = some .bool) (holds : I.Satisfies n)
    : ∃ a, n.first = some a ∧ ¬ I.Satisfies a ∧ a.getType = some .bool := by
  match n, kind with
  | .apply .not (.cons a .nil), _ =>
    simp only [Node.getType, Nodes.getTypes, Option.bind_eq_bind, Option.bind_eq_some_iff,
      Option.pure_def, Option.some.injEq] at typed
    obtain ⟨_, ⟨s, sEq, _, rfl, rfl⟩, computed⟩ := typed
    refine ⟨a, rfl, holds, ?_⟩
    cases s <;> simp [Kind.computeType] at computed
    exact sEq
  | .apply .not .nil, _ => exact holds.elim
  | .apply .not (.cons _ (.cons _ _)), _ => exact holds.elim

/-- Negating a true well-sorted literal gives a false well-sorted one. -/
theorem negateProofLiteral_sound
    (typed : n.getType = some .bool) (result : negateProofLiteral n = some a)
    (holds : I.Satisfies n)
    : ¬ I.Satisfies a ∧ a.getType = some .bool := by
  unfold negateProofLiteral at result
  split at result
  case h_1 kind =>
    exact withKind_sound typed (by simp [kind, Kind.isRelation]) (by simp [kind]) (by simp) result
      holds (fun x y => by rw [kind]; exact not_le.mpr)
  case h_2 kind =>
    exact withKind_sound typed (by simp [kind, Kind.isRelation]) (by simp [kind]) (by simp) result
      holds (fun x y => by rw [kind]; exact not_le.mpr)
  case h_3 kind =>
    exact withKind_sound typed (by simp [kind, Kind.isRelation]) (by simp [kind]) (by simp) result
      holds (fun x y => by rw [kind]; exact not_lt.mpr)
  case h_4 kind =>
    exact withKind_sound typed (by simp [kind, Kind.isRelation]) (by simp [kind]) (by simp) result
      holds (fun x y => by rw [kind]; exact not_lt.mpr)
  case h_5 kind =>
    rw [Node.negate, kind, if_neg (by simp), Option.some.injEq] at result
    subst result
    refine ⟨fun negated => negated holds, ?_⟩
    simp [mkNode, Nodes.ofList, Node.getType, Nodes.getTypes, typed, Kind.computeType]
  case h_6 kind =>
    rw [Node.negate, if_pos kind] at result
    obtain ⟨b, first, falsified, bool⟩ := not_cases kind typed holds
    obtain rfl : b = a := by rw [first] at result; exact Option.some.inj result
    exact ⟨falsified, bool⟩
  case h_7 => exact absurd result (by simp)

/-- Exactly one of three is missing when the other two are the given ones. -/
theorem missingRelation_cases {a b : Kind} (missing : missingRelation a b = some k)
    : (k = .equal ∧ (a = .gt ∧ b = .lt ∨ a = .lt ∧ b = .gt))
      ∨ (k = .gt ∧ (a = .equal ∧ b = .lt ∨ a = .lt ∧ b = .equal))
      ∨ (k = .lt ∧ (a = .equal ∧ b = .gt ∨ a = .gt ∧ b = .equal)) := by
  unfold missingRelation at missing
  split at missing
  · next found single =>
    obtain rfl := Option.some.inj missing
    have member (x : Kind) (listed : x ∈ [Kind.equal, .gt, .lt])
        : (x ≠ a ∧ x ≠ b) ↔ x = found := by
      have both : x ∈ [Kind.equal, .gt, .lt].filter (fun k => k ≠ a ∧ k ≠ b) ↔ x = found := by
        rw [single, List.mem_singleton]
      rw [List.mem_filter, decide_eq_true_iff] at both
      exact ⟨fun free => both.mp ⟨listed, free⟩, fun same => (both.mpr same).2⟩
    have equal := member .equal (by simp)
    have gt := member .gt (by simp)
    have lt := member .lt (by simp)
    grind
  · simp at missing

/-- Numbers that are compared by an order of a well-sorted node are values of an arithmetic
sort, so that their equality is the one of the values. -/
theorem eval_eq_iff {s t : TypeNode}
    (leftType : left.getType = some s) (rightType : right.getType = some t)
    (leftArith : s.isRealOrInt = true) (rightArith : t.isRealOrInt = true)
    : left.eval I = right.eval I ↔ left.toReal I = right.toReal I := by
  have leftNum := hasType_num_of_isRealOrInt leftArith (left.getType_sound I leftType)
  have rightNum := hasType_num_of_isRealOrInt rightArith (right.getType_sound I rightType)
  constructor
  · intro same
    rw [Node.toReal, same, Node.toReal]
  · intro same
    rw [leftNum, rightNum]
    exact congrArg Value.num same

theorem satisfies_equal_iff (I : Interpretation) (a b : Node)
    : I.Satisfies (mkNode .equal [a, b]) ↔ a.eval I = b.eval I := by
  rw [Interpretation.Satisfies, eval_mkNode]
  rfl

/-- Of three relations between the same sides one holds, and the other two were refuted. -/
theorem checkTrichotomy_sound
    (result : checkTrichotomy children = some r)
    (typed : ∀ child ∈ children, child.getType = some .bool)
    (holds : ∀ child ∈ children, I.Satisfies child)
    : I.Satisfies r := by
  match children, result with
  | first :: second :: rest, result =>
    simp only [checkTrichotomy, Option.bind_eq_bind, Option.bind_eq_some_iff,
      Option.ite_none_right_eq_some, Option.some.injEq] at result
    obtain ⟨a, aEq, b, bEq, left, leftEq, right, rightEq, ⟨bLeft, bRight⟩, retk, missing, rfl⟩ :=
      result
    obtain ⟨aFalse, aTyped⟩ :=
      negateProofLiteral_sound (typed first (by simp)) aEq (holds first (by simp))
    obtain ⟨bFalse, bTyped⟩ :=
      negateProofLiteral_sound (typed second (by simp)) bEq (holds second (by simp))
    have cases := missingRelation_cases missing
    have relations : a.getKind.isRelation = true ∧ b.getKind.isRelation = true := by
      rcases cases with ⟨_, kinds⟩ | ⟨_, kinds⟩ | ⟨_, kinds⟩ <;>
        rcases kinds with ⟨ha, hb⟩ | ⟨ha, hb⟩ <;> simp [ha, hb, Kind.isRelation]
    obtain ⟨aNode, aSorts⟩ := relation_cases aTyped relations.1 leftEq rightEq
    obtain ⟨bNode, bSorts⟩ := relation_cases bTyped relations.2 bLeft bRight
    -- at least one of the two is an order
    obtain ⟨s, t, sEq, tEq, sArith, tArith⟩ : ∃ s t, left.getType = some s
        ∧ right.getType = some t ∧ s.isRealOrInt = true ∧ t.isRealOrInt = true := by
      by_cases equal : a.getKind = .equal
      · refine bSorts fun same => ?_
        rcases cases with ⟨_, kinds⟩ | ⟨_, kinds⟩ | ⟨_, kinds⟩ <;>
          rcases kinds with ⟨ha, hb⟩ | ⟨ha, hb⟩ <;> rw [ha] at equal <;> rw [hb] at same <;>
          simp at equal same
      · exact aSorts equal
    have values := eval_eq_iff (I := I) sEq tEq sArith tArith
    rw [aNode] at aFalse
    rw [bNode] at bFalse
    rcases cases with ⟨rfl, kinds⟩ | ⟨rfl, kinds⟩ | ⟨rfl, kinds⟩ <;>
      rcases kinds with ⟨ha, hb⟩ | ⟨ha, hb⟩ <;> rw [ha] at aFalse <;> rw [hb] at bFalse <;>
      simp only [satisfies_equal_iff, values, satisfies_mkNode_iff I left right, Kind.Relates,
        true_or, or_true, not_lt] at aFalse bFalse ⊢
    · exact le_antisymm aFalse bFalse
    · exact le_antisymm bFalse aFalse
    · exact lt_of_le_of_ne bFalse (Ne.symm aFalse)
    · exact lt_of_le_of_ne aFalse (Ne.symm bFalse)
    · exact lt_of_le_of_ne bFalse aFalse
    · exact lt_of_le_of_ne aFalse bFalse

-- Scaling by a signed factor

/-- What the multiplication rules build. -/
theorem checkMult_cases {sign : Kind} {flip : Kind → Kind}
    (result : checkMult sign flip children args = some r)
    : ∃ mult relation lhs rhs zero, relation.getKind.isRelation = true
      ∧ relation.first = some lhs ∧ relation.second = some rhs
      ∧ mult.getType.bind mkZero = some zero
      ∧ r = mkNode .implies
        [mkNode .and [mkNode sign [mult, zero], relation],
          mkNode (flip relation.getKind)
            [mkNode .mult [mult, lhs], mkNode .mult [mult, rhs]]] := by
  match children, args, result with
  | [], [mult, relation], result =>
    simp only [checkMult, Option.ite_none_left_eq_some, Option.bind_eq_bind,
      Option.bind_eq_some_iff, Option.some.injEq, Bool.not_eq_false] at result
    obtain ⟨kind, lhs, first, rhs, second, zero, zeroEq, rfl⟩ := result
    exact ⟨mult, relation, lhs, rhs, zero, kind, first, second, Option.bind_eq_some_iff.mpr zeroEq, rfl⟩

theorem toReal_mkZero (I : Interpretation) {type : Option TypeNode} {zero : Node}
    (made : type.bind mkZero = some zero)
    : zero.toReal I = 0 := by
  match type, made with
  | some .int, made =>
    simp only [Option.bind_some, mkZero, Option.some.injEq] at made
    simp [← made]
  | some .real, made =>
    simp only [Option.bind_some, mkZero, Option.some.injEq] at made
    simp [← made, Node.toReal, Node.eval, Value.toReal]

/-- An implication of two premises. -/
theorem satisfies_implies_and (I : Interpretation) (a b c : Node)
    : I.Satisfies (mkNode .implies [mkNode .and [a, b], c])
      ↔ (I.Satisfies a → I.Satisfies b → I.Satisfies c) := by
  simp only [Interpretation.Satisfies, eval_mkNode, List.map_cons, List.map_nil, Kind.apply,
    Value.IsTrue, List.forall_mem_cons, List.not_mem_nil, false_implies, implies_true, and_true,
    and_imp]

/-- A relation of products holds when the numbers are related, also as an equation. -/
theorem satisfies_products (relation : k.isRelation = true)
    (mult lhs rhs : Node)
    (related : k.Relates (mult.toReal I * lhs.toReal I) (mult.toReal I * rhs.toReal I))
    : I.Satisfies (mkNode k [mkNode .mult [mult, lhs], mkNode .mult [mult, rhs]]) := by
  by_cases order : k = .lt ∨ k = .leq ∨ k = .gt ∨ k = .geq
  · rw [satisfies_mkNode_iff I _ _ order, toReal_mult, toReal_mult]
    exact related
  · obtain rfl : k = .equal := by
      cases k <;> simp_all [Kind.isRelation]
    rw [satisfies_equal_iff, eval_mkNode, eval_mkNode]
    have products := related
    simp only [Kind.Relates, Node.toReal] at products
    simpa [Kind.apply] using products

theorem checkMult_pos_sound
    (result : checkMult .gt (fun rel => rel) children args = some r)
    : I.Satisfies r := by
  obtain ⟨mult, relation, lhs, rhs, zero, kind, first, second, made, rfl⟩ := checkMult_cases result
  rw [satisfies_implies_and]
  intro sign holds
  rw [satisfies_mkNode_iff I _ _ (by simp), toReal_mkZero I made] at sign
  have positive : 0 < mult.toReal I := sign
  have related := satisfies_relates first second holds
  refine satisfies_products kind mult lhs rhs ?_
  generalize relation.getKind = k at *
  cases k <;> simp only [Kind.isRelation, Bool.false_eq_true] at kind <;>
    simp only [Kind.Relates] at related ⊢
  case lt => exact mul_lt_mul_of_pos_left related positive
  case leq => exact mul_le_mul_of_nonneg_left related positive.le
  case gt => exact mul_lt_mul_of_pos_left related positive
  case geq => exact mul_le_mul_of_nonneg_left related positive.le
  case equal => rw [related]

theorem checkMult_neg_sound
    (result : checkMult .lt reverseRelationKind children args = some r)
    : I.Satisfies r := by
  obtain ⟨mult, relation, lhs, rhs, zero, kind, first, second, made, rfl⟩ := checkMult_cases result
  rw [satisfies_implies_and]
  intro sign holds
  rw [satisfies_mkNode_iff I _ _ (by simp), toReal_mkZero I made] at sign
  have negative : mult.toReal I < 0 := sign
  have related := satisfies_relates first second holds
  have reversed : (reverseRelationKind relation.getKind).isRelation = true := by
    generalize relation.getKind = k at kind
    cases k <;> simp_all [Kind.isRelation, reverseRelationKind]
  refine satisfies_products reversed mult lhs rhs ?_
  generalize relation.getKind = k at *
  cases k <;> simp only [Kind.isRelation, Bool.false_eq_true] at kind <;>
    simp only [Kind.Relates, reverseRelationKind] at related ⊢
  case lt => exact mul_lt_mul_of_neg_left related negative
  case leq => exact mul_le_mul_of_nonpos_left related negative.le
  case gt => exact mul_lt_mul_of_neg_left related negative
  case geq => exact mul_le_mul_of_nonpos_left related negative.le
  case equal => rw [related]

end Ava6.Arith

import Ava6.Arith.ProofCheckerSound
import Mathlib.Algebra.Order.Archimedean.Real.Basic

/-! Where the arithmetic proof rules are sound and where they are not. The checker is sound on
every application of the forms its documentation gives. It accepts two more: a nonstrict
integer bound, which tightening then moves by one, and a scaled sum over a predicate that is
no literal, whose arguments it adds up like the sides of an equation.
-/

namespace Ava6.Arith

/-- An application of a proof rule. -/
structure Application where
  id : ProofRule
  children : List Node
  args : List Node

/-- The formula the checker returns, if any, follows from the children. -/
def Application.Sound (a : Application) : Prop :=
  ∀ r, checkInternal a.id a.children a.args = some r → r.getType = some .bool
    → ∀ I : Interpretation, (∀ child ∈ a.children, I.Satisfies child) → I.Satisfies r

/-- The children are formulas. -/
def Application.WellSorted (a : Application) : Prop :=
  ∀ child ∈ a.children, child.getType = some .bool

def ProofRule.tightens : ProofRule → Bool
  | .intTightLb | .intTightUb => true
  | _ => false

/-- The form of an application: the rule, the kinds of the children, the arguments and, for
the tightening rules, the sorts of the left sides and the constant bounds. The terms under the
children are left open. -/
structure Form where
  id : ProofRule
  kinds : List Kind
  args : List Node
  sorts : List (Option TypeNode)
  bounds : List (Option Rat)

def Application.form (a : Application) : Form where
  id := a.id
  kinds := a.children.map Node.getKind
  args := a.args
  sorts := if a.id.tightens then a.children.map (fun child => child.first.bind Node.getType) else []
  bounds := if a.id.tightens then a.children.map Node.bound else []

/-- Kinds of formulas that are no literals but may have two arithmetic arguments. -/
def Kind.isStray : Kind → Bool
  | .distinct => true
  | .op _ range => range == .bool
  | _ => false

/-- The scalar is a nonzero constant, of the sign the kind demands. -/
def acceptsScalar (k : Kind) (arg : Node) : Bool :=
  match arg.getConst with
  | some q => q ≠ 0 && !wrongSign k q
  | none => false

/-- A scaled sum that is not turned away for its scalars, nor for a child that cannot have two
arithmetic arguments. -/
def summable : List Kind → List Node → Bool
  | [], [] => true
  | k :: kinds, arg :: args =>
      acceptsScalar k arg && (k.isRelation || k.isStray) && summable kinds args
  | _, _ => false

/-- The forms on which the checker is sound: every child of a scaled sum is a literal, and
integer tightening is applied to a strict bound, to one that is no integer or to a term that is
none. -/
def Form.Guarded (form : Form) : Prop :=
  match form.id with
  | .macroArithScaleSumUb =>
      2 ≤ form.kinds.length → summable form.kinds form.args = true
        → ∀ k ∈ form.kinds, k.isStray = false
  | .intTightLb =>
      ∀ q, form.kinds = [.geq] → form.sorts = [some .int] → form.bounds = [some q] → q.isInt = false
  | .intTightUb =>
      ∀ q, form.kinds = [.leq] → form.sorts = [some .int] → form.bounds = [some q] → q.isInt = false
  | _ => True

-- The guarded forms are sound

/-- A well-sorted sum has arithmetic summands. -/
theorem arithmetic_of_add {summands : List Node} {type : TypeNode}
    (typed : (mkNode .add summands).getType = some type)
    : ∀ n ∈ summands, ∃ t, n.getType = some t ∧ t.isRealOrInt = true := by
  simp only [mkNode, Node.getType, Option.bind_eq_some_iff, Kind.computeType,
    Option.ite_none_right_eq_some] at typed
  obtain ⟨types, typesEq, ⟨-, all⟩, -⟩ := typed
  induction summands generalizing types with
  | nil => simp
  | cons head tail ih =>
    simp only [Nodes.ofList, Nodes.getTypes, Option.bind_eq_bind, Option.bind_eq_some_iff,
      Option.pure_def, Option.some.injEq] at typesEq
    obtain ⟨t, tEq, rest, restEq, rfl⟩ := typesEq
    rw [List.all_cons, Bool.and_eq_true] at all
    intro n member
    rcases List.mem_cons.mp member with rfl | later
    · exact ⟨t, tEq, all.1⟩
    · exact ih rest restEq all.2 n later

variable {arg : Node} {q : Rat}

/-- The factor of a well-sorted product is arithmetic. -/
theorem arithmetic_of_scaled {n : Node} {t : TypeNode}
    (typed : (scaled arg q n).getType = some t) (arith : t.isRealOrInt = true)
    : ∃ s, n.getType = some s ∧ s.isRealOrInt = true := by
  unfold scaled at typed
  split at typed
  · exact ⟨t, typed, arith⟩
  · simp only [mkNode, Nodes.ofList, Node.getType, Nodes.getTypes, Option.bind_eq_bind,
      Option.bind_eq_some_iff, Option.pure_def, Option.some.injEq, Kind.computeType,
      Option.ite_none_right_eq_some] at typed
    obtain ⟨_, ⟨s, _, _, ⟨u, uEq, _, rfl, rfl⟩, rfl⟩, ⟨-, all⟩, -⟩ := typed
    simp only [List.all_cons, Bool.and_eq_true] at all
    exact ⟨u, uEq, all.2.1⟩

/-- A formula with an arithmetic first and a second argument is a literal or stray. -/
theorem literal_or_stray {child left right : Node} {s : TypeNode}
    (typed : child.getType = some .bool) (first : child.first = some left)
    (second : child.second = some right) (leftType : left.getType = some s)
    (arith : s.isRealOrInt = true)
    : (child.getKind.isRelation || child.getKind.isStray) = true := by
  match child, first, second with
  | .apply k (.cons x (.cons y rest)), first, second =>
    simp only [Node.first, Node.second, Option.some.injEq] at first second
    subst first second
    simp only [Node.getType, Nodes.getTypes, Option.bind_eq_bind, Option.bind_eq_some_iff,
      Option.pure_def, Option.some.injEq] at typed
    obtain ⟨_, ⟨s', sEq, _, ⟨t, tEq, types, restEq, rfl⟩, rfl⟩, computed⟩ := typed
    obtain rfl : s' = s := by rw [leftType] at sEq; exact (Option.some.inj sEq).symm
    have notBool : s' ≠ .bool := by
      rintro rfl
      simp [TypeNode.isRealOrInt] at arith
    rcases isConnective_or_op computed with connective | ⟨symbol, rfl⟩
    · cases k with
      | equal | lt | leq | gt | geq | distinct => rfl
      | and => simp [Kind.computeType, notBool] at computed
      | implies => cases s' <;> simp_all [Kind.computeType]
      | not => simp [Kind.computeType] at computed
      | _ => cases connective
    · rfl

variable {args : List Node}

/-- Scaled sums that are well-sorted pass the tests on their form, by induction on the
children. -/
theorem summable_of_loop {children : List Node} {sums : Bool × List Node × List Node}
    (typed : ∀ child ∈ children, child.getType = some .bool)
    (result : scaleSumUbLoop children args = some sums)
    (arith : ∀ n ∈ sums.2.1, ∃ t, n.getType = some t ∧ t.isRealOrInt = true)
    : summable (children.map Node.getKind) args = true := by
  induction children generalizing args sums with
  | nil =>
    cases args with
    | nil => rfl
    | cons arg args => simp [scaleSumUbLoop] at result
  | cons child rest ih =>
    cases args with
    | nil => simp [scaleSumUbLoop] at result
    | cons arg args =>
      simp only [scaleSumUbLoop, Option.bind_eq_bind, Option.bind_eq_some_iff,
        Option.ite_none_left_eq_some, Option.some.injEq, not_or, Bool.not_eq_true] at result
      obtain ⟨scalar, value, left, first, right, second, ⟨nonzero, _, sign⟩, tail, loop, rfl⟩ :=
        result
      obtain ⟨t, tEq, tArith⟩ := arith (scaled arg scalar left) (by simp)
      obtain ⟨s, sEq, sArith⟩ := arithmetic_of_scaled tEq tArith
      have shape := literal_or_stray (typed child (by simp)) first second sEq sArith
      have later := ih (fun c member => typed c (by simp [member])) loop
        (fun n member => arith n (by simp [member]))
      simp only [List.map_cons, summable, Bool.and_eq_true]
      refine ⟨⟨?_, shape⟩, later⟩
      simp [acceptsScalar, value, nonzero, sign]

variable {kinds : List Kind}

theorem literal_or_stray_of_summable
    (sums : summable kinds args = true)
    : ∀ k ∈ kinds, (k.isRelation || k.isStray) = true := by
  induction kinds generalizing args with
  | nil => simp
  | cons k kinds ih =>
    cases args with
    | nil => simp [summable] at sums
    | cons arg args =>
      simp only [summable, Bool.and_eq_true] at sums
      intro other member
      rcases List.mem_cons.mp member with rfl | later
      · exact sums.1.2
      · exact ih sums.2 other later

variable {a : Application}

/-- Scaled sums are sound in the guarded form, by adding up the scaled children one after the other. -/
theorem macro_sound (wellSorted : a.WellSorted)
    (rule : a.id = .macroArithScaleSumUb) (guarded : a.form.Guarded)
    : a.Sound := by
  intro r result typed I holds
  simp only [rule, checkInternal, Option.ite_none_left_eq_some, Option.map_eq_some_iff] at result
  obtain ⟨enough, sums, loop, rfl⟩ := result
  refine mkSumRelation_sound (scaleSumUbLoop_sound loop ?_ holds)
  have summed : ∃ t, (mkNode .add sums.2.1).getType = some t := by
    obtain ⟨strict, leftSum, rightSum⟩ := sums
    simp only [mkSumRelation, mkNode, Nodes.ofList, Node.getType, Nodes.getTypes,
      Option.bind_eq_bind, Option.bind_eq_some_iff, Option.pure_def, Option.some.injEq] at typed
    obtain ⟨_, ⟨s, sEq, _⟩, _⟩ := typed
    exact ⟨s, by simpa only [mkNode, Node.getType, Option.bind_eq_some_iff] using sEq⟩
  obtain ⟨t, tEq⟩ := summed
  have shapes := summable_of_loop wellSorted loop (arithmetic_of_add tEq)
  simp only [Form.Guarded, Application.form, rule] at guarded
  have literals := guarded (by simp at enough ⊢; omega) shapes
  intro child member
  have listed : child.getKind ∈ a.children.map Node.getKind := List.mem_map_of_mem member
  have shape := literal_or_stray_of_summable shapes _ listed
  rwa [literals _ listed, Bool.or_false] at shape

/-- On a guarded form, the bound of a child that tightening accepts is strict or no integer. -/
theorem tightenable_of_form (tightens : a.id.tightens = true)
    {strict nonstrict : Kind} (order : strict = .gt ∨ strict = .lt) {bound : Rat → Int} {r : Node}
    (result : checkTight strict nonstrict bound a.children = some r)
    (guarded : ∀ q, a.form.kinds = [nonstrict] → a.form.sorts = [some .int]
      → a.form.bounds = [some q] → q.isInt = false)
    : ∀ child ∈ a.children, Tightenable child := by
  obtain ⟨child, left, right, q, only, first, second, value, isInteger, kind, -⟩ := checkTight_cases result
  intro other member
  obtain rfl : other = child := by simpa [only] using member
  rcases kind with isStrict | isNonstrict
  · rcases order with rfl | rfl
    · exact Or.inl isStrict
    · exact Or.inr (Or.inl isStrict)
  · refine Or.inr (Or.inr fun p isBound => guarded p ?_ ?_ ?_)
    · simp [Application.form, only, isNonstrict]
    · simp [Application.form, tightens, only, first, isInteger]
    · simp [Application.form, tightens, only, isBound]

/-- Every well-sorted application of a guarded form is sound, by the rule. -/
theorem sound_of_guarded (wellSorted : a.WellSorted)
    (guarded : a.form.Guarded)
    : a.Sound := by
  by_cases summing : a.id = .macroArithScaleSumUb
  · exact macro_sound wellSorted summing guarded
  intro r result typed I holds
  unfold checkInternal at result
  unfold Form.Guarded Application.form at guarded
  split at result
  case h_1 => exact checkMult_pos_sound result
  case h_2 => exact checkMult_neg_sound result
  case h_3 =>
    simp only [Option.ite_none_left_eq_some, Option.map_eq_some_iff] at result
    obtain ⟨_, sums, loop, rfl⟩ := result
    exact mkSumRelation_sound (sumUbLoop_sound loop holds)
  case h_4 rule => exact absurd rule summing
  case h_5 rule =>
    rw [rule] at guarded
    exact checkTight_sound result (Or.inl rfl) (fun z q above => Int.cast_le.mpr (leastIntGreaterThan_le above))
      (tightenable_of_form (by rw [rule]; rfl) (Or.inl rfl) result
        (by simpa [Application.form, rule] using guarded)) holds
  case h_6 rule =>
    rw [rule] at guarded
    exact checkTight_sound result (Or.inr rfl) (fun z q below => Int.cast_le.mpr (le_greatestIntLessThan below))
      (tightenable_of_form (by rw [rule]; rfl) (Or.inr rfl) result
        (by simpa [Application.form, rule] using guarded)) holds
  case h_7 => exact checkTrichotomy_sound result wellSorted holds

-- The other forms are not

/-- Every numeric variable has one of three values, the third of them arbitrary, and every
predicate holds. -/
def scaleInterpretation (big : Int) : Interpretation where
  var type name :=
    match type with
    | .int | .real => .num (match name with | 0 => 0 | 1 => 1 | _ => big)
    | type => .default type
  op _ range _ := .default range
  divideByZero _ := 0
  var_hasType type name := by
    cases type with
    | int =>
        match name with
        | 0 => exact ⟨0, by simp⟩
        | 1 => exact ⟨1, by simp⟩
        | n + 2 => exact ⟨big, by simp⟩
    | real => exact trivial
    | bool | bitVector _ | other _ => exact Value.default_hasType _
  op_hasType _ range _ := Value.default_hasType range

/-- Sides that make a literal true, and a stray predicate as false a bound as wanted. -/
def sides (k : Kind) (scalar : Rat) : Nat × Nat :=
  match k with
  | .lt | .leq => (0, 1)
  | .gt | .geq => (1, 0)
  | .equal => (0, 0)
  | _ => if 0 < scalar then (2, 0) else (0, 2)

def sortOf : Node → TypeNode
  | .constRational _ => .real
  | _ => .int

/-- A child of the kind over two variables of the sort of the scalar. -/
def scaleChild (k : Kind) (arg : Node) : Node :=
  let pair := sides k (arg.getConst.getD 0)
  mkNode k [.var (sortOf arg) pair.1, .var (sortOf arg) pair.2]

/-- The number of a variable under the interpretation. -/
noncomputable def level (big : Int) : Nat → ℝ
  | 0 => 0
  | 1 => 1
  | _ => big

theorem sortOf_arith (arg : Node) : (sortOf arg).isRealOrInt = true := by
  cases arg <;> rfl

theorem toReal_scaleVar (big : Int) (arg : Node) (name : Nat)
    : (Node.var (sortOf arg) name).toReal (scaleInterpretation big) = level big name := by
  cases arg <;> rfl

variable {k : Kind}

theorem scaleChild_getType (shape : (k.isRelation || k.isStray) = true) (arg : Node)
    : (scaleChild k arg).getType = some .bool := by
  have arith := sortOf_arith arg
  rw [scaleChild, getType_mkNode_pair rfl rfl]
  cases k <;> simp [Kind.isRelation, Kind.isStray] at shape <;>
    simp [Kind.computeType, arith, allSame, shape]

/-- The child holds: a literal by the choice of its sides, a stray predicate because the
sides differ or the predicate holds of everything. -/
theorem scaleChild_holds {big : Int} (large : 0 < big)
    (shape : (k.isRelation || k.isStray) = true) (arg : Node)
    : (scaleInterpretation big).Satisfies (scaleChild k arg) := by
  have value := toReal_scaleVar big arg
  unfold scaleChild
  by_cases order : k = .lt ∨ k = .leq ∨ k = .gt ∨ k = .geq
  · rw [satisfies_mkNode_iff _ _ _ order, value, value]
    rcases order with rfl | rfl | rfl | rfl <;> simp [sides, Kind.Relates, level]
  · cases k <;> simp [Kind.isRelation, Kind.isStray] at shape order
    case equal => simp [satisfies_equal_iff, sides]
    case distinct =>
      have differ : (Node.var (sortOf arg) 2).eval (scaleInterpretation big)
          ≠ (Node.var (sortOf arg) 0).eval (scaleInterpretation big) := by
        intro same
        have numbers := congrArg Value.toReal same
        have two := value 2
        have zero := value 0
        unfold Node.toReal at two zero
        rw [two, zero] at numbers
        simp only [level, Int.cast_eq_zero] at numbers
        omega
      rw [Interpretation.Satisfies, eval_mkNode]
      simp only [sides]
      split
      · simpa [Kind.apply, Value.IsTrue] using differ
      · simpa [Kind.apply, Value.IsTrue] using Ne.symm differ
    case op symbol range =>
      rw [Interpretation.Satisfies, eval_mkNode, shape]
      trivial

/-- How far a stray summand moves the left sum above the right one. -/
theorem stray_gap (big : Int) (stray : k.isStray = true) (q : Rat)
    : q * level big (sides k q).1 - q * level big (sides k q).2 = |(q : ℝ)| * big := by
  have pair : sides k q = if 0 < q then (2, 0) else (0, 2) := by
    cases k <;> simp [Kind.isStray] at stray <;> rfl
  rw [pair]
  split
  · next positive =>
    rw [abs_of_pos (by exact_mod_cast positive)]
    simp [level]
  · next negative =>
    rw [abs_of_nonpos (by exact_mod_cast not_lt.mp negative)]
    simp [level]

/-- A literal moves it back by no more than its scalar. -/
theorem literal_gap (big : Int) (literal : k.isRelation = true) (q : Rat)
    : - |(q : ℝ)| ≤ q * level big (sides k q).1 - q * level big (sides k q).2 := by
  have below := neg_abs_le (q : ℝ)
  have above := le_abs_self (q : ℝ)
  cases k <;> simp [Kind.isRelation] at literal <;> simp only [sides, level] <;> linarith

/-- The total of the scalars, and of those of the stray children alone. -/
def weight (select : Kind → Bool) : List Kind → List Node → Rat
  | k :: kinds, arg :: args =>
      (if select k then |arg.getConst.getD 0| else 0) + weight select kinds args
  | _, _ => 0

theorem weight_nonneg (select : Kind → Bool) (kinds : List Kind) (args : List Node)
    : 0 ≤ weight select kinds args := by
  induction kinds generalizing args with
  | nil => simp [weight]
  | cons k kinds ih =>
    cases args with
    | nil => simp [weight]
    | cons arg args =>
      have rest := ih args
      simp only [weight]
      split <;> positivity

theorem weight_pos {select : Kind → Bool}
    (sums : summable kinds args = true) (member : k ∈ kinds)
    (selected : select k = true)
    : 0 < weight select kinds args := by
  induction kinds generalizing args with
  | nil => simp at member
  | cons other kinds ih =>
    cases args with
    | nil => simp [summable] at sums
    | cons arg args =>
      simp only [summable, Bool.and_eq_true] at sums
      obtain ⟨⟨accepted, -⟩, rest⟩ := sums
      have tail := weight_nonneg select kinds args
      rcases List.mem_cons.mp member with rfl | later
      · have nonzero : arg.getConst.getD 0 ≠ 0 := by
          unfold acceptsScalar at accepted
          split at accepted
          · next q value => simp_all
          · simp at accepted
        have head := abs_pos.mpr nonzero
        simp only [weight, selected, if_true]
        linarith
      · have tail := ih rest later
        simp only [weight]
        split <;> positivity

/-- A constant has the sort the built children are given. -/
theorem getType_of_getConst (value : arg.getConst = some q)
    : arg.getType = some (sortOf arg) := by
  cases arg <;> simp_all [Node.getConst, Node.getType, sortOf]

theorem mixedArithmetic_built (value : arg.getConst = some q)
    (i j : Nat)
    : mixedArithmetic arg q (.var (sortOf arg) i) (.var (sortOf arg) j) = false := by
  cases arg <;> simp_all [Node.getConst, mixedArithmetic, Node.getType, sortOf]

theorem scaled_built_arith (value : arg.getConst = some q) (i : Nat)
    : ∃ t, (scaled arg q (.var (sortOf arg) i)).getType = some t ∧ t.isRealOrInt = true := by
  have arith := sortOf_arith arg
  unfold scaled
  split
  · exact ⟨sortOf arg, rfl, arith⟩
  · rw [getType_mkNode_pair (getType_of_getConst value) rfl]
    refine ⟨if [sortOf arg, sortOf arg].all (· == .int) then .int else .real, ?_, ?_⟩
    · simp [Kind.computeType, arith]
    · split <;> rfl

/-- The loop accepts the built children; the sums it returns are arithmetic, and they violate
the bound by as much as the stray children outweigh the others. -/
theorem scaleSumUbLoop_built (big : Int)
    (sums : summable kinds args = true)
    : ∃ result, scaleSumUbLoop (List.zipWith scaleChild kinds args) args = some result
      ∧ result.2.1.length = kinds.length ∧ result.2.2.length = kinds.length
      ∧ (∀ n ∈ result.2.1 ++ result.2.2, ∃ t, n.getType = some t ∧ t.isRealOrInt = true)
      ∧ (weight Kind.isStray kinds args : ℝ) * big - weight (fun _ => true) kinds args
        ≤ (result.2.1.map (Node.toReal (scaleInterpretation big))).sum
          - (result.2.2.map (Node.toReal (scaleInterpretation big))).sum := by
  induction kinds generalizing args with
  | nil =>
    cases args with
    | nil => exact ⟨(false, [], []), rfl, rfl, rfl, by simp, by simp [weight]⟩
    | cons arg args => simp [summable] at sums
  | cons k kinds ih =>
    cases args with
    | nil => simp [summable] at sums
    | cons arg args =>
      simp only [summable, Bool.and_eq_true] at sums
      obtain ⟨⟨accepted, shape⟩, rest⟩ := sums
      obtain ⟨tail, loop, leftLength, rightLength, arith, gap⟩ := ih rest
      obtain ⟨q, value, nonzero, sign⟩
          : ∃ q, arg.getConst = some q ∧ q ≠ 0 ∧ wrongSign k q = false := by
        unfold acceptsScalar at accepted
        split at accepted
        · next q value => exact ⟨q, value, by simpa using accepted⟩
        · simp at accepted
      have mixed := mixedArithmetic_built value (sides k q).1 (sides k q).2
      have built : scaleChild k arg
          = mkNode k [.var (sortOf arg) (sides k q).1, .var (sortOf arg) (sides k q).2] := by
        rw [scaleChild, value, Option.getD_some]
      refine ⟨(k == .gt || k == .lt || tail.1,
        scaled arg q (.var (sortOf arg) (sides k q).1) :: tail.2.1,
        scaled arg q (.var (sortOf arg) (sides k q).2) :: tail.2.2), ?_, ?_, ?_, ?_, ?_⟩
      · simp [scaleSumUbLoop, built, mkNode, Nodes.ofList, Node.first, Node.second, Node.getKind,
          value, nonzero, sign, mixed, loop]
      · simp [leftLength]
      · simp [rightLength]
      · intro n member
        have either : n = scaled arg q (.var (sortOf arg) (sides k q).1)
            ∨ n = scaled arg q (.var (sortOf arg) (sides k q).2) ∨ n ∈ tail.2.1 ++ tail.2.2 := by
          simp only [List.cons_append, List.mem_cons, List.mem_append] at member ⊢
          tauto
        rcases either with rfl | rfl | later
        · exact scaled_built_arith value _
        · exact scaled_built_arith value _
        · exact arith n later
      · have step : (if k.isStray then |(q : ℝ)| else 0) * big - |(q : ℝ)|
            ≤ q * level big (sides k q).1 - q * level big (sides k q).2 := by
          cases stray : k.isStray with
          | true =>
            have wide := stray_gap big stray q
            have nonneg := abs_nonneg (q : ℝ)
            simp only [if_true]
            linarith
          | false =>
            have narrow := literal_gap big (by simpa [stray] using shape) q
            simpa using narrow
        simp only [List.map_cons, List.sum_cons, toReal_scaled _ value, toReal_scaleVar, weight,
          value, Option.getD_some, if_true]
        push_cast
        rw [apply_ite (Rat.cast (K := ℝ))]
        push_cast
        rw [add_mul]
        linarith

/-- Sums of arithmetic nodes are arithmetic. -/
theorem getType_add {summands : List Node} (two : 2 ≤ summands.length)
    (arith : ∀ n ∈ summands, ∃ t, n.getType = some t ∧ t.isRealOrInt = true)
    : ∃ t, (mkNode .add summands).getType = some t ∧ t.isRealOrInt = true := by
  have types : ∃ types, (Nodes.ofList summands).getTypes = some types
      ∧ types.length = summands.length ∧ types.all TypeNode.isRealOrInt = true := by
    clear two
    induction summands with
    | nil => exact ⟨[], rfl, rfl, rfl⟩
    | cons head tail ih =>
      obtain ⟨t, tEq, tArith⟩ := arith head (by simp)
      obtain ⟨rest, restEq, length, all⟩ := ih (fun n member => arith n (by simp [member]))
      refine ⟨t :: rest, ?_, by simp [length], by simp [tArith, all]⟩
      simp [Nodes.ofList, Nodes.getTypes, tEq, restEq]
  obtain ⟨types, typesEq, length, all⟩ := types
  refine ⟨if types.all (· == .int) then .int else .real, ?_, ?_⟩
  · simp only [mkNode, Node.getType, typesEq, Option.bind_some, Kind.computeType]
    rw [if_pos ⟨by omega, all⟩]
  · split <;> rfl

theorem map_getKind_built
    (sums : summable kinds args = true)
    : (List.zipWith scaleChild kinds args).map Node.getKind = kinds := by
  induction kinds generalizing args with
  | nil => rfl
  | cons k kinds ih =>
    cases args with
    | nil => simp [summable] at sums
    | cons arg args =>
      simp only [summable, Bool.and_eq_true] at sums
      rw [List.zipWith_cons_cons, List.map_cons, ih sums.2]
      rfl

theorem mem_built {child : Node}
    (member : child ∈ List.zipWith scaleChild kinds args)
    : ∃ k ∈ kinds, ∃ arg, child = scaleChild k arg := by
  induction kinds generalizing args with
  | nil => simp at member
  | cons k kinds ih =>
    cases args with
    | nil => simp at member
    | cons arg args =>
      rcases List.mem_cons.mp member with rfl | later
      · exact ⟨k, by simp, arg, rfl⟩
      · obtain ⟨other, listed, found⟩ := ih later
        exact ⟨other, by simp [listed], found⟩

/-- A summable form with a stray child has an unsound application. -/
theorem macro_unsound (two : 2 ≤ kinds.length)
    (sums : summable kinds args = true) (member : k ∈ kinds)
    (stray : k.isStray = true)
    : let b : Application := ⟨.macroArithScaleSumUb, List.zipWith scaleChild kinds args, args⟩
      b.WellSorted ∧ b.children.map Node.getKind = kinds ∧ ¬ b.Sound := by
  have shapes := literal_or_stray_of_summable sums
  have positive := weight_pos sums member stray
  obtain ⟨big, outweighs⟩ := exists_int_gt
    ((weight (fun _ => true) kinds args : ℝ) / weight Kind.isStray kinds args)
  have positiveReal : (0 : ℝ) < weight Kind.isStray kinds args := by exact_mod_cast positive
  rw [div_lt_iff₀ positiveReal] at outweighs
  obtain ⟨result, loop, leftLength, rightLength, arith, gap⟩ := scaleSumUbLoop_built big sums
  have nonneg : (0 : ℝ) ≤ weight (fun _ => true) kinds args := by
    exact_mod_cast weight_nonneg (fun _ => true) kinds args
  have large : 0 < big := by
    have product : (0 : ℝ) < big * weight Kind.isStray kinds args := by linarith
    exact_mod_cast pos_of_mul_pos_left product positiveReal.le
  refine ⟨?_, map_getKind_built sums, fun sound => ?_⟩
  · intro child listed
    obtain ⟨other, found, arg, rfl⟩ := mem_built listed
    exact scaleChild_getType (shapes other found) arg
  · obtain ⟨strict, leftSum, rightSum⟩ := result
    have length : (List.zipWith scaleChild kinds args).length = kinds.length := by
      simpa using congrArg List.length (map_getKind_built sums)
    obtain ⟨s, sEq, sArith⟩ := getType_add (leftLength.symm ▸ two)
      (fun n listed => arith n (by simp [listed]))
    obtain ⟨t, tEq, tArith⟩ := getType_add (rightLength.symm ▸ two)
      (fun n listed => arith n (by simp [listed]))
    have typed : (mkSumRelation (strict, leftSum, rightSum)).getType = some .bool := by
      rw [mkSumRelation, getType_mkNode_pair sEq tEq]
      cases strict <;> simp [Kind.computeType, sArith, tArith]
    have accepted : checkInternal .macroArithScaleSumUb (List.zipWith scaleChild kinds args) args
        = some (mkSumRelation (strict, leftSum, rightSum)) := by
      rw [checkInternal, if_neg (by omega), loop]
      rfl
    have holds := sound _ accepted typed (scaleInterpretation big) fun child listed => by
      obtain ⟨other, found, arg, rfl⟩ := mem_built listed
      exact scaleChild_holds large (shapes other found) arg
    have bound : (leftSum.map (Node.toReal (scaleInterpretation big))).sum
        ≤ (rightSum.map (Node.toReal (scaleInterpretation big))).sum := by
      rw [mkSumRelation, satisfies_mkNode_iff _ _ _ (by cases strict <;> simp), toReal_add,
        toReal_add] at holds
      cases strict with
      | false => exact holds
      | true => exact le_of_lt holds
    simp only at gap
    linarith

/-- Tightening a nonstrict integer bound is unsound at the bound itself. -/
theorem tight_unsound (id : ProofRule) {strict nonstrict : Kind} {bound : Rat → Int}
    (rule : ∀ children args, checkInternal id children args
      = checkTight strict nonstrict bound children)
    (order : nonstrict = .leq ∨ nonstrict = .geq) (integral : q.isInt = true)
    (moves : ¬ nonstrict.Relates q (bound q)) (args : List Node)
    : let b : Application :=
        ⟨id, [mkNode nonstrict [.var .int 2, .constInteger q.num]], args⟩
      b.WellSorted ∧ b.children.map Node.getKind = [nonstrict]
        ∧ b.children.map (fun child => child.first.bind Node.getType) = [some .int]
        ∧ b.children.map Node.bound = [some q] ∧ ¬ b.Sound := by
  have whole : (q.num : Rat) = q := Rat.coe_int_num_of_den_eq_one (by simpa [Rat.isInt] using integral)
  have orders : nonstrict = .lt ∨ nonstrict = .leq ∨ nonstrict = .gt ∨ nonstrict = .geq := by
    tauto
  have typed (z : Int) : (mkNode nonstrict [.var .int 2, .constInteger z]).getType = some .bool := by
    rw [getType_mkNode_pair rfl rfl]
    rcases order with rfl | rfl <;> rfl
  refine ⟨?_, rfl, rfl, ?_, fun sound => ?_⟩
  · intro child listed
    obtain rfl := List.mem_singleton.mp listed
    exact typed _
  · simp [mkNode, Nodes.ofList, Node.bound, Node.second, Node.getConst, whole]
  · have accepted : checkInternal id [mkNode nonstrict [.var .int 2, .constInteger q.num]] args
        = some (mkNode nonstrict [.var .int 2, .constInteger (bound q)]) := by
      rw [rule]
      simp [checkTight, mkNode, Nodes.ofList, Node.first, Node.second, Node.getKind, Node.getType,
        Node.getConst, whole]
    have holds := sound _ accepted (typed _) (scaleInterpretation q.num) fun child listed => by
      obtain rfl := List.mem_singleton.mp listed
      rw [satisfies_mkNode_iff _ _ _ orders]
      rcases order with rfl | rfl <;> exact le_refl _
    rw [satisfies_mkNode_iff _ _ _ orders] at holds
    refine moves ?_
    have value : (Node.var .int 2).toReal (scaleInterpretation q.num) = q := by
      rw [← whole]
      simp [Node.toReal, Node.eval, scaleInterpretation, Value.toReal]
    rwa [value, toReal_constInteger] at holds

/-- The checker is sound on every application of a form exactly when the form is guarded. -/
theorem checkInternal_sound_iff (a : Application)
    : (∀ b : Application, b.WellSorted → b.form = a.form → b.Sound) ↔ a.form.Guarded := by
  constructor
  · intro sound
    unfold Form.Guarded
    split
    case h_1 rule =>
      intro two sums k member
      by_contra stray
      obtain ⟨wellSorted, kinds, unsound⟩ :=
        macro_unsound two sums member (Bool.not_eq_false _ ▸ stray)
      refine unsound (sound _ wellSorted ?_)
      have same : a.id = .macroArithScaleSumUb := rule
      simp only [Application.form] at kinds ⊢
      rw [kinds, same]
      rfl
    case h_2 rule =>
      intro q kinds sorts bounds
      by_contra integral
      have same : a.id = .intTightLb := rule
      have moves : ¬ Kind.geq.Relates q (leastIntGreaterThan q) := by
        simp only [Kind.Relates, not_le]
        exact_mod_cast Int.lt_floor_add_one q
      obtain ⟨wellSorted, builtKinds, builtSorts, builtBounds, unsound⟩ := tight_unsound
        .intTightLb (fun _ _ => rfl) (Or.inr rfl) (Bool.not_eq_false _ ▸ integral)
        moves a.args
      refine unsound (sound _ wellSorted ?_)
      simp only [Application.form, same, ProofRule.tightens, if_true] at kinds sorts bounds ⊢
      rw [builtKinds, builtSorts, builtBounds, kinds, sorts, bounds]
    case h_3 rule =>
      intro q kinds sorts bounds
      by_contra integral
      have same : a.id = .intTightUb := rule
      have moves : ¬ Kind.leq.Relates q (greatestIntLessThan q) := by
        simp only [Kind.Relates, not_le, greatestIntLessThan]
        have below := Int.ceil_lt_add_one q
        have real : (⌈q⌉ : ℝ) < q + 1 := by exact_mod_cast below
        push_cast
        linarith
      obtain ⟨wellSorted, builtKinds, builtSorts, builtBounds, unsound⟩ := tight_unsound
        .intTightUb (fun _ _ => rfl) (Or.inl rfl) (Bool.not_eq_false _ ▸ integral)
        moves a.args
      refine unsound (sound _ wellSorted ?_)
      simp only [Application.form, same, ProofRule.tightens, if_true] at kinds sorts bounds ⊢
      rw [builtKinds, builtSorts, builtBounds, kinds, sorts, bounds]
    case h_4 => trivial
  · intro guarded b wellSorted form
    exact sound_of_guarded wellSorted (form ▸ guarded)

/-- From `x ≥ 5` the checker concludes `x ≥ 6`, and from `x ≠ y` together with `0 ≤ 0` it
concludes `x + 0 ≤ y + 0`. -/
theorem checkInternal_unsound
    : ¬ (∀ a : Application, a.WellSorted → a.Sound)
      ∧ checkInternal .intTightLb [mkNode .geq [.var .int 0, .constInteger 5]] []
        = some (mkNode .geq [.var .int 0, .constInteger 6])
      ∧ checkInternal .macroArithScaleSumUb
          [mkNode .distinct [.var .int 0, .var .int 1],
            mkNode .leq [.constInteger 0, .constInteger 0]]
          [.constInteger 1, .constInteger 1]
        = some (mkNode .leq [mkNode .add [.var .int 0, .constInteger 0],
          mkNode .add [.var .int 1, .constInteger 0]]) := by
  refine ⟨fun sound => ?_, by decide +kernel, by decide +kernel⟩
  have unsound := tight_unsound .intTightLb (q := 5)
    (fun children args => (rfl : _ = checkTight .gt .geq _ children)) (Or.inr rfl) rfl (by norm_num [Kind.Relates, leastIntGreaterThan]) []
  exact unsound.2.2.2.2 (sound _ unsound.1)

end Ava6.Arith

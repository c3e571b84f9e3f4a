import Mathlib.Tactic.LinearCombination
import Ava6.Arith.Poly.ProofChecker

/-! Monomial sums of arithmetic literals, and the isolation of one of their variables. A sum is a map from
variables to constants, where null is the variable of the constant and also the constant one. The order on
variables is arbitrary.
-/

namespace Ava6.Arith.Poly.ArithMSum

open Library PolyNorm

/-- The rational of an m-constant; null is one. -/
def toRational : Option Node → Rat
  | none => 1
  | some c => c.getConst.getD 0

def mkConstRealOrInt (r : Rat) : Node := if r.den = 1 then .constInteger r.num else .constRational r

/-- The constant of a type, which is integral if the type is Int. -/
def mkConstOfType (type : Option TypeNode) (r : Rat) : Node :=
  if type = some .int then .constInteger r.num else .constRational r

def castToReal (n : Node) : Node :=
  match n.getConst with
  | some r => .constRational r
  | none => mkNode .toReal [n]

/-- The term itself or its multiple, without mixed arithmetic. -/
def mkCoeffTerm (c : Option Node) (t : Node) : Node :=
  match c with
  | none => t
  | some c =>
      let r := toRational (some c)
      if r.den ≠ 1 ∧ t.getType ≠ some .real then mkNode .mult [c, mkNode .toReal [t]]
      else mkNode .mult [mkConstOfType t.getType r, t]

variable [LinearOrder (Option Node)]

abbrev MonomialSum := OrderedMap (Option Node) (Option Node)

omit [LinearOrder (Option Node)] in
/-- The variable and the constant of a monomial. -/
def monomialOf (n : Node) : Option Node × Option Node :=
  if n.getConst.isSome then (none, some n)
  else
    match n.getKind, n.children with
    | .mult, [c, v] => if c.getConst.isSome then (some v, some c) else (some n, none)
    | _, _ => (some n, none)

/-- Adds a monomial, unless its variable is there already. -/
def getMonomial (msum : MonomialSum) (n : Node) : Option MonomialSum :=
  match msum.find? (monomialOf n).1 with
  | none => some (msum.set (monomialOf n).1 (monomialOf n).2)
  | some _ => none

def getMonomialSum (n : Node) : Option MonomialSum :=
  if n.getKind = .add then n.children.foldlM getMonomial OrderedMap.empty
  else getMonomial OrderedMap.empty n

/-- Subtracts a monomial of the other side. -/
def subtractMonomial (msum : MonomialSum) (monomial : Option Node × Option Node) : MonomialSum :=
  match msum.find? monomial.1 with
  | some c => msum.set monomial.1 (some (mkConstRealOrInt (toRational c - toRational monomial.2)))
  | none =>
      msum.set monomial.1 (some (match monomial.2 with
        | none => .constInteger (-1)
        | some c => mkConstRealOrInt (-toRational (some c))))

/-- The sum whose relation to zero is the literal. -/
def getMonomialSumLit (lit : Node) : Option MonomialSum :=
  match lit.children with
  | [left, right] =>
      if lit.getKind = .geq ∨ (lit.getKind = .equal ∧ left.getType.any TypeNode.isRealOrInt) then do
        let msum ← getMonomialSum left
        if right.getConst = some 0 then some msum
        else
          let msum2 ← getMonomialSum right
          some (msum2.entries.foldl subtractMonomial msum)
      else none
  | _ => none

/-- The direction, the coefficient left on the variable, or null, and the other side. -/
structure Isolated where
  direction : Int
  veqc : Option Node
  val : Node
  deriving DecidableEq

omit [LinearOrder (Option Node)] in
/-- The term of a monomial; the constant of a sum is not null. -/
def monomialTerm (monomial : Option Node × Option Node) : Node :=
  match monomial.1 with
  | some x => mkCoeffTerm monomial.2 x
  | none => monomial.2.getD (.constInteger 1)

omit [LinearOrder (Option Node)] in
/-- The term of another monomial, as a real if the variable is. -/
def otherTerm (v : Node) (monomial : Option Node × Option Node) : Node :=
  let m := monomialTerm monomial
  if v.getType = some .real ∧ m.getType ≠ some .real then castToReal m else m

omit [LinearOrder (Option Node)] in
def sumOf (v : Node) : List Node → Node
  | [] => mkConstOfType v.getType 0
  | [child] => child
  | children => mkNode .add children

omit [LinearOrder (Option Node)] in
/-- Divides by the coefficient of a variable that is not of type Int. -/
def scaledBy (v : Node) (r : Rat) (sum : Node) : Node :=
  if r ≠ 1 ∧ r ≠ -1 ∧ v.getType ≠ some .int then mkNode .mult [sum, .constRational (1 / |r|)] else sum

omit [LinearOrder (Option Node)] in
def negatedFor (r : Rat) (val : Node) : Node :=
  if 0 < r then mkNode .mult [mkConstOfType val.getType (-1), val] else val

/-- Isolates a variable in the relation of a sum to zero. -/
def isolate (v : Node) (msum : MonomialSum) (k : Kind) : Option Isolated := do
  let r := toRational (← msum.find? (some v))
  if r = 0 then none
  else
    let sum := sumOf v ((msum.erase (some v)).entries.map (otherTerm v))
    some {
      direction := if 0 < r ∨ k = .equal then 1 else -1
      veqc := if r ≠ 1 ∧ r ≠ -1 ∧ v.getType = some .int then some (mkConstRealOrInt |r|) else none
      val := negatedFor r (scaledBy v r sum)
    }

/-- Solves an equality for a variable, with the other side if the variable is a side. -/
def solveEqualityFor (lit v : Node) : Option Node :=
  match lit.children with
  | [left, right] =>
      if left = v then some right
      else if right = v then some left
      else if left.getType.any TypeNode.isRealOrInt then do
        let isolated ← isolate v (← getMonomialSumLit lit) .equal
        if isolated.veqc.isNone then some isolated.val else none
      else none
  | _ => none

-- Values of terms

section Values

omit [LinearOrder (Option Node)]

variable (I : Interpretation)

/-- The node has a number as its value. -/
def IsNumber (n : Node) (x : ℝ) : Prop := n.eval I = .num x

/-- The factor that a variable is; null is one. -/
noncomputable def variableValue : Option Node → ℝ
  | none => 1
  | some v => (v.eval I).toReal

noncomputable def monomialValue (v c : Option Node) : ℝ := toRational c * variableValue I v

theorem isNumber_getConst {n : Node} {r : Rat} (isConst : n.getConst = some r) : IsNumber I n r := by
  cases n with
  | constInteger value =>
      obtain rfl : (value : Rat) = r := Option.some.inj isConst
      rw [IsNumber, Node.eval, Rat.cast_intCast]
  | constRational value =>
      obtain rfl : value = r := Option.some.inj isConst
      rfl
  | var _ _ | constBitvector _ _ | apply _ _ => cases isConst

omit I in
theorem getConst_mkConstRealOrInt (r : Rat) : (mkConstRealOrInt r).getConst = some r := by
  rw [mkConstRealOrInt]
  split
  · next isIntegral => rw [Node.getConst, (Rat.den_eq_one_iff r).mp isIntegral]
  · rfl

theorem isNumber_mkConstRealOrInt (r : Rat) : IsNumber I (mkConstRealOrInt r) r :=
  isNumber_getConst I (getConst_mkConstRealOrInt r)

theorem isNumber_mkConstOfType {type : Option TypeNode} {r : Rat} (integral : type = some .int → r.den = 1)
    : IsNumber I (mkConstOfType type r) r := by
  refine isNumber_getConst I ?_
  rw [mkConstOfType]
  split
  · next isInt => rw [Node.getConst, (Rat.den_eq_one_iff r).mp (integral isInt)]
  · rfl

variable {I} {n m : Node} {x y : ℝ}

theorem IsNumber.toReal (isNumber : IsNumber I n x) : (n.eval I).toReal = x := by
  rw [isNumber]
  rfl

theorem IsNumber.product (left : IsNumber I n x) (right : IsNumber I m y)
    : IsNumber I (mkNode .mult [n, m]) (x * y) := by
  rw [IsNumber, eval_mkNode]
  simp [Kind.apply, left.toReal, right.toReal]

theorem IsNumber.castInt (isNumber : IsNumber I n x) : IsNumber I (mkNode .toReal [n]) x := by
  rw [IsNumber, eval_mkNode]
  simp [Kind.apply, isNumber.toReal]

theorem IsNumber.castToReal (isNumber : IsNumber I n x) : IsNumber I (castToReal n) x := by
  rw [ArithMSum.castToReal]
  split
  · next r isConst =>
      have same := (isNumber_getConst I isConst).toReal
      rw [isNumber.toReal] at same
      rw [same]
      rfl
  · exact isNumber.castInt

theorem IsNumber.mkCoeffTerm {c : Option Node} (isNumber : IsNumber I n x)
    (isConst : ∀ node ∈ c, node.getConst.isSome)
    : IsNumber I (mkCoeffTerm c n) (toRational c * x) := by
  cases c with
  | none =>
      rw [toRational, Rat.cast_one, one_mul]
      exact isNumber
  | some c =>
      obtain ⟨r, isRational⟩ := Option.isSome_iff_exists.mp (isConst c rfl)
      have value : toRational (some c) = r := by rw [toRational, isRational, Option.getD_some]
      rw [ArithMSum.mkCoeffTerm]
      split
      · rw [value]
        exact (isNumber_getConst I isRational).product isNumber.castInt
      · next notMixed =>
          refine (isNumber_mkConstOfType I (fun isInt => ?_)).product isNumber
          by_contra notIntegral
          exact notMixed ⟨notIntegral, by rw [isInt]; exact nofun⟩

variable (I) in
theorem isNumber_of_type {t : TypeNode} (typed : n.getType = some t) (isArith : t.isRealOrInt = true)
    : ∃ x, IsNumber I n x :=
  ⟨_, (hasPolyValue I n t typed).arith isArith⟩

/-- A monomial with a rational constant and a variable of type Int or Real. -/
structure IsMonomial (monomial : Option Node × Option Node) : Prop where
  constant : ∀ c ∈ monomial.2, c.getConst.isSome
  notNull : monomial.1 = none → monomial.2.isSome
  arith : ∀ v ∈ monomial.1, v.getType.any TypeNode.isRealOrInt = true

theorem IsMonomial.number {monomial : Option Node × Option Node} (isMonomial : IsMonomial monomial) {v : Node}
    (isVariable : monomial.1 = some v)
    : IsNumber I v (v.eval I).toReal := by
  obtain ⟨t, typed, isArith⟩ := (Option.any_eq_true _ _).mp (isMonomial.arith v isVariable)
  obtain ⟨x, isNumber⟩ := isNumber_of_type I typed isArith
  rwa [isNumber.toReal]

theorem IsMonomial.otherTerm {v : Node} {monomial : Option Node × Option Node}
    (isMonomial : IsMonomial monomial)
    : IsNumber I (otherTerm v monomial) (monomialValue I monomial.1 monomial.2) := by
  have term : IsNumber I (monomialTerm monomial) (monomialValue I monomial.1 monomial.2) := by
    rw [monomialTerm]
    cases isVariable : monomial.1 with
    | some x => exact (isMonomial.number isVariable).mkCoeffTerm isMonomial.constant
    | none =>
        obtain ⟨c, isSome⟩ := Option.isSome_iff_exists.mp (isMonomial.notNull isVariable)
        obtain ⟨r, isConst⟩ := Option.isSome_iff_exists.mp (isMonomial.constant c isSome)
        rw [isSome, monomialValue, variableValue, mul_one, toRational, isConst]
        exact isNumber_getConst I isConst
  rw [ArithMSum.otherTerm]
  split
  · exact term.castToReal
  · exact term

theorem isNumber_sum {f : Node → ℝ} (children : List Node) (each : ∀ child ∈ children, IsNumber I child (f child))
    : IsNumber I (mkNode .add children) (children.map f).sum := by
  rw [IsNumber, eval_mkNode, Kind.apply, List.map_map]
  congr 2
  exact List.map_congr_left (fun child member => (each child member).toReal)

/-- A term of type Int or Real is its monomial. -/
theorem monomialOf_spec (isArith : n.getType.any TypeNode.isRealOrInt = true)
    : IsMonomial (monomialOf n)
      ∧ ∀ I, IsNumber I n (monomialValue I (monomialOf n).1 (monomialOf n).2) := by
  obtain ⟨t, typed, isRealOrInt⟩ := (Option.any_eq_true _ _).mp isArith
  have self : IsMonomial (some n, none) ∧ ∀ I, IsNumber I n (monomialValue I (some n) none) := by
    refine ⟨⟨nofun, nofun, fun v isNode => ?_⟩, fun I => ?_⟩
    · obtain rfl : n = v := Option.some.inj isNode
      exact isArith
    · obtain ⟨x, isNumber⟩ := isNumber_of_type I typed isRealOrInt
      rw [monomialValue, toRational, variableValue, Rat.cast_one, one_mul, isNumber.toReal]
      exact isNumber
  rw [monomialOf]
  split
  · next isConst =>
      refine ⟨⟨fun c isNode => ?_, fun _ => rfl, nofun⟩, fun I => ?_⟩
      · obtain rfl : n = c := Option.some.inj isNode
        exact isConst
      · obtain ⟨r, isRational⟩ := Option.isSome_iff_exists.mp isConst
        rw [monomialValue, variableValue, mul_one, toRational, isRational]
        exact isNumber_getConst I isRational
  · split
    · next c v isMult nodes =>
        split
        · next isConst =>
            obtain rfl : n = mkNode .mult [c, v] := by
              rw [← isMult]
              exact eq_mkNode nodes
            obtain ⟨types, ofChildren, computed⟩ := Node.getType_apply typed
            rw [Nodes.toList_ofList] at ofChildren
            obtain ⟨r, isRational⟩ := Option.isSome_iff_exists.mp isConst
            have factorArith : v.getType.any TypeNode.isRealOrInt = true := by
              obtain ⟨_, s, rfl, -, second⟩ := forall₂_pair ofChildren.flip
              simp only [Kind.computeType, Option.ite_none_right_eq_some, List.all_cons, List.all_nil,
                Bool.and_true, Bool.and_eq_true] at computed
              rw [second, Option.any_some]
              exact computed.1.2.2
            have isMonomial : IsMonomial (some v, some c) := by
              refine ⟨fun c' isNode => ?_, fun isNull => (Option.some_ne_none v isNull).elim, fun v' isNode => ?_⟩
              · obtain rfl : c = c' := Option.some.inj isNode
                exact isConst
              · obtain rfl : v = v' := Option.some.inj isNode
                exact factorArith
            refine ⟨isMonomial, fun I => ?_⟩
            have value : toRational (some c) = r := by rw [toRational, isRational, Option.getD_some]
            rw [monomialValue, value]
            exact (isNumber_getConst I isRational).product (isMonomial.number rfl)
        · exact self
    · exact self

end Values

-- Values of sums

noncomputable def value (I : Interpretation) (msum : MonomialSum) : ℝ := msum.total (monomialValue I)

def WellFormed (msum : MonomialSum) : Prop := ∀ monomial ∈ msum.entries, IsMonomial monomial

variable {msum : MonomialSum}

theorem wellFormed_set {v c : Option Node} (wellFormed : WellFormed msum)
    (isMonomial : IsMonomial (v, c))
    : WellFormed (msum.set v c) := by
  intro monomial member
  rcases OrderedMap.mem_setEntries member with isNew | old
  · rw [isNew]
    exact isMonomial
  · exact wellFormed monomial old

theorem getMonomial_spec {msum' : MonomialSum} {n : Node}
    (isArith : n.getType.any TypeNode.isRealOrInt = true) (wellFormed : WellFormed msum)
    (added : getMonomial msum n = some msum')
    : WellFormed msum' ∧ ∀ I, value I msum' = value I msum + (n.eval I).toReal := by
  obtain ⟨isMonomial, isNumber⟩ := monomialOf_spec isArith
  rw [getMonomial] at added
  split at added
  · next missing =>
      obtain rfl := Option.some.inj added
      refine ⟨wellFormed_set wellFormed isMonomial, fun I => ?_⟩
      rw [value, OrderedMap.total_set, OrderedMap.erase_of_absent missing, (isNumber I).toReal, value, add_comm]
  · cases added

theorem getMonomial_foldlM (children : List Node) {msum' : MonomialSum}
    (isArith : ∀ n ∈ children, n.getType.any TypeNode.isRealOrInt = true) (wellFormed : WellFormed msum)
    (added : children.foldlM getMonomial msum = some msum')
    : WellFormed msum' ∧ ∀ I, value I msum' = value I msum + (children.map (fun n => (n.eval I).toReal)).sum := by
  induction children generalizing msum with
  | nil =>
      obtain rfl : msum = msum' := Option.some.inj added
      exact ⟨wellFormed, fun I => by simp⟩
  | cons n children ih =>
      obtain ⟨arithN, arithRest⟩ := List.forall_mem_cons.mp isArith
      rw [List.foldlM_cons] at added
      obtain ⟨between, first, rest⟩ := Option.bind_eq_some_iff.mp added
      obtain ⟨wellFormedBetween, valueBetween⟩ := getMonomial_spec arithN wellFormed first
      obtain ⟨wellFormed', isValue⟩ := ih arithRest wellFormedBetween rest
      refine ⟨wellFormed', fun I => ?_⟩
      rw [isValue, valueBetween, List.map_cons, List.sum_cons, add_assoc]

omit [LinearOrder (Option Node)] in
/-- The summands of a sum of type Int or Real have such a type. -/
theorem arith_of_sum {n : Node} (isAdd : n.getKind = .add) (isArith : n.getType.any TypeNode.isRealOrInt = true)
    : ∀ child ∈ n.children, child.getType.any TypeNode.isRealOrInt = true := by
  obtain ⟨t, typed, -⟩ := (Option.any_eq_true _ _).mp isArith
  cases n with
  | apply k nodes =>
      obtain rfl : k = .add := isAdd
      obtain ⟨types, ofChildren, computed⟩ := Node.getType_apply typed
      simp only [Kind.computeType, Option.ite_none_right_eq_some] at computed
      have all := List.all_eq_true.mp computed.1.2
      intro child member
      obtain ⟨s, inTypes, childTyped⟩ := forall₂_exists ofChildren member
      rw [childTyped, Option.any_some]
      exact all s inTypes
  | _ => cases isAdd

/-- The sum of the monomials of a term has its value, by the lemma for adding monomials one after the other.
-/
theorem getMonomialSum_spec {n : Node}
    (isArith : n.getType.any TypeNode.isRealOrInt = true) (isSum : getMonomialSum n = some msum)
    : WellFormed msum ∧ ∀ I, IsNumber I n (value I msum) := by
  have start : WellFormed OrderedMap.empty := by
    intro monomial member
    cases member
  obtain ⟨t, typed, isRealOrInt⟩ := (Option.any_eq_true _ _).mp isArith
  have asNumber {I : Interpretation} {x : ℝ} (same : x = (n.eval I).toReal) : IsNumber I n x := by
    obtain ⟨y, isNumber⟩ := isNumber_of_type I typed isRealOrInt
    rwa [same, isNumber.toReal]
  rw [getMonomialSum] at isSum
  split at isSum
  · next isAdd =>
      obtain ⟨wellFormed, isValue⟩ := getMonomial_foldlM n.children (arith_of_sum isAdd isArith) start isSum
      refine ⟨wellFormed, fun I => asNumber ?_⟩
      rw [isValue, value, OrderedMap.total, OrderedMap.empty, List.map_nil, List.sum_nil, zero_add]
      cases n with
      | apply k nodes =>
          obtain rfl : k = .add := isAdd
          rw [Node.eval, Kind.apply, Nodes.eval_toList, Value.toReal, List.map_map]
          rfl
      | _ => cases isAdd
  · obtain ⟨wellFormed, isValue⟩ := getMonomial_spec isArith start isSum
    refine ⟨wellFormed, fun I => asNumber ?_⟩
    rw [isValue, value, OrderedMap.total, OrderedMap.empty, List.map_nil, List.sum_nil, zero_add]

omit [LinearOrder (Option Node)] in
theorem isMonomial_const {v : Option Node} {c : Node} {r : Rat}
    (isArith : ∀ x ∈ v, x.getType.any TypeNode.isRealOrInt = true) (isConst : c.getConst = some r)
    : IsMonomial (v, some c) := by
  refine ⟨fun c' isNode => ?_, fun _ => rfl, isArith⟩
  obtain rfl : c = c' := Option.some.inj isNode
  rw [isConst, Option.isSome_some]

theorem subtractMonomial_spec {monomial : Option Node × Option Node}
    (wellFormed : WellFormed msum) (isMonomial : IsMonomial monomial)
    : WellFormed (subtractMonomial msum monomial)
      ∧ ∀ I, value I (subtractMonomial msum monomial)
          = value I msum - monomialValue I monomial.1 monomial.2 := by
  rw [subtractMonomial]
  split
  · next c found =>
      refine ⟨wellFormed_set wellFormed (isMonomial_const isMonomial.arith (getConst_mkConstRealOrInt _)),
        fun I => ?_⟩
      rw [value, OrderedMap.total_set, value, OrderedMap.total_erase found, monomialValue, monomialValue,
        monomialValue, toRational, getConst_mkConstRealOrInt, Option.getD_some]
      push_cast
      ring
  · next missing =>
      have isConst : (match monomial.2 with
          | none => Node.constInteger (-1)
          | some c => mkConstRealOrInt (-toRational (some c))).getConst = some (-toRational monomial.2) := by
        cases monomial.2 with
        | none => simp [Node.getConst, toRational]
        | some c => exact getConst_mkConstRealOrInt _
      refine ⟨wellFormed_set wellFormed (isMonomial_const isMonomial.arith isConst), fun I => ?_⟩
      rw [value, OrderedMap.total_set, OrderedMap.erase_of_absent missing, value, monomialValue, monomialValue,
        toRational, isConst, Option.getD_some]
      push_cast
      ring

theorem subtractMonomial_foldl (monomials : List (Option Node × Option Node))
    (wellFormed : WellFormed msum) (areMonomials : ∀ monomial ∈ monomials, IsMonomial monomial)
    : WellFormed (monomials.foldl subtractMonomial msum)
      ∧ ∀ I, value I (monomials.foldl subtractMonomial msum)
          = value I msum - (monomials.map (fun m => monomialValue I m.1 m.2)).sum := by
  induction monomials generalizing msum with
  | nil => exact ⟨wellFormed, fun I => by simp⟩
  | cons monomial monomials ih =>
      obtain ⟨isMonomial, areRest⟩ := List.forall_mem_cons.mp areMonomials
      obtain ⟨wellFormedFirst, valueFirst⟩ := subtractMonomial_spec wellFormed isMonomial
      obtain ⟨wellFormed', isValue⟩ := ih wellFormedFirst areRest
      refine ⟨wellFormed', fun I => ?_⟩
      rw [List.foldl_cons, isValue, valueFirst, List.map_cons, List.sum_cons]
      ring

variable {k : Kind}

omit [LinearOrder (Option Node)] in
/-- The sides of a well-sorted relation are of type Int or Real. -/
theorem arith_of_relation {left right : Node}
    (typed : (mkNode k [left, right]).getType = some .bool)
    (isRelation : k = .geq ∨ (k = .equal ∧ left.getType.any TypeNode.isRealOrInt = true))
    : left.getType.any TypeNode.isRealOrInt = true ∧ right.getType.any TypeNode.isRealOrInt = true := by
  rcases isRelation with rfl | ⟨rfl, isArith⟩
  · obtain ⟨types, ofChildren, computed⟩ := Node.getType_apply typed
    rw [Nodes.toList_ofList] at ofChildren
    match types, ofChildren with
    | [_, _], .cons first (.cons second .nil) =>
        simp only [Kind.computeType, Option.ite_none_right_eq_some, Bool.and_eq_true] at computed
        rw [first, second]
        exact computed.1
  · obtain ⟨t, leftType, rightType⟩ := types_of_equality typed
    rw [leftType] at isArith ⊢
    rw [rightType]
    exact ⟨isArith, isArith⟩

/-- A literal is the relation of its monomial sum to zero. -/
theorem getMonomialSumLit_spec {lit : Node} (typed : lit.getType = some .bool)
    (isSum : getMonomialSumLit lit = some msum)
    : (lit.getKind = .equal ∨ lit.getKind = .geq) ∧ WellFormed msum
      ∧ ∀ I, I.Satisfies lit ↔ relationHolds lit.getKind (value I msum) := by
  rw [getMonomialSumLit] at isSum
  split at isSum
  · next left right nodes =>
      split at isSum
      · next isLiteral =>
          have isNode : lit = mkNode lit.getKind [left, right] := eq_mkNode nodes
          have isRel : isRelation lit.getKind = true := by
            rcases isLiteral with isGeq | ⟨isEqual, -⟩
            · rw [isGeq]
              rfl
            · rw [isEqual]
              rfl
          obtain ⟨arithLeft, arithRight⟩ := arith_of_relation (isNode ▸ typed) isLiteral
          obtain ⟨sum, isLeft, rest⟩ := Option.bind_eq_some_iff.mp isSum
          obtain ⟨wellFormed, valueLeft⟩ := getMonomialSum_spec arithLeft isLeft
          have satisfied (I : Interpretation) {x y : ℝ} (isX : IsNumber I left x) (isY : IsNumber I right y)
              : I.Satisfies lit ↔ relationHolds lit.getKind (x - y) := by
            rw [isNode, satisfies_relation I isRel isX isY]
            exact Iff.rfl
          refine ⟨isLiteral.symm.imp And.left id, ?_⟩
          split at rest
          · next isZero =>
              obtain rfl := Option.some.inj rest
              refine ⟨wellFormed, fun I => ?_⟩
              rw [satisfied I (valueLeft I) (isNumber_getConst I isZero), Rat.cast_zero, sub_zero]
          · obtain ⟨sum2, isRight, isDifference⟩ := Option.bind_eq_some_iff.mp rest
            obtain ⟨wellFormed2, valueRight⟩ := getMonomialSum_spec arithRight isRight
            obtain rfl := Option.some.inj isDifference
            obtain ⟨wellFormed', isValue⟩ := subtractMonomial_foldl sum2.entries wellFormed wellFormed2
            refine ⟨wellFormed', fun I => ?_⟩
            rw [satisfied I (valueLeft I) (valueRight I), isValue]
            exact Iff.rfl
      · cases isSum
  · cases isSum

-- Values of isolated variables

section Isolation

omit [LinearOrder (Option Node)]

/-- The variable with the coefficient left on it. -/
def Isolated.side (isolated : Isolated) (v : Node) : Node :=
  match isolated.veqc with
  | none => v
  | some c => mkNode .mult [c, v]

/-- The relation between the variable and the other side, reversed for the direction -1. -/
def Isolated.literal (isolated : Isolated) (v : Node) (k : Kind) : Node :=
  if isolated.direction = -1 then mkNode k [isolated.val, isolated.side v]
  else mkNode k [isolated.side v, isolated.val]

/-- What the other terms are divided by. -/
def divisor (v : Node) (r : Rat) : Rat := if r ≠ 1 ∧ r ≠ -1 ∧ v.getType ≠ some .int then |r| else 1

variable {I : Interpretation} {v n : Node} {r : Rat} {x : ℝ}

theorem isNumber_sumOf {f : Node → ℝ} (children : List Node)
    (each : ∀ child ∈ children, IsNumber I child (f child))
    : IsNumber I (sumOf v children) (children.map f).sum := by
  match children with
  | [] =>
      have isZero := isNumber_mkConstOfType I (fun _ : v.getType = some .int => (rfl : (0 : Rat).den = 1))
      rwa [Rat.cast_zero] at isZero
  | [child] =>
      rw [List.map_singleton, List.sum_singleton]
      exact each child (by simp)
  | _ :: _ :: _ => exact isNumber_sum _ each

theorem isNumber_scaledBy (isNumber : IsNumber I n x)
    : IsNumber I (scaledBy v r n) (x / divisor v r) := by
  rw [scaledBy, divisor]
  split
  · have product := isNumber.product (isNumber_getConst I (rfl : (Node.constRational (1 / |r|)).getConst = some _))
    have same : x * ((1 / |r| : Rat) : ℝ) = x / (|r| : Rat) := by
      push_cast
      ring
    rwa [same] at product
  · rwa [Rat.cast_one, div_one]

theorem isNumber_negatedFor (isNumber : IsNumber I n x)
    : IsNumber I (negatedFor r n) (if 0 < r then -x else x) := by
  rw [negatedFor]
  split
  · have minusOne := isNumber_mkConstOfType I (fun _ : n.getType = some .int => (rfl : (-1 : Rat).den = 1))
    have product := minusOne.product isNumber
    rwa [Rat.cast_neg, Rat.cast_one, neg_one_mul] at product
  · exact isNumber

theorem divisor_pos (v : Node) (nonzero : r ≠ 0) : 0 < divisor v r := by
  rw [divisor]
  split
  · exact abs_pos.mpr nonzero
  · exact one_pos

/-- The coefficient left on the variable, and the divisor of the others. -/
theorem isNumber_side {isolated : Isolated} (isVariable : IsNumber I v x)
    (left : isolated.veqc = if r ≠ 1 ∧ r ≠ -1 ∧ v.getType = some .int then some (mkConstRealOrInt |r|) else none)
    : ∃ e : Rat, e * divisor v r = |r| ∧ IsNumber I (isolated.side v) (e * x) := by
  rw [Isolated.side, left, divisor]
  by_cases isUnit : r = 1 ∨ r = -1
  · have unit : |r| = 1 := by
      rcases isUnit with rfl | rfl
      · exact abs_one
      · rw [abs_neg, abs_one]
    have notScaled {p : Prop} : ¬(r ≠ 1 ∧ r ≠ -1 ∧ p) := fun scaled => isUnit.elim scaled.1 scaled.2.1
    refine ⟨1, ?_, ?_⟩
    · rw [if_neg notScaled, unit, one_mul]
    · rw [if_neg notScaled, Rat.cast_one, one_mul]
      exact isVariable
  · obtain ⟨notOne, notMinusOne⟩ := not_or.mp isUnit
    by_cases isInt : v.getType = some .int
    · refine ⟨|r|, ?_, ?_⟩
      · rw [if_neg (fun scaled => scaled.2.2 isInt), mul_one]
      · rw [if_pos ⟨notOne, notMinusOne, isInt⟩]
        exact (isNumber_mkConstRealOrInt I |r|).product isVariable
    · refine ⟨1, ?_, ?_⟩
      · rw [if_pos ⟨notOne, notMinusOne, isInt⟩, one_mul]
      · rw [if_neg (fun scaled => isInt scaled.2.2), Rat.cast_one, one_mul]
        exact isVariable

theorem relationHolds_div {k : Kind} {d : Rat} (positive : 0 < d) (y : ℝ)
    : relationHolds k (y / d) ↔ relationHolds k y := by
  have inverse : (0 : ℝ) < (d : ℝ)⁻¹ := inv_pos.mpr (by exact_mod_cast positive)
  rw [div_eq_inv_mul]
  exact relationHolds_mul inverse k y

end Isolation

/-- The terms of the other monomials sum up to the value of the sum, whichever types they are cast to. -/
theorem isNumber_otherTerms {I : Interpretation} {v : Node} (wellFormed : WellFormed msum)
    : IsNumber I (sumOf v (msum.entries.map (otherTerm v))) (value I msum) := by
  have each (monomial : Option Node × Option Node) (member : monomial ∈ msum.entries)
      : IsNumber I (otherTerm v monomial) (monomialValue I monomial.1 monomial.2) :=
    (wellFormed monomial member).otherTerm
  have sum : IsNumber I (sumOf v (msum.entries.map (otherTerm v)))
      ((msum.entries.map (otherTerm v)).map (fun n => (n.eval I).toReal)).sum := by
    refine isNumber_sumOf _ (fun child member => ?_)
    obtain ⟨monomial, inEntries, rfl⟩ := List.mem_map.mp member
    rw [(each monomial inEntries).toReal]
    exact each monomial inEntries
  rw [List.map_map] at sum
  have same : msum.entries.map ((fun n => (n.eval I).toReal) ∘ otherTerm v)
      = msum.entries.map (fun m => monomialValue I m.1 m.2) :=
    List.map_congr_left (fun monomial member => (each monomial member).toReal)
  rwa [same] at sum

theorem WellFormed.erase (wellFormed : WellFormed msum) (v : Option Node)
    : WellFormed (msum.erase v) :=
  fun monomial member => wellFormed monomial (List.mem_of_mem_filter member)

/-- Isolation keeps the relation of the sum to zero. -/
theorem isolate_spec {v : Node} {isolated : Isolated}
    (isRel : k = .equal ∨ k = .geq) (wellFormed : WellFormed msum) (found : isolate v msum k = some isolated)
    : (isolated.direction = 1 ∨ (isolated.direction = -1 ∧ k = .geq))
      ∧ ∀ I, relationHolds k (value I msum) ↔ I.Satisfies (isolated.literal v k) := by
  have isRelation' : isRelation k = true := by rcases isRel with rfl | rfl <;> rfl
  rw [isolate] at found
  obtain ⟨c, isMonomial, rest⟩ := Option.bind_eq_some_iff.mp found
  dsimp only at rest
  split at rest
  · cases rest
  · next nonzero =>
      have isIsolated := (Option.some.inj rest).symm
      have inSum := wellFormed _ (OrderedMap.find?_eq_some.mp isMonomial)
      generalize isR : toRational c = r at nonzero isIsolated
      have isDirection : isolated.direction = if 0 < r ∨ k = .equal then 1 else -1 := by rw [isIsolated]
      refine ⟨?_, fun I => ?_⟩
      · rw [isDirection]
        split
        · exact Or.inl rfl
        · next reversed => exact Or.inr ⟨rfl, isRel.resolve_left (not_or.mp reversed).2⟩
      · -- The value of the sum, of the isolated side and of the other side.
        have isVariable : IsNumber I v (v.eval I).toReal := inSum.number rfl
        have isValue : value I msum = r * (v.eval I).toReal + value I (msum.erase (some v)) := by
          rw [value, OrderedMap.total_erase isMonomial, monomialValue, isR, variableValue, value]
        have isCoefficient : isolated.veqc
            = if r ≠ 1 ∧ r ≠ -1 ∧ v.getType = some .int then some (mkConstRealOrInt |r|) else none := by
          rw [isIsolated]
        obtain ⟨e, product, isSide⟩ := isNumber_side isVariable isCoefficient
        have isVal : IsNumber I isolated.val (if 0 < r then -(value I (msum.erase (some v)) / divisor v r)
            else value I (msum.erase (some v)) / divisor v r) := by
          rw [isIsolated]
          exact isNumber_negatedFor (isNumber_scaledBy (isNumber_otherTerms (wellFormed.erase _)))
        have positive := divisor_pos v nonzero
        have positive' : (divisor v r : ℝ) ≠ 0 := by exact_mod_cast ne_of_gt positive
        have product' : (e : ℝ) * divisor v r = |(r : ℝ)| := by exact_mod_cast product
        generalize value I (msum.erase (some v)) = rest at isValue isVal
        generalize (v.eval I).toReal = x at isValue isSide
        rw [isValue, ← relationHolds_div positive, Isolated.literal]
        rcases lt_or_gt_of_ne nonzero with negative | positiveR
        · have negative' : (r : ℝ) < 0 := by exact_mod_cast negative
          rw [if_neg (not_lt_of_gt negative)] at isVal
          rw [abs_of_neg negative'] at product'
          have difference : rest / divisor v r - e * x = (r * x + rest) / divisor v r := by
            field_simp
            linear_combination -x * product'
          rcases isRel with rfl | rfl
          · rw [isDirection, if_pos (Or.inr rfl), if_neg (by decide), satisfies_relation I rfl isSide isVal,
              ← difference]
            exact ⟨fun isZero => by rw [relationHolds] at *; linarith,
              fun isZero => by rw [relationHolds] at *; linarith⟩
          · have reversed : ¬(0 < r ∨ Kind.geq = .equal) :=
              not_or.mpr ⟨not_lt_of_gt negative, fun isSame => by cases isSame⟩
            rw [isDirection, if_neg reversed, if_pos rfl, satisfies_relation I rfl isVal isSide, difference]
        · have positiveR' : (0 : ℝ) < r := by exact_mod_cast positiveR
          rw [if_pos positiveR] at isVal
          rw [abs_of_pos positiveR'] at product'
          have difference : e * x - -(rest / divisor v r) = (r * x + rest) / divisor v r := by
            field_simp
            linear_combination x * product'
          rw [isDirection, if_pos (Or.inl positiveR), if_neg (by decide),
            satisfies_relation I isRelation' isSide isVal, difference]

-- Solved forms

/-- Sums of multiples of some terms, with casts and constants. -/
inductive LinearOver (terms : Set Node) : Node → Prop
  | term {n : Node} (member : n ∈ terms) : LinearOver terms n
  | constant {c : Node} (isConst : c.getConst.isSome) : LinearOver terms c
  | multiple {c n : Node} (isConst : c.getConst.isSome) (linear : LinearOver terms n)
    : LinearOver terms (mkNode .mult [c, n])
  | scaled {c n : Node} (linear : LinearOver terms n) (isConst : c.getConst.isSome)
    : LinearOver terms (mkNode .mult [n, c])
  | cast {n : Node} (linear : LinearOver terms n) : LinearOver terms (mkNode .toReal [n])
  | sum {nodes : List Node} (each : ∀ n ∈ nodes, LinearOver terms n) : LinearOver terms (mkNode .add nodes)

section LinearTerms

omit [LinearOrder (Option Node)]

variable {terms : Set Node} {n : Node}

theorem isSome_mkConstOfType (type : Option TypeNode) (r : Rat) : (mkConstOfType type r).getConst.isSome := by
  rw [mkConstOfType]
  split <;> rfl

theorem LinearOver.castToReal (linear : LinearOver terms n) : LinearOver terms (castToReal n) := by
  rw [ArithMSum.castToReal]
  split
  · exact .constant rfl
  · exact linear.cast

theorem LinearOver.mkCoeffTerm {c : Option Node} (isConst : ∀ node ∈ c, node.getConst.isSome)
    (linear : LinearOver terms n)
    : LinearOver terms (mkCoeffTerm c n) := by
  cases c with
  | none => exact linear
  | some c =>
      rw [ArithMSum.mkCoeffTerm]
      split
      · exact .multiple (isConst c rfl) linear.cast
      · exact .multiple (isSome_mkConstOfType _ _) linear

theorem linearOver_otherTerm {v : Node} {monomial : Option Node × Option Node} (isMonomial : IsMonomial monomial)
    (inTerms : ∀ x ∈ monomial.1, x ∈ terms)
    : LinearOver terms (otherTerm v monomial) := by
  have term : LinearOver terms (monomialTerm monomial) := by
    rw [monomialTerm]
    cases isVariable : monomial.1 with
    | some x => exact (LinearOver.term (inTerms x isVariable)).mkCoeffTerm isMonomial.constant
    | none =>
        obtain ⟨c, isSome⟩ := Option.isSome_iff_exists.mp (isMonomial.notNull isVariable)
        rw [isSome, Option.getD_some]
        exact .constant (isMonomial.constant c isSome)
  rw [otherTerm]
  split
  · exact term.castToReal
  · exact term

theorem linearOver_sumOf {v : Node} (children : List Node) (each : ∀ child ∈ children, LinearOver terms child)
    : LinearOver terms (sumOf v children) := by
  match children with
  | [] => exact .constant (isSome_mkConstOfType _ _)
  | [child] => exact each child (by simp)
  | _ :: _ :: _ => exact .sum each

theorem LinearOver.scaledBy {v : Node} {r : Rat} (linear : LinearOver terms n)
    : LinearOver terms (scaledBy v r n) := by
  rw [ArithMSum.scaledBy]
  split
  · exact linear.scaled rfl
  · exact linear

theorem LinearOver.negatedFor {r : Rat} (linear : LinearOver terms n)
    : LinearOver terms (negatedFor r n) := by
  rw [ArithMSum.negatedFor]
  split
  · exact .multiple (isSome_mkConstOfType _ _) linear
  · exact linear

end LinearTerms

/-- The variables of a sum other than the isolated one. -/
def otherVariables (msum : MonomialSum) (v : Node) : Set Node :=
  { x | x ≠ v ∧ (msum.find? (some x)).isSome }

/-- The other side is made from the other variables only. -/
theorem linearOver_isolate {v : Node} {isolated : Isolated}
    (wellFormed : WellFormed msum) (found : isolate v msum k = some isolated)
    : LinearOver (otherVariables msum v) isolated.val := by
  rw [isolate] at found
  obtain ⟨c, isMonomial, rest⟩ := Option.bind_eq_some_iff.mp found
  dsimp only at rest
  split at rest
  · cases rest
  · obtain rfl := Option.some.inj rest
    refine ((linearOver_sumOf _ (fun child member => ?_)).scaledBy).negatedFor
    obtain ⟨monomial, inOthers, rfl⟩ := List.mem_map.mp member
    refine linearOver_otherTerm (wellFormed.erase _ monomial inOthers) (fun x isVariable => ⟨?_, ?_⟩)
    · rintro rfl
      exact absurd isVariable (by simpa using (List.mem_filter.mp inOthers).2)
    · have member' : (some x, monomial.2) ∈ msum.entries := by
        rw [← Option.mem_def.mp isVariable]
        exact List.mem_of_mem_filter inOthers
      rw [OrderedMap.find?_eq_some.mpr member', Option.isSome_some]

/-- A solution is equivalent to the equality. Either the variable is a side, or the solution is linear in
the others.
-/
theorem solveEqualityFor_spec {lit v t : Node} (typed : lit.getType = some .bool) (isEquality : lit.getKind = .equal)
    (solved : solveEqualityFor lit v = some t)
    : (∀ I : Interpretation, I.Satisfies lit ↔ I.Satisfies (mkNode .equal [v, t]))
      ∧ ((lit.children = [v, t] ∨ lit.children = [t, v])
        ∨ v ∉ lit.children ∧ ∃ msum, getMonomialSumLit lit = some msum ∧ LinearOver (otherVariables msum v) t) := by
  rw [solveEqualityFor] at solved
  split at solved
  · next left right nodes =>
      have isNode : lit = mkNode .equal [left, right] := by
        rw [← isEquality]
        exact eq_mkNode nodes
      split at solved
      · next isLeft =>
          obtain rfl := Option.some.inj solved
          subst isLeft
          exact ⟨fun I => by rw [isNode], Or.inl (Or.inl nodes)⟩
      · next notLeft =>
        split at solved
        · next isRight =>
            obtain rfl := Option.some.inj solved
            subst isRight
            refine ⟨fun I => ?_, Or.inl (Or.inr nodes)⟩
            rw [isNode, satisfies_equal, satisfies_equal]
            exact eq_comm
        · next notRight =>
          split at solved
          · obtain ⟨msum, isSum, rest⟩ := Option.bind_eq_some_iff.mp solved
            obtain ⟨isolated, isIsolated, isVal⟩ := Option.bind_eq_some_iff.mp rest
            obtain ⟨-, wellFormed, represented⟩ := getMonomialSumLit_spec typed isSum
            split at isVal
            · next isNull =>
                obtain rfl := Option.some.inj isVal
                obtain ⟨isDirection, kept⟩ := isolate_spec (Or.inl rfl) wellFormed isIsolated
                have direction : isolated.direction ≠ -1 := by
                  rcases isDirection with isOne | ⟨-, isGeq⟩
                  · rw [isOne]
                    decide
                  · cases isGeq
                have notSide : v ∉ lit.children := by
                  simp [nodes, Ne.symm notLeft, Ne.symm notRight]
                refine ⟨fun I => ?_, Or.inr ⟨notSide, msum, isSum, linearOver_isolate wellFormed isIsolated⟩⟩
                rw [represented, isEquality, kept, Isolated.literal, if_neg direction, Isolated.side,
                  Option.isNone_iff_eq_none.mp isNull]
            · cases isVal
          · cases solved
  · cases solved

/-- Isolation keeps the meaning of a literal, which is the relation of its monomial sum to zero. An equality
is solved by the other side, if the variable is a side, or by a term over the other variables. -/
theorem isolation_keeps_literal (lit : Node) (typed : lit.getType = some .bool)
    : (∀ msum, getMonomialSumLit lit = some msum
        → (lit.getKind = .equal ∨ lit.getKind = .geq)
          ∧ (∀ I : Interpretation, I.Satisfies lit ↔ relationHolds lit.getKind (value I msum))
          ∧ ∀ v isolated, isolate v msum lit.getKind = some isolated
            → (isolated.direction = 1 ∨ isolated.direction = -1)
              ∧ ∀ I : Interpretation, I.Satisfies lit ↔ I.Satisfies (isolated.literal v lit.getKind))
      ∧ ∀ v t, lit.getKind = .equal → solveEqualityFor lit v = some t
        → (∀ I : Interpretation, I.Satisfies lit ↔ I.Satisfies (mkNode .equal [v, t]))
          ∧ ((lit.children = [v, t] ∨ lit.children = [t, v])
            ∨ v ∉ lit.children
              ∧ ∃ msum, getMonomialSumLit lit = some msum ∧ LinearOver (otherVariables msum v) t) := by
  refine ⟨fun msum isSum => ?_, fun v t isEquality solved => solveEqualityFor_spec typed isEquality solved⟩
  obtain ⟨isRel, wellFormed, represented⟩ := getMonomialSumLit_spec typed isSum
  refine ⟨isRel, represented, fun v isolated found => ?_⟩
  obtain ⟨isDirection, kept⟩ := isolate_spec isRel wellFormed found
  exact ⟨isDirection.imp id And.left, fun I => (represented I).trans (kept I)⟩

section Instances

omit [LinearOrder (Option Node)]

/-- An order of the variables. -/
noncomputable abbrev variableOrder : LinearOrder (Option Node) :=
  @linearOrderOfSTO _ WellOrderingRel _ (Classical.decRel _)

/-- A variable is isolated in its multiple by a negative integer. -/
theorem isolate_multiple (z : Int) (negative : z < 0) (k : Kind)
    : @isolate variableOrder (.var .int 0)
        (@OrderedMap.set _ _ variableOrder (@OrderedMap.empty _ _ variableOrder) (some (.var .int 0))
          (some (.constInteger z))) k
      = some ⟨if k = .equal then 1 else -1, if z = -1 then none else some (.constInteger (-z)),
          .constInteger 0⟩ := by
  have notZero : (z : Rat) ≠ 0 := by exact_mod_cast ne_of_lt negative
  have notPositive : ¬(0 : Rat) < z := by exact_mod_cast not_lt_of_gt negative
  have notOne : z ≠ 1 := by omega
  have isMinusOne : (z : Rat) = -1 ↔ z = -1 := by exact_mod_cast Iff.rfl
  have isAbs : |(z : Rat)| = ((-z : Int) : Rat) := by
    rw [abs_of_neg (by exact_mod_cast negative), Int.cast_neg]
  have isInt : (Node.var .int 0).getType = some .int := rfl
  let _ := variableOrder
  have found : (OrderedMap.empty.set (some (Node.var .int 0)) (some (Node.constInteger z))).find?
      (some (.var .int 0)) = some (some (.constInteger z)) :=
    OrderedMap.find?_eq_some.mpr (List.mem_singleton.mpr rfl)
  have noOthers : ((OrderedMap.empty.set (some (Node.var .int 0)) (some (Node.constInteger z))).erase
      (some (.var .int 0))).entries = [] := by
    simp [OrderedMap.erase, OrderedMap.filter, OrderedMap.set, OrderedMap.setEntries, OrderedMap.empty]
  rw [isolate, found, Option.bind_eq_bind, Option.bind_some, noOthers]
  simp [toRational, Node.getConst, notZero, notPositive, notOne, isMinusOne, isAbs, isInt, negatedFor, scaledBy,
    sumOf, mkConstOfType, mkConstRealOrInt, ite_not]

/-- `(>= (* -2 x) 0)` is `(>= 0 (* 2 x))`, and `(= (* -1 x) 0)` is solved by zero. -/
theorem multiples_isolated
    : (∀ I : Interpretation,
        I.Satisfies (mkNode .geq [mkNode .mult [.constInteger (-2), .var .int 0], .constInteger 0])
          ↔ I.Satisfies (mkNode .geq [.constInteger 0, mkNode .mult [.constInteger 2, .var .int 0]]))
      ∧ ∀ I : Interpretation,
        I.Satisfies (mkNode .equal [mkNode .mult [.constInteger (-1), .var .int 0], .constInteger 0])
          ↔ I.Satisfies (mkNode .equal [.var .int 0, .constInteger 0]) := by
  constructor
  · obtain ⟨isolated, -⟩ := @isolation_keeps_literal variableOrder
      (mkNode .geq [mkNode .mult [.constInteger (-2), .var .int 0], .constInteger 0]) (by decide)
    obtain ⟨-, -, kept⟩ := isolated _ rfl
    exact (kept _ _ (isolate_multiple (-2) (by decide) .geq)).2
  · obtain ⟨-, solved⟩ := @isolation_keeps_literal variableOrder
      (mkNode .equal [mkNode .mult [.constInteger (-1), .var .int 0], .constInteger 0]) (by decide)
    refine (solved (.var .int 0) (.constInteger 0) rfl ?_).1
    have isolated := isolate_multiple (-1) (by decide) .equal
    have isSum : @getMonomialSumLit variableOrder
        (mkNode .equal [mkNode .mult [.constInteger (-1), .var .int 0], .constInteger 0])
        = some (@OrderedMap.set _ _ variableOrder (@OrderedMap.empty _ _ variableOrder) (some (.var .int 0))
          (some (.constInteger (-1)))) := rfl
    unfold solveEqualityFor
    rw [isSum]
    simp only [Option.bind_eq_bind, Option.bind_some, isolated]
    rfl

/-- If the variable is a side, then it may be a summand of the other side as well: `x` in `(= x (+ x 1))`. -/
theorem solved_by_other_side
    : (mkNode .equal [.var .int 0, mkNode .add [.var .int 0, .constInteger 1]]).getType = some .bool
      ∧ @solveEqualityFor variableOrder
        (mkNode .equal [.var .int 0, mkNode .add [.var .int 0, .constInteger 1]]) (.var .int 0)
          = some (mkNode .add [.var .int 0, .constInteger 1])
      ∧ .var .int 0 ∈ (mkNode .add [.var .int 0, .constInteger 1]).children := by
  refine ⟨by decide, rfl, by decide⟩

end Instances

end Ava6.Arith.Poly.ArithMSum

import Mathlib.Tactic.Linarith
import Mathlib.Tactic.Ring
import Ava6.Arith.Rewriter.Node

/-! Elimination of arithmetic operators: an application is replaced by a purification skolem with a lemma about it, and
the partial operators by their total ones and a function for division by zero.
-/

namespace Ava6.Arith.Rewriter.OperatorElim

def mkConstRealOrInt (tn : TypeNode) (z : Int) : Node := if tn = .real then .constRational z else .constInteger z

def mkZero (tn : TypeNode) : Node := mkConstRealOrInt tn 0

def mkInRange (term start finish : Node) : Node := mkNode .and [mkNode .leq [start, term], mkNode .lt [term, finish]]

/-- The eliminated form, the lemmas with their skolems, and whether a non-linear logic is required. -/
structure Elimination where
  node : Node
  lems : List (Node × Node)
  wasNonLinear : Bool

def unchanged (node : Node) : Elimination := ⟨node, [], false⟩

/-- The division-by-zero functions take real arguments, or integer ones. -/
def getArithSkolemApp (function : Kind) (n : Node) : Node :=
  if function = .divByZero ∧ n.getType = .int then mkNode function [mkNode .toReal [n]] else mkNode function [n]

section Elimination

-- the name of the purification skolem of a term
variable (skolem : Node → Nat)

def mkPurifySkolem (t : Node) : Node := .var t.getType (skolem t)

def eliminateToInteger (isPred : Bool) (x : Node) : Elimination :=
  let v := mkPurifySkolem skolem (mkNode .toInteger [x])
  let vr := mkNode .toReal [v]
  let lem := mkInRange (mkNode .sub [x, vr]) (.constRational 0) (.constRational 1)
  ⟨if isPred then mkNode .equal [x, vr] else v, [(lem, v)], false⟩

def eliminateLog2 (x : Node) : Elimination :=
  let zero := Node.constInteger 0
  let v := mkPurifySkolem skolem (mkNode .intsLog2 [x])
  let ptv := mkNode .pow2 [v]
  let ptv1 := mkNode .pow2 [mkNode .add [v, .constInteger 1]]
  let posAssumption := mkNode .lt [zero, x]
  let posLem := mkNode .implies [posAssumption, mkNode .and [mkNode .leq [ptv, x], mkNode .lt [x, ptv1]]]
  let negLem := mkNode .implies [mkNode .not [posAssumption], mkNode .equal [v, zero]]
  ⟨v, [(mkNode .and [posLem, negLem], v)], false⟩

/-- `den * v <= num < den * (v + shift)` -/
def quotientRange (num den v : Node) (shift : Int) : Node :=
  mkNode .and [mkNode .leq [mkNode .mult [den, v], num],
    mkNode .lt [num, mkNode .mult [den, mkNode .add [v, .constInteger shift]]]]

def quotientLemma (num den v : Node) : Node :=
  match den.getConst with
  | some rat => quotientRange num den v (if 0 < rat then 1 else -1)
  | none => mkNode .and
      [mkNode .implies [mkNode .gt [den, .constInteger 0], quotientRange num den v 1],
        mkNode .implies [mkNode .lt [den, .constInteger 0], quotientRange num den v (-1)]]

def eliminateDivModTotal (isMod : Bool) (num den : Node) : Elimination :=
  -- the modulus uses the skolem of the quotient
  let v := mkPurifySkolem skolem (mkNode .intsDivisionTotal [num, den])
  ⟨if isMod then mkNode .sub [num, mkNode .mult [den, v]] else v, [(quotientLemma num den v, v)], !den.isConst⟩

def eliminateDivisionTotal (num den : Node) : Elimination :=
  if den.isConst then unchanged (mkNode .divisionTotal [num, den])
  else
    let v := mkPurifySkolem skolem (mkNode .divisionTotal [num, den])
    let num := if num.getType = .int then mkNode .toReal [num] else num
    let den := if den.getType = .int then mkNode .toReal [den] else den
    let lem := mkNode .implies [mkNode .not [mkNode .equal [den, mkZero den.getType]],
      mkNode .equal [mkNode .mult [den, v], num]]
    ⟨v, [(lem, v)], true⟩

/-- A partial operator, by its total one. -/
def eliminatePartial (total function : Kind) (zero num den : Node) : Elimination :=
  let ret := mkNode total [num, den]
  match den.getConst with
  | some rat =>
      if rat = 0 then
        ⟨mkNode .ite [mkNode .equal [den, zero], getArithSkolemApp function num, ret], [], true⟩
      else unchanged ret
  | none => ⟨mkNode .ite [mkNode .equal [den, zero], getArithSkolemApp function num, ret], [], true⟩

def eliminateAbs (x : Node) : Elimination :=
  unchanged (mkNode .ite [mkNode .lt [x, mkConstRealOrInt x.getType 0], mkNode .neg [x], x])

/-- One step of elimination, at the top symbol. -/
def eliminateOperators (partialOnly : Bool) (node : Node) : Elimination :=
  match node with
  | .apply .toInteger (.cons x .nil) => if partialOnly then unchanged node else eliminateToInteger skolem false x
  | .apply .isInteger (.cons x .nil) => if partialOnly then unchanged node else eliminateToInteger skolem true x
  | .apply .intsLog2 (.cons x .nil) => if partialOnly then unchanged node else eliminateLog2 skolem x
  | .apply .intsDivisionTotal (.cons num (.cons den .nil)) =>
      if partialOnly then unchanged node else eliminateDivModTotal skolem false num den
  | .apply .intsModulusTotal (.cons num (.cons den .nil)) =>
      if partialOnly then unchanged node else eliminateDivModTotal skolem true num den
  | .apply .divisionTotal (.cons num (.cons den .nil)) =>
      if partialOnly then unchanged node else eliminateDivisionTotal skolem num den
  | .apply .division (.cons num (.cons den .nil)) =>
      eliminatePartial .divisionTotal .divByZero (mkZero den.getType) num den
  | .apply .intsDivision (.cons num (.cons den .nil)) =>
      eliminatePartial .intsDivisionTotal .intDivByZero (.constInteger 0) num den
  | .apply .intsModulus (.cons num (.cons den .nil)) =>
      eliminatePartial .intsModulusTotal .modByZero (.constInteger 0) num den
  | .apply .abs (.cons x .nil) => eliminateAbs x
  | _ => unchanged node

def mkAnd : List Node → Node
  | [lem] => lem
  | lems => mkNode .and lems

/-- The equality with the eliminated form, and the lemmas. -/
def getAxiomFor (n : Node) : Option Node :=
  let eliminated := eliminateOperators skolem false n
  if eliminated.node = n then none
  else
    let eqLem := mkNode .equal [n, eliminated.node]
    if eliminated.lems.isEmpty then some eqLem
    else some (mkNode .and [eqLem, mkAnd (eliminated.lems.map Prod.fst)])

end Elimination

/-- Applications of the operators that are eliminated, well-sorted. -/
def isOperator : Node → Bool
  | .apply .toInteger (.cons x .nil) | .apply .isInteger (.cons x .nil) | .apply .abs (.cons x .nil) =>
      x.getType.isRealOrInt
  | .apply .intsLog2 (.cons x .nil) => x.getType == .int
  | .apply .intsDivisionTotal (.cons num (.cons den .nil)) | .apply .intsModulusTotal (.cons num (.cons den .nil))
  | .apply .intsDivision (.cons num (.cons den .nil)) | .apply .intsModulus (.cons num (.cons den .nil)) =>
      num.getType == .int && den.getType == .int
  | .apply .divisionTotal (.cons num (.cons den .nil)) | .apply .division (.cons num (.cons den .nil)) =>
      num.getType.isRealOrInt && den.getType.isRealOrInt
  | _ => false

/-- A total integer operator with the constant zero as divisor. -/
def dividesByConstantZero : Node → Bool
  | .apply .intsDivisionTotal (.cons _ (.cons den .nil)) | .apply .intsModulusTotal (.cons _ (.cons den .nil)) =>
      den.getConst == some 0
  | _ => false

/-- The divisor of an application. -/
def divisor : Node → Option Node
  | .apply .intsDivisionTotal (.cons _ (.cons den .nil)) | .apply .intsModulusTotal (.cons _ (.cons den .nil))
  | .apply .intsDivision (.cons _ (.cons den .nil)) | .apply .intsModulus (.cons _ (.cons den .nil))
  | .apply .divisionTotal (.cons _ (.cons den .nil)) | .apply .division (.cons _ (.cons den .nil)) => some den
  | _ => none

/-- The term that the skolem of an application stands for. -/
def purified : Node → Node
  | .apply .isInteger (.cons x .nil) => mkNode .toInteger [x]
  | .apply .intsModulusTotal (.cons num (.cons den .nil)) => mkNode .intsDivisionTotal [num, den]
  | node => node

section Formulas

variable (I : Interpretation) {k : Kind} {first second : Node}

theorem satisfies_and : I.Satisfies (mkNode .and [first, second]) ↔ I.Satisfies first ∧ I.Satisfies second := by
  rw [Interpretation.Satisfies, value_mkNode]
  refine truth_eq_one.trans ?_
  simp [Interpretation.Satisfies]

theorem satisfies_implies
    : I.Satisfies (mkNode .implies [first, second]) ↔ (I.Satisfies first → I.Satisfies second) := by
  rw [Interpretation.Satisfies, value_mkNode]
  exact truth_eq_one

theorem satisfies_relation (isRelation : k.isRelation = true)
    : I.Satisfies (mkNode k [first, second]) ↔ k.relates (first.value I) (second.value I) := by
  rw [Interpretation.Satisfies, value_relation I isRelation]
  exact truth_eq_one

theorem satisfies_not_relation (isRelation : k.isRelation = true)
    : I.Satisfies (mkNode .not [mkNode k [first, second]]) ↔ ¬k.relates (first.value I) (second.value I) := by
  rw [Interpretation.Satisfies, value_mkNode, List.map_cons, value_relation I isRelation]
  change 1 - truth _ = 1 ↔ _
  rw [one_sub_truth]
  exact truth_eq_one

theorem value_ite (condition first second : Node) [Decidable (I.Satisfies condition)]
    : (mkNode .ite [condition, first, second]).value I
      = if I.Satisfies condition then first.value I else second.value I := by
  rw [value_mkNode]
  change (if _ then _ else _) = _
  exact if_congr Iff.rfl rfl rfl

theorem value_mkConstRealOrInt (tn : TypeNode) (z : Int) : (mkConstRealOrInt tn z).value I = z := by
  unfold mkConstRealOrInt
  split
  · rw [Node.value, Rat.cast_intCast]
  · rw [Node.value]

theorem value_add : (mkNode .add [first, second]).value I = first.value I + second.value I := by
  rw [value_mkNode]
  simp [Kind.apply]

theorem value_mult : (mkNode .mult [first, second]).value I = first.value I * second.value I := by
  rw [value_mkNode]
  simp [Kind.apply]

theorem value_sub : (mkNode .sub [first, second]).value I = first.value I - second.value I := value_mkNode ..

theorem value_toReal : (mkNode .toReal [first]).value I = first.value I := value_mkNode ..

end Formulas

-- The lemmas determine the skolems

section Lemmas

variable (I : Interpretation) {x num den v : Node}

theorem toInteger_lemma (isInt : v.getType = .int)
    : I.Satisfies (mkInRange (mkNode .sub [x, mkNode .toReal [v]]) (.constRational 0) (.constRational 1))
      ↔ v.value I = (mkNode .toInteger [x]).value I := by
  obtain ⟨z, isValue⟩ := integer_of_getType I isInt
  have isFloor : (mkNode .toInteger [x]).value I = (⌊x.value I⌋ : Int) := value_mkNode ..
  rw [mkInRange, satisfies_and, satisfies_relation I rfl, satisfies_relation I rfl, value_sub, value_toReal, isFloor,
    isValue, Int.cast_inj, eq_comm, Int.floor_eq_iff]
  simp only [Kind.relates, Node.value, Rat.cast_zero, Rat.cast_one]
  constructor
  · rintro ⟨atLeast, below⟩
    constructor <;> linarith
  · rintro ⟨atLeast, below⟩
    constructor <;> linarith

theorem value_pow2 {z : Int} (isValue : v.value I = z)
    : (mkNode .pow2 [v]).value I = ((if 0 ≤ z then 2 ^ z.toNat else 0 : Int) : ℝ) := by
  rw [value_mkNode, List.map_cons, isValue]
  change (if (0 : ℝ) ≤ z then _ else _) = _
  rw [Int.floor_intCast]
  simp only [Int.cast_nonneg_iff]
  split
  · simp
  · simp

/-- The logarithm of a positive number is where it lies between powers. -/
theorem log2_iff {x z : Int} (positive : 0 < x)
    : (if 0 ≤ z then 2 ^ z.toNat else 0 : Int) ≤ x ∧ x < (if 0 ≤ z + 1 then 2 ^ (z + 1).toNat else 0 : Int)
      ↔ z = Nat.log 2 x.toNat := by
  obtain ⟨n, rfl⟩ := Int.eq_ofNat_of_zero_le positive.le
  have nonzero : n ≠ 0 := by omega
  constructor
  · rintro ⟨atLeast, below⟩
    have zNonneg : 0 ≤ z := by
      by_contra negative
      split at below
      · next isZero =>
          obtain rfl : z = -1 := by omega
          simp at below
          omega
      · omega
    obtain ⟨m, rfl⟩ := Int.eq_ofNat_of_zero_le zNonneg
    rw [if_pos zNonneg, Int.toNat_natCast] at atLeast
    rw [if_pos (by omega), show ((m : Int) + 1).toNat = m + 1 by omega] at below
    rw [Int.toNat_natCast, (Nat.log_eq_iff (Or.inr ⟨Nat.one_lt_two, nonzero⟩)).mpr]
    exact ⟨by exact_mod_cast atLeast, by exact_mod_cast below⟩
  · rintro rfl
    obtain ⟨atLeast, below⟩ := (Nat.log_eq_iff (Or.inr ⟨Nat.one_lt_two, nonzero⟩)).mp (rfl : Nat.log 2 n = Nat.log 2 n)
    rw [Int.toNat_natCast, if_pos (by omega), if_pos (by omega), Int.toNat_natCast,
      show ((Nat.log 2 n : Int) + 1).toNat = Nat.log 2 n + 1 by omega]
    exact ⟨by exact_mod_cast atLeast, by exact_mod_cast below⟩

theorem log2_lemma (isInt : v.getType = .int) (xInt : x.getType = .int)
    : I.Satisfies (mkNode .and
        [mkNode .implies [mkNode .lt [.constInteger 0, x],
          mkNode .and [mkNode .leq [mkNode .pow2 [v], x],
            mkNode .lt [x, mkNode .pow2 [mkNode .add [v, .constInteger 1]]]]],
        mkNode .implies [mkNode .not [mkNode .lt [.constInteger 0, x]], mkNode .equal [v, .constInteger 0]]])
      ↔ v.value I = (mkNode .intsLog2 [x]).value I := by
  obtain ⟨z, isValue⟩ := integer_of_getType I isInt
  obtain ⟨n, xValue⟩ := integer_of_getType I xInt
  have isLog : (mkNode .intsLog2 [x]).value I = ((Nat.log 2 n.toNat : Int) : ℝ) := by
    rw [value_mkNode, List.map_cons, xValue]
    change ((Nat.log 2 ⌊(n : ℝ)⌋.toNat : Nat) : ℝ) = _
    rw [Int.floor_intCast, Int.cast_natCast]
  have nextValue : (mkNode .add [v, .constInteger 1]).value I = ((z + 1 : Int) : ℝ) := by
    rw [value_add, isValue, Node.value, Int.cast_add]
  rw [satisfies_and, satisfies_implies, satisfies_implies, satisfies_and, satisfies_relation I rfl,
    satisfies_relation I rfl, satisfies_relation I rfl, satisfies_not_relation I rfl, satisfies_relation I rfl,
    value_pow2 I isValue, value_pow2 I nextValue, isLog, isValue, xValue]
  simp only [Kind.relates, Node.value, Int.cast_le, Int.cast_lt, Int.cast_inj]
  by_cases positive : 0 < n
  · simp only [positive, forall_const, not_true_eq_false, false_implies, and_true]
    exact log2_iff positive
  · have noLog : Nat.log 2 n.toNat = 0 := by rw [Int.toNat_of_nonpos (not_lt.mp positive), Nat.log_zero_right]
    simp [positive, noLog]

/-- Quotients are where the multiples of the divisor lie around the dividend. -/
theorem quotient_iff {n d q : Int} {shift : Int} (isShift : 0 < d ∧ shift = 1 ∨ d < 0 ∧ shift = -1)
    : d * q ≤ n ∧ n < d * (q + shift) ↔ q = n / d := by
  have ofPositive {d q : Int} (positive : 0 < d) : d * q ≤ n ∧ n < d * (q + 1) ↔ q = n / d := by
    constructor
    · rintro ⟨atLeast, below⟩
      refine le_antisymm ?_ ?_
      · rw [Int.le_ediv_iff_mul_le positive, mul_comm]
        exact atLeast
      · rw [← Int.lt_add_one_iff, Int.ediv_lt_iff_lt_mul positive, mul_comm]
        exact below
    · rintro rfl
      refine ⟨Int.mul_ediv_self_le positive.ne', ?_⟩
      rw [mul_comm]
      exact Int.lt_ediv_add_one_mul_self n positive
  rcases isShift with ⟨positive, rfl⟩ | ⟨negative, rfl⟩
  · exact ofPositive positive
  · have flipped := @ofPositive (-d) (-q) (by omega)
    have product : -d * -q = d * q := by ring
    have next : -d * (-q + 1) = d * (q + -1) := by ring
    rw [product, next, Int.ediv_neg] at flipped
    rw [flipped, neg_inj]

theorem quotientRange_iff {n d q shift : Int} (isNum : num.value I = n) (isDen : den.value I = d)
    (isValue : v.value I = q)
    : I.Satisfies (quotientRange num den v shift) ↔ d * q ≤ n ∧ n < d * (q + shift) := by
  rw [quotientRange, satisfies_and, satisfies_relation I rfl, satisfies_relation I rfl, value_mult, value_mult, value_add,
    isNum, isDen, isValue]
  simp only [Kind.relates, Node.value]
  norm_cast

theorem value_intsDivisionTotal {n d : Int} (isNum : num.value I = n) (isDen : den.value I = d)
    : (mkNode .intsDivisionTotal [num, den]).value I = ((n / d : Int) : ℝ) := by
  rw [value_mkNode, List.map_cons, List.map_cons, isNum, isDen]
  change ((⌊(n : ℝ)⌋ / ⌊(d : ℝ)⌋ : Int) : ℝ) = _
  rw [Int.floor_intCast, Int.floor_intCast]

/-- The lemma holds of the quotient, and only of the quotient unless the divisor is zero. -/
theorem quotient_lemma (isInt : v.getType = .int) (numInt : num.getType = .int) (denInt : den.getType = .int)
    (notZero : den.getConst ≠ some 0)
    : (v.value I = (mkNode .intsDivisionTotal [num, den]).value I → I.Satisfies (quotientLemma num den v))
      ∧ (den.value I ≠ 0 → I.Satisfies (quotientLemma num den v)
        → v.value I = (mkNode .intsDivisionTotal [num, den]).value I) := by
  obtain ⟨q, isValue⟩ := integer_of_getType I isInt
  obtain ⟨n, isNum⟩ := integer_of_getType I numInt
  obtain ⟨d, isDen⟩ := integer_of_getType I denInt
  have range {shift : Int} (isShift : 0 < d ∧ shift = 1 ∨ d < 0 ∧ shift = -1)
      : I.Satisfies (quotientRange num den v shift) ↔ q = n / d :=
    (quotientRange_iff I isNum isDen isValue).trans (quotient_iff isShift)
  rw [value_intsDivisionTotal I isNum isDen, isValue, isDen, Int.cast_inj, Int.cast_ne_zero]
  unfold quotientLemma
  split
  · next rat isConst =>
      have isRat : (rat : ℝ) = d := (value_of_getConst I isConst).symm.trans isDen
      have ratNonzero : rat ≠ 0 := fun isZero => notZero (isZero ▸ isConst)
      have isShift : 0 < d ∧ (if 0 < rat then (1 : Int) else -1) = 1 ∨ d < 0 ∧ (if 0 < rat then (1 : Int) else -1) = -1 := by
        have same : rat = (d : Rat) := by exact_mod_cast isRat
        rw [same] at ratNonzero ⊢
        rcases lt_trichotomy d 0 with negative | isZero | positive
        · exact Or.inr ⟨negative, if_neg (by simpa using negative.le)⟩
        · simp [isZero] at ratNonzero
        · exact Or.inl ⟨positive, if_pos (by simpa using positive)⟩
      rw [range isShift]
      exact ⟨id, fun _ => id⟩
  · rw [satisfies_and, satisfies_implies, satisfies_implies, satisfies_relation I rfl, satisfies_relation I rfl, isDen]
    simp only [Kind.relates, Node.value, Int.cast_lt]
    constructor
    · intro isQuotient
      exact ⟨fun positive => (range (Or.inl ⟨positive, rfl⟩)).mpr isQuotient,
        fun negative => (range (Or.inr ⟨negative, rfl⟩)).mpr isQuotient⟩
    · rintro nonzero ⟨ofPositive, ofNegative⟩
      rcases lt_or_gt_of_ne nonzero with negative | positive
      · exact (range (Or.inr ⟨negative, rfl⟩)).mp (ofNegative negative)
      · exact (range (Or.inl ⟨positive, rfl⟩)).mp (ofPositive positive)

end Lemmas

-- Exact eliminations

section Exact

variable (skolem : Node → Nat) (I : Interpretation) {node pterm : Node}

/-- What the elimination of an application means: its lemmas hold if the skolem has the value of the purified term,
they leave it no other value if the divisor is not zero, and the result then has the value of the application. -/
structure Exact (node : Node) (eliminated : Elimination) : Prop where
  skolems : ∀ p ∈ eliminated.lems, p.2 = mkPurifySkolem skolem (purified node)
  holds : (mkPurifySkolem skolem (purified node)).value I = (purified node).value I
    → (∀ p ∈ eliminated.lems, I.Satisfies p.1) ∧ eliminated.node.value I = node.value I
  unique : (∀ den, divisor node = some den → den.value I ≠ 0) → (∀ p ∈ eliminated.lems, I.Satisfies p.1)
    → (∀ p ∈ eliminated.lems, p.2.value I = (purified node).value I) ∧ eliminated.node.value I = node.value I

theorem Exact.of_value {eliminated : Elimination} (noLemmas : eliminated.lems = [])
    (same : eliminated.node.value I = node.value I)
    : Exact skolem I node eliminated := by
  refine ⟨?_, fun _ => ⟨?_, same⟩, fun _ _ => ⟨?_, same⟩⟩
  all_goals
    rw [noLemmas]
    exact List.forall_mem_nil _

theorem Exact.of_lemma {res lem : Node} {wasNonLinear : Bool} (isPurified : purified node = pterm)
    (holds : (mkPurifySkolem skolem pterm).value I = pterm.value I → I.Satisfies lem)
    (unique : (∀ den, divisor node = some den → den.value I ≠ 0) → I.Satisfies lem
      → (mkPurifySkolem skolem pterm).value I = pterm.value I)
    (result : (mkPurifySkolem skolem pterm).value I = pterm.value I → res.value I = node.value I)
    : Exact skolem I node ⟨res, [(lem, mkPurifySkolem skolem pterm)], wasNonLinear⟩ := by
  subst isPurified
  refine ⟨?_, fun isValue => ⟨?_, result isValue⟩, fun nonzero satisfied => ?_⟩
  · intro p member
    rw [List.mem_singleton.mp member]
  · intro p member
    rw [List.mem_singleton.mp member]
    exact holds isValue
  · have isValue := unique nonzero (satisfied _ List.mem_cons_self)
    refine ⟨fun p member => ?_, result isValue⟩
    rw [List.mem_singleton.mp member]
    exact isValue

theorem exact_toInteger (x : Node) : Exact skolem I (mkNode .toInteger [x]) (eliminateToInteger skolem false x) :=
  .of_lemma skolem I rfl (toInteger_lemma I rfl).mpr (fun _ => (toInteger_lemma I rfl).mp) id

theorem exact_isInteger (x : Node) : Exact skolem I (mkNode .isInteger [x]) (eliminateToInteger skolem true x) := by
  refine .of_lemma skolem I rfl (toInteger_lemma I rfl).mpr (fun _ => (toInteger_lemma I rfl).mp) (fun isValue => ?_)
  have isFloor : (mkNode .toInteger [x]).value I = (⌊x.value I⌋ : Int) := value_mkNode ..
  have isPredicate : (mkNode .isInteger [x]).value I = truth (IsInteger (x.value I)) := value_mkNode ..
  rw [if_pos rfl, @value_relation I .equal rfl, value_toReal, isValue, isFloor, isPredicate]
  refine truth_congr ⟨fun same => ⟨_, same⟩, fun integral => integral.floor.symm⟩

theorem exact_log2 {x : Node} (xInt : x.getType = .int)
    : Exact skolem I (mkNode .intsLog2 [x]) (eliminateLog2 skolem x) :=
  .of_lemma skolem I rfl (log2_lemma I rfl xInt).mpr (fun _ => (log2_lemma I rfl xInt).mp) id

variable {num den : Node}

theorem exact_division (numInt : num.getType = .int) (denInt : den.getType = .int) (notZero : den.getConst ≠ some 0)
    : Exact skolem I (mkNode .intsDivisionTotal [num, den]) (eliminateDivModTotal skolem false num den) := by
  obtain ⟨holds, unique⟩ := @quotient_lemma I num den (mkPurifySkolem skolem (mkNode .intsDivisionTotal [num, den]))
    rfl numInt denInt notZero
  exact .of_lemma skolem I rfl holds (fun nonzero => unique (nonzero den rfl)) id

/-- The remainder is what the quotient leaves, by the lemma that defines the quotient. -/
theorem exact_modulus (numInt : num.getType = .int) (denInt : den.getType = .int) (notZero : den.getConst ≠ some 0)
    : Exact skolem I (mkNode .intsModulusTotal [num, den]) (eliminateDivModTotal skolem true num den) := by
  obtain ⟨holds, unique⟩ := @quotient_lemma I num den (mkPurifySkolem skolem (mkNode .intsDivisionTotal [num, den]))
    rfl numInt denInt notZero
  refine .of_lemma skolem I rfl holds (fun nonzero => unique (nonzero den rfl)) (fun isValue => ?_)
  obtain ⟨n, isNum⟩ := integer_of_getType I numInt
  obtain ⟨d, isDen⟩ := integer_of_getType I denInt
  have isModulus : (mkNode .intsModulusTotal [num, den]).value I = ((n % d : Int) : ℝ) := by
    rw [value_mkNode, List.map_cons, List.map_cons, isNum, isDen]
    change ((⌊(n : ℝ)⌋ % ⌊(d : ℝ)⌋ : Int) : ℝ) = _
    rw [Int.floor_intCast, Int.floor_intCast]
  rw [if_pos rfl, value_sub, value_mult, isValue, value_intsDivisionTotal I isNum isDen, isModulus, isNum, isDen,
    Int.emod_def]
  push_cast
  rfl

/-- The skolem of a total division is its quotient by the lemma that defines it. -/
theorem exact_divisionTotal (num den : Node)
    : Exact skolem I (mkNode .divisionTotal [num, den]) (eliminateDivisionTotal skolem num den) := by
  unfold eliminateDivisionTotal
  split
  · exact .of_value skolem I rfl rfl
  · have cast (n : Node) : (if n.getType = .int then mkNode .toReal [n] else n).value I = n.value I := by
      split
      · exact value_toReal I
      · rfl
    have isQuotient : (mkNode .divisionTotal [num, den]).value I = num.value I / den.value I := value_mkNode ..
    have meaning : I.Satisfies (mkNode .implies
        [mkNode .not [mkNode .equal [if den.getType = .int then mkNode .toReal [den] else den,
          mkZero (if den.getType = .int then mkNode .toReal [den] else den).getType]],
        mkNode .equal [mkNode .mult [if den.getType = .int then mkNode .toReal [den] else den,
          mkPurifySkolem skolem (mkNode .divisionTotal [num, den])],
          if num.getType = .int then mkNode .toReal [num] else num]])
        ↔ (den.value I ≠ 0
          → den.value I * (mkPurifySkolem skolem (mkNode .divisionTotal [num, den])).value I = num.value I) := by
      rw [satisfies_implies, @satisfies_not_relation I .equal _ _ rfl, @satisfies_relation I .equal _ _ rfl, cast,
        value_mult, cast, cast, mkZero, value_mkConstRealOrInt]
      simp [Kind.relates]
    refine .of_lemma skolem I rfl (fun isValue => meaning.mpr (fun nonzero => ?_)) (fun nonzero satisfied => ?_) id
    · rw [isValue, isQuotient, mul_div_cancel₀ _ nonzero]
    · have denNonzero := nonzero den rfl
      rw [isQuotient, eq_div_iff denNonzero, mul_comm]
      exact meaning.mp satisfied denNonzero

/-- A partial operator is its total one where the divisor is not zero, and the function of the dividend where it is. -/
theorem exact_partial {total function kind : Kind} {zero : Node} (isZero : zero.value I = 0)
    (atZero : den.value I = 0 → (getArithSkolemApp function num).value I = (mkNode kind [num, den]).value I)
    (elsewhere : den.value I ≠ 0 → (mkNode total [num, den]).value I = (mkNode kind [num, den]).value I)
    : Exact skolem I (mkNode kind [num, den]) (eliminatePartial total function zero num den) := by
  have guarded : (mkNode .ite [mkNode .equal [den, zero], getArithSkolemApp function num,
      mkNode total [num, den]]).value I = (mkNode kind [num, den]).value I := by
    classical
    rw [value_ite, @satisfies_relation I .equal _ _ rfl, isZero]
    split
    · next same => exact atZero same
    · next differs => exact elsewhere differs
  unfold eliminatePartial
  split
  · next rat isConst =>
      split
      · exact .of_value skolem I rfl guarded
      · next nonzero =>
          refine .of_value skolem I rfl (elsewhere ?_)
          rw [value_of_getConst I isConst]
          exact Rat.cast_ne_zero.mpr nonzero
  · exact .of_value skolem I rfl guarded

theorem exact_abs (x : Node) : Exact skolem I (mkNode .abs [x]) (eliminateAbs x) := by
  refine .of_value skolem I rfl ?_
  have isAbs : (mkNode .abs [x]).value I = |x.value I| := value_mkNode ..
  have isNeg : (mkNode .neg [x]).value I = -x.value I := value_mkNode ..
  classical
  change (mkNode .ite _).value I = _
  rw [value_ite, @satisfies_relation I .lt _ _ rfl, value_mkConstRealOrInt, isAbs, isNeg]
  split
  · next negative => exact (abs_of_neg (by simpa [Kind.relates] using negative)).symm
  · next nonneg => exact (abs_of_nonneg (by simpa [Kind.relates] using nonneg)).symm

theorem value_getArithSkolemApp (function : Kind) (n : Node)
    : (getArithSkolemApp function n).value I = (mkNode function [n]).value I := by
  unfold getArithSkolemApp
  split
  · rw [value_mkNode, List.map_cons, value_toReal, value_mkNode]
    rfl
  · rfl

theorem exact_division_partial (num den : Node)
    : Exact skolem I (mkNode .division [num, den])
      (eliminatePartial .divisionTotal .divByZero (mkZero den.getType) num den) := by
  have isDivision : (mkNode .division [num, den]).value I
      = if den.value I = 0 then I.divideByZero (num.value I) else num.value I / den.value I := by
    rw [value_mkNode]
    exact if_congr Iff.rfl rfl rfl
  refine exact_partial skolem I ?_ (fun isZero => ?_) (fun nonzero => ?_)
  · rw [mkZero, value_mkConstRealOrInt, Int.cast_zero]
  · rw [value_getArithSkolemApp, value_mkNode, isDivision, if_pos isZero]
    rfl
  · rw [value_mkNode, isDivision, if_neg nonzero]
    rfl

theorem exact_intsDivision (num den : Node)
    : Exact skolem I (mkNode .intsDivision [num, den])
      (eliminatePartial .intsDivisionTotal .intDivByZero (.constInteger 0) num den) := by
  have isDivision : (mkNode .intsDivision [num, den]).value I
      = if den.value I = 0 then (I.intDivideByZero ⌊num.value I⌋ : ℝ) else (⌊num.value I⌋ / ⌊den.value I⌋ : Int) := by
    rw [value_mkNode]
    exact if_congr Iff.rfl rfl rfl
  refine exact_partial skolem I Int.cast_zero (fun isZero => ?_) (fun nonzero => ?_)
  · rw [value_getArithSkolemApp, value_mkNode, isDivision, if_pos isZero]
    rfl
  · rw [value_mkNode, isDivision, if_neg nonzero]
    rfl

theorem exact_intsModulus (num den : Node)
    : Exact skolem I (mkNode .intsModulus [num, den])
      (eliminatePartial .intsModulusTotal .modByZero (.constInteger 0) num den) := by
  have isModulus : (mkNode .intsModulus [num, den]).value I
      = if den.value I = 0 then (I.modulusByZero ⌊num.value I⌋ : ℝ) else (⌊num.value I⌋ % ⌊den.value I⌋ : Int) := by
    rw [value_mkNode]
    exact if_congr Iff.rfl rfl rfl
  refine exact_partial skolem I Int.cast_zero (fun isZero => ?_) (fun nonzero => ?_)
  · rw [value_getArithSkolemApp, value_mkNode, isModulus, if_pos isZero]
    rfl
  · rw [value_mkNode, isModulus, if_neg nonzero]
    rfl

/-- All operators are eliminated exactly, if there is no division by a constant zero. -/
theorem exact_eliminateOperators (partialOnly : Bool) (operator : isOperator node = true)
    (notZero : dividesByConstantZero node = false)
    : Exact skolem I node (eliminateOperators skolem partialOnly node) := by
  have keep : Exact skolem I node (unchanged node) := .of_value skolem I rfl rfl
  have ints {num den : Node} (typed : (num.getType == .int && den.getType == .int) = true)
      : num.getType = .int ∧ den.getType = .int := by simpa using typed
  unfold isOperator at operator
  split at operator
  · cases partialOnly with
    | true => exact keep
    | false => exact exact_toInteger skolem I _
  · cases partialOnly with
    | true => exact keep
    | false => exact exact_isInteger skolem I _
  · exact exact_abs skolem I _
  · cases partialOnly with
    | true => exact keep
    | false => exact exact_log2 skolem I (beq_iff_eq.mp operator)
  · cases partialOnly with
    | true => exact keep
    | false =>
        obtain ⟨numInt, denInt⟩ := ints operator
        exact exact_division skolem I numInt denInt (by simpa [dividesByConstantZero] using notZero)
  · cases partialOnly with
    | true => exact keep
    | false =>
        obtain ⟨numInt, denInt⟩ := ints operator
        exact exact_modulus skolem I numInt denInt (by simpa [dividesByConstantZero] using notZero)
  · exact exact_intsDivision skolem I _ _
  · exact exact_intsModulus skolem I _ _
  · cases partialOnly with
    | true => exact keep
    | false => exact exact_divisionTotal skolem I _ _
  · exact exact_division_partial skolem I _ _
  · cases operator

omit skolem in
theorem satisfies_mkAnd {lems : List Node} (satisfied : ∀ lem ∈ lems, I.Satisfies lem) : I.Satisfies (mkAnd lems) := by
  have conjunction : I.Satisfies (mkNode .and lems) := by
    rw [Interpretation.Satisfies, value_mkNode]
    refine truth_eq_one.mpr (fun x isChild => ?_)
    obtain ⟨lem, member, rfl⟩ := List.mem_map.mp isChild
    exact satisfied lem member
  match lems with
  | [lem] => exact satisfied lem List.mem_cons_self
  | [] => exact conjunction
  | _ :: _ :: _ => exact conjunction

/-- The axiom says that the eliminated form is equal, and its lemmas. -/
theorem satisfies_getAxiomFor {eliminated : Elimination} {formula : Node} (exact : Exact skolem I node eliminated)
    (isEliminated : eliminateOperators skolem false node = eliminated)
    (isAxiom : getAxiomFor skolem node = some formula)
    (isValue : (mkPurifySkolem skolem (purified node)).value I = (purified node).value I)
    : I.Satisfies formula := by
  obtain ⟨lemmas, same⟩ := exact.holds isValue
  have equal : I.Satisfies (mkNode .equal [node, eliminated.node]) := by
    rw [@satisfies_relation I .equal _ _ rfl]
    exact same.symm
  unfold getAxiomFor at isAxiom
  simp only [isEliminated] at isAxiom
  split at isAxiom
  · cases isAxiom
  · split at isAxiom
    · rw [← Option.some.inj isAxiom]
      exact equal
    · rw [← Option.some.inj isAxiom, satisfies_and]
      refine ⟨equal, ?_⟩
      refine satisfies_mkAnd I (fun lem member => ?_)
      obtain ⟨p, isLemma, rfl⟩ := List.mem_map.mp member
      exact lemmas p isLemma

end Exact

/-- Operators are eliminated exactly: the lemma and the axiom hold if the skolem has the value of the purified term,
the lemma determines the skolem if the divisor is not zero, and the result has the value of the application. The divisor
of a total integer operator must not be the constant zero. -/
theorem operators_eliminated (skolem : Node → Nat) (partialOnly : Bool) (node : Node)
    (operator : isOperator node = true) (notZero : dividesByConstantZero node = false) (I : Interpretation)
    : Exact skolem I node (eliminateOperators skolem partialOnly node)
      ∧ ((mkPurifySkolem skolem (purified node)).value I = (purified node).value I
        → ∀ formula, getAxiomFor skolem node = some formula → I.Satisfies formula) := by
  refine ⟨exact_eliminateOperators skolem I partialOnly operator notZero, fun isValue formula isAxiom => ?_⟩
  exact satisfies_getAxiomFor skolem I (exact_eliminateOperators skolem I false operator notZero) rfl isAxiom isValue

/-- All variables and partial results are zero. -/
def zeros : Interpretation where
  var _ _ := 0
  term _ _ := 0
  divideByZero _ := 0
  intDivideByZero _ := 0
  modulusByZero _ := 0
  power _ _ := 0
  var_int _ := IsInteger.zero
  term_int _ := IsInteger.zero
  var_bitVector w _ := ⟨0#w, by simp⟩
  term_bitVector w _ := ⟨0#w, by simp⟩
  power_int _ _ := IsInteger.zero

/-- The modulus of a variable and `-3`. -/
theorem modulus_eliminated
    : let node := mkNode .intsModulusTotal [.var .int 0, .constInteger (-3)]
      isOperator node = true ∧ dividesByConstantZero node = false
        ∧ Exact (fun _ => 1) zeros node (eliminateOperators (fun _ => 1) false node) := by
  intro node
  have operator : isOperator node = true := by decide
  have notZero : dividesByConstantZero node = false := by decide
  exact ⟨operator, notZero, (operators_eliminated (fun _ => 1) false node operator notZero zeros).1⟩

/-- The lemma about a total division by the constant zero is false, whatever the skolem is. -/
theorem constant_zero_lemma_false
    : let node := mkNode .intsDivisionTotal [.var .int 0, .constInteger 0]
      isOperator node = true
        ∧ (mkPurifySkolem (fun _ => 1) (purified node)).value zeros = (purified node).value zeros
        ∧ ¬∀ p ∈ (eliminateOperators (fun _ => 1) false node).lems, zeros.Satisfies p.1 := by
  intro node
  have isNum : (Node.var .int 0).value zeros = ((0 : Int) : ℝ) := Int.cast_zero.symm
  have isDen : (Node.constInteger 0).value zeros = ((0 : Int) : ℝ) := rfl
  have isSkolem : (mkPurifySkolem (fun _ => 1) node).value zeros = ((0 : Int) : ℝ) := Int.cast_zero.symm
  refine ⟨by decide, ?_, fun satisfied => ?_⟩
  · exact isSkolem.trans (value_intsDivisionTotal zeros isNum isDen).symm
  · have range := satisfied (quotientLemma (.var .int 0) (.constInteger 0) (mkPurifySkolem (fun _ => 1) node),
      mkPurifySkolem (fun _ => 1) node) List.mem_cons_self
    have bounds := (quotientRange_iff zeros isNum isDen isSkolem).mp range
    omega

end Ava6.Arith.Rewriter.OperatorElim

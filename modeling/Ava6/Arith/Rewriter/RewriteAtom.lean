import Mathlib.Algebra.Order.Archimedean.Real.Basic
import Ava6.Library.Content
import Ava6.Arith.Rewriter.Addition

/-! The rewriter of arithmetic atoms: relations become a normal form of the sum that is compared with zero, and
equalities are only oriented like their normal form.
-/

namespace Ava6.Arith.Rewriter

open Library

def evaluateRelation (rel : Kind) (l r : Rat) : Bool :=
  match rel with
  | .lt => decide (l < r)
  | .leq => decide (l ≤ r)
  | .equal => decide (l = r)
  | .distinct => decide (l ≠ r)
  | .geq => decide (r ≤ l)
  | .gt => decide (r < l)
  | _ => false

def tryEvaluateRelation (rel : Kind) (left right : Node) : Option Bool :=
  match left.getConst, right.getConst with
  | some l, some r => some (evaluateRelation rel l r)
  | _, _ => none

def tryEvaluateRelationReflexive (rel : Kind) (left right : Node) : Option Bool :=
  if left = right then
    match rel with
    | .lt => some false
    | .leq => some true
    | .equal => some true
    | .distinct => some false
    | .geq => some true
    | .gt => some false
    | _ => none
  else none

def buildRelation (kind : Kind) (left right : Node) (negate : Bool) : Node :=
  match tryEvaluateRelation kind left right with
  | some response => .constBoolean (response != negate)
  | none => if negate then mkNode .not [mkNode kind [left, right]] else mkNode kind [left, right]

section Normalise

variable [LinearOrder Node]

/-- The summands from the leading term on, after a constant. -/
def getLTermIt (sum : Sum) : List (Monomial × Rat) :=
  match sum.entries with
  | [] => []
  | front :: rest => if front.1.node.isConst then rest else front :: rest

/-- The coefficient of the leading term. -/
def lcoeff (sum : Sum) : Rat :=
  match getLTermIt sum with
  | [] => 0
  | lterm :: _ => lterm.2

/-- Makes the leading coefficient one or minus one. -/
def normalizeLCoeffAbsOne (sum : Sum) : Sum :=
  match sum.entries with
  | [] => sum
  | [front] => sum.assign front.1 (if 0 < front.2 then 1 else -1)
  | _ => sum.scale |lcoeff sum|⁻¹

/-- The coefficients of the summands that are not constant. -/
def coefficients (sum : Sum) : List Rat := (sum.entries.filter (fun s => !s.1.node.isConst)).map Prod.snd

/-- Makes all coefficients but the constant integral, with greatest common divisor one, and also the leading
coefficient positive if `followLCoeffSign`. Returns whether the sum has been negated. -/
def normalizeGCDLCM (sum : Sum) (followLCoeffSign : Bool) : Sum × Bool :=
  let denLCM := commonDenominator (coefficients sum)
  let numGCD := commonNumerator (coefficients sum)
  if numGCD = 0 then (sum, false)
  else
    let mult : Rat := denLCM / numGCD
    if followLCoeffSign && decide (lcoeff sum < 0) then (sum.scale (-mult), true)
    else (sum.scale mult, false)

/-- Removes the first of the summands with the least absolute coefficient. -/
def removeMinAbsCoeff (sum : Sum) : (Monomial × Rat) × Sum :=
  match getLTermIt sum with
  | [] => ((⟨.constInteger 1⟩, 0), sum)
  | lterm :: rest =>
      let min := rest.foldl
        (fun min s => if s.1.node.isConst then min else if |s.2| < |min.2| then s else min) lterm
      (min, sum.erase min.1)

def removeConstant (sum : Sum) : Rat × Sum :=
  match sum.entries with
  | [] => (0, sum)
  | front :: _ => if front.1.node.isConst then (front.2, sum.erase front.1) else (0, sum)

def removeLTerm (sum : Sum) : (Monomial × Rat) × Sum :=
  match getLTermIt sum with
  | [] => ((⟨.constInteger 1⟩, 0), sum)
  | lterm :: _ => (lterm, sum.erase lterm.1)

/-- The constant of a sum is not integral. -/
def hasFraction (sum : Sum) : Bool :=
  match sum.entries with
  | [] => false
  | constant :: _ => constant.1.node.isConst && decide (constant.2.den ≠ 1)

/-- The sum is zero. Also returns whether the sides are negated. -/
def buildIntegerEquality (sum : Sum) (isReal : Bool) : Node × Bool :=
  if sum.entries.isEmpty then (.constBoolean true, false)
  else
    let normalized := (normalizeGCDLCM sum false).1
    if hasFraction normalized then (.constBoolean false, false)
    else
      let (minabscoeff, rest) := removeMinAbsCoeff normalized
      let negated := decide (minabscoeff.2 < 0)
      let left := mkMultTerm (if negated then -minabscoeff.2 else minabscoeff.2) minabscoeff.1.node
      let rhs := collectSum (if negated then rest else rest.scale (-1))
      if isReal then (buildRelation .equal (ensureReal left) (ensureReal rhs) false, negated)
      else (buildRelation .equal left rhs false, negated)

def buildRealEquality (sum : Sum) : Node × Bool :=
  let (lterm, rest) := removeLTerm sum
  let negated := decide (lterm.2 < 0)
  if lterm.2 = 0 then (buildRelation .equal (mkConst 0) (collectSum rest) false, negated)
  else
    let rhs := collectSum (rest.scale (-lterm.2)⁻¹)
    (buildRelation .equal (ensureReal lterm.1.node) (ensureReal rhs) false, negated)

def buildIntegerInequality (sum : Sum) (k : Kind) : Node :=
  let (normalized, negate) := normalizeGCDLCM sum true
  let k := if negate then (if k = .geq then .gt else .geq) else k
  let (constant, rest) := removeConstant normalized
  let rhs := -constant
  let rhs : Int := if rhs.den = 1 ∧ k = .gt then rhs.num + 1 else ⌈rhs⌉
  buildRelation .geq (collectSum rest) (.constInteger rhs) negate

def buildRealInequality (sum : Sum) (k : Kind) : Node :=
  let (constant, rest) := removeConstant (normalizeLCoeffAbsOne sum)
  buildRelation k (collectSum rest) (mkConst (-constant)) false

/-- The normal form of an equality, and whether the difference of its sides is a negative multiple of the difference
of the sides of the equality. -/
def normalizeEquality : Node → Node × Bool
  | .apply .equal (.cons first (.cons second .nil)) =>
      let left := removeToReal first
      let right := removeToReal second
      match tryEvaluateRelationReflexive .equal left right with
      | some response => (.constBoolean response, false)
      | none =>
          match tryEvaluateRelation .equal left right with
          | some response => (.constBoolean response, false)
          | none =>
              let sum := addToSum (addToSum .empty false left) true right
              if isIntegral sum then buildIntegerEquality sum (decide (first.getType = .real))
              else buildRealEquality sum
  | atom => (atom, false)

/-- `IS_INTEGER` and `TO_INTEGER` of a term. -/
def rewriteExtIntegerOp (isPred : Bool) (t : Node) : Node :=
  match t.getConst with
  | some r => if isPred then .constBoolean (decide (r.den = 1)) else .constInteger ⌊r⌋
  | none =>
      if t.getType = .int then (if isPred then .constBoolean true else t)
      else mkNode (if isPred then .isInteger else .toInteger) [removeToReal t]

/-- Rewrites a relation. -/
def postRewriteRelation (kind : Kind) (first second : Node) : Node :=
  let left := removeToReal first
  let right := removeToReal second
  match tryEvaluateRelationReflexive kind left right with
  | some response => .constBoolean response
  | none =>
      match tryEvaluateRelation kind left right with
      | some response => .constBoolean response
      | none =>
          if kind = .equal then
            match normalizeEquality (mkNode .equal [first, second]) with
            | (.constBoolean value, _) => .constBoolean value
            | (_, negated) =>
                if negated then mkNode .equal [second, first] else mkNode .equal [first, second]
          else
            let negate := decide (kind = .leq ∨ kind = .lt)
            let kind := if kind = .leq then .geq else if kind = .lt then .gt else kind
            let sum := addToSum (addToSum .empty negate left) (!negate) right
            if isIntegral sum then buildIntegerInequality sum kind else buildRealInequality sum kind

def postRewriteAtom : Node → Node
  | .apply .isInteger (.cons t .nil) => rewriteExtIntegerOp true t
  | .apply (.divisible k) (.cons t .nil) =>
      match t.getConst with
      | some r => .constBoolean (decide ((r / k).den = 1))
      | none =>
          if k = 1 then .constBoolean true
          else mkNode .equal [mkNode .intsModulusTotal [t, .constInteger k], .constInteger 0]
  | .apply kind (.cons first (.cons second .nil)) => postRewriteRelation kind first second
  | atom => atom

end Normalise

end Ava6.Arith.Rewriter

import Ava6.Arith.Node
import Mathlib.Data.Rat.Floor

/-! The arithmetic proof rule checker. `none` is the null node the checker returns for an
application it rejects; a failed assertion, or a child the code reads although the node has
none there, returns no formula either.
-/

namespace Ava6.Arith

/-- The rules of linear arithmetic. -/
inductive ProofRule
  | arithSumUb | macroArithScaleSumUb
  | intTightLb | intTightUb
  | arithTrichotomy
  | arithMultPos | arithMultNeg
  deriving DecidableEq, Repr

def leastIntGreaterThan (q : Rat) : Int := ⌊q⌋ + 1

def greatestIntLessThan (q : Rat) : Int := ⌈q⌉ - 1

def Node.negate (n : Node) : Option Node :=
  if n.getKind = .not then n.first else some (mkNode .not [n])

/-- `mkNode(k, n[0], n[1])`. -/
def Node.withKind (n : Node) (k : Kind) : Option Node := do
  let left ← n.first
  let right ← n.second
  some (mkNode k [left, right])

def negateProofLiteral (n : Node) : Option Node :=
  match n.getKind with
  | .gt => n.withKind .leq
  | .lt => n.withKind .geq
  | .leq => n.withKind .gt
  | .geq => n.withKind .lt
  | .equal | .not => n.negate
  | _ => none

def Kind.isRelation : Kind → Bool
  | .lt | .leq | .equal | .geq | .gt => true
  | _ => false

def reverseRelationKind : Kind → Kind
  | .lt => .gt
  | .leq => .geq
  | .geq => .leq
  | .gt => .lt
  | k => k

/-- `mkConstRealOrInt(type, 0)`. -/
def mkZero : TypeNode → Option Node
  | .int => some (.constInteger 0)
  | .real => some (.constRational 0)
  | _ => none

/-- The common part of `ARITH_MULT_POS` and `ARITH_MULT_NEG`: the comparison of the factor
with zero, and the relation between the products. -/
def checkMult (sign : Kind) (flip : Kind → Kind) (children args : List Node)
    : Option Node :=
  match children, args with
  | [], [mult, relation] =>
      if relation.getKind.isRelation = false then none
      else do
        let lhs ← relation.first
        let rhs ← relation.second
        let zero ← mult.getType.bind mkZero
        some (mkNode .implies
          [mkNode .and [mkNode sign [mult, zero], relation],
            mkNode (flip relation.getKind)
              [mkNode .mult [mult, lhs], mkNode .mult [mult, rhs]]])
  | _, _ => none

/-- The loop of `ARITH_SUM_UB`: whether a child is strict, and the two sums. -/
def sumUbLoop : List Node → Option (Bool × List Node × List Node)
  | [] => some (false, [], [])
  | child :: rest =>
      if child.getKind ≠ .lt ∧ child.getKind ≠ .leq ∧ child.getKind ≠ .equal then none
      else do
        let left ← child.first
        let right ← child.second
        let sums ← sumUbLoop rest
        some (child.getKind == .lt || sums.1, left :: sums.2.1, right :: sums.2.2)

/-- The relation both sum rules end in. -/
def mkSumRelation : Bool × List Node × List Node → Node
  | (strict, leftSum, rightSum) =>
      mkNode (if strict then .lt else .leq) [mkNode .add leftSum, mkNode .add rightSum]

/-- One summand; multiplying by one introduces no product. -/
def scaled (arg : Node) (scalar : Rat) (n : Node) : Node :=
  if scalar = 1 then n else mkNode .mult [arg, n]

/-- The check for spurious mixed arithmetic. -/
def mixedArithmetic (arg : Node) (scalar : Rat) (left right : Node) : Bool :=
  if left.getType = some .real ∨ right.getType = some .real then
    arg.getType == some .int
  else
    arg.getType == some .real && scalar.isInt

/-- The sign check. A kind outside the five relations is only traced, here and where the
strictness is adjusted, so that the child is summed like an equality. -/
def wrongSign (k : Kind) (scalar : Rat) : Bool :=
  match k with
  | .gt | .geq => decide (0 < scalar)
  | .leq | .lt => decide (scalar < 0)
  | _ => false

/-- The loop of `MACRO_ARITH_SCALE_SUM_UB` over the children and their scalars. -/
def scaleSumUbLoop : List Node → List Node → Option (Bool × List Node × List Node)
  | [], [] => some (false, [], [])
  | child :: children, arg :: args => do
      let scalar ← arg.getConst
      let left ← child.first
      let right ← child.second
      if scalar = 0 ∨ mixedArithmetic arg scalar left right ∨ wrongSign child.getKind scalar then
        none
      else do
        let sums ← scaleSumUbLoop children args
        some (child.getKind == .gt || child.getKind == .lt || sums.1,
          scaled arg scalar left :: sums.2.1, scaled arg scalar right :: sums.2.2)
  | _, _ => none

/-- The common part of the tightening rules: the accepted kinds, the new bound and the kind
of the conclusion. -/
def checkTight (strict nonstrict : Kind) (bound : Rat → Int) (children : List Node)
    : Option Node :=
  match children with
  | [child] => do
      let left ← child.first
      let right ← child.second
      if (child.getKind ≠ strict ∧ child.getKind ≠ nonstrict) ∨ left.getType ≠ some .int then
        none
      else do
        let originalBound ← right.getConst
        some (mkNode nonstrict [left, .constInteger (bound originalBound)])
  | _ => none

/-- The relation that is missing among two of the three. -/
def missingRelation (a b : Kind) : Option Kind :=
  match ([Kind.equal, .gt, .lt].filter fun k => k ≠ a ∧ k ≠ b) with
  | [k] => some k
  | _ => none

def checkTrichotomy (children : List Node) : Option Node :=
  match children with
  | first :: second :: _ => do
      let a ← negateProofLiteral first
      let b ← negateProofLiteral second
      let left ← a.first
      let right ← a.second
      if b.first = some left ∧ b.second = some right then do
        let retk ← missingRelation a.getKind b.getKind
        some (mkNode retk [left, right])
      else none
  | _ => none

def checkInternal (id : ProofRule) (children args : List Node) : Option Node :=
  match id with
  | .arithMultPos => checkMult .gt (fun rel => rel) children args
  | .arithMultNeg => checkMult .lt reverseRelationKind children args
  | .arithSumUb =>
      if children.length < 2 then none else (sumUbLoop children).map mkSumRelation
  | .macroArithScaleSumUb =>
      if children.length < 2 then none else (scaleSumUbLoop children args).map mkSumRelation
  | .intTightLb => checkTight .gt .geq leastIntGreaterThan children
  | .intTightUb => checkTight .lt .leq greatestIntLessThan children
  | .arithTrichotomy => checkTrichotomy children

end Ava6.Arith

import Ava6.Arith.Rewriter.RewriteAtom
import Ava6.Arith.OperatorElim

/-! Bounds of terms that are inferred from literals. Each left side has the tightest lower and upper bound that some
literal gives it, each with the literal it comes from. Two weak bounds with the same value become one equality.
-/

namespace Ava6.Arith.Rewriter.BoundInference

open Library OperatorElim

/-- One of the two bounds: its value, whether it is strict, the bound as a constraint, and its origin. -/
structure Side where
  value : Option Rat := none
  strict : Bool := true
  bound : Option Node := none
  origin : Option Node := none

structure Bounds where
  lower : Side := {}
  upper : Side := {}

/-- `mkEquality` of arithmetic terms. -/
def mkEquality (a b : Node) : Node :=
  if a.getType = b.getType then mkNode .equal [a, b]
  else
    let diff := mkNode .sub [a, b]
    mkNode .equal [diff, OperatorElim.mkZero diff.getType]

/-- What a comparison says of a left side: a relation to a constant. The left side may be a variable. -/
structure Decomposition where
  lhs : Node
  isVariable : Bool
  relation : Kind
  bound : Rat

/-- There is no bound yet, or the value is tighter. -/
def Side.improves (side : Side) (isTighter : Rat → Rat → Bool) (value : Rat) : Bool :=
  match side.value with
  | none => true
  | some old => isTighter old value

section Updates

-- the rewriter
variable (rewrite : Node → Node)

/-- Updates one side, and the constraint of the other side if the two become an equality. -/
def updateSide (isTighter : Rat → Rat → Bool) (strictKind weakKind : Kind) (origin lhs : Node) (value : Rat)
    (strict : Bool) (side other : Side) : Side × Side :=
  if side.improves isTighter value then
    if !strict && !other.strict && decide (other.value = some value) then
      let eq := if other.origin = some origin then origin else mkEquality lhs (mkConst value)
      (⟨some value, strict, some (rewrite eq), some origin⟩, { other with bound := some (rewrite eq) })
    else
      let bound := mkNode (if strict then strictKind else weakKind) [lhs, mkConst value]
      (⟨some value, strict, some (rewrite bound), some origin⟩, other)
  else if strict && decide (side.value = some value) then
    (⟨side.value, strict, some (rewrite (mkNode strictKind [lhs, mkConst value])), some origin⟩, other)
  else (side, other)

def updateLowerBound (origin lhs : Node) (value : Rat) (strict : Bool) (b : Bounds) : Bounds :=
  let (lower, upper) := updateSide rewrite (fun old new => decide (old < new)) .gt .geq origin lhs value strict
    b.lower b.upper
  ⟨lower, upper⟩

def updateUpperBound (origin lhs : Node) (value : Rat) (strict : Bool) (b : Bounds) : Bounds :=
  let (upper, lower) := updateSide rewrite (fun old new => decide (new < old)) .lt .leq origin lhs value strict
    b.upper b.lower
  ⟨lower, upper⟩

/-- Bounds of integral left sides are rounded. -/
def strengthen (tn : TypeNode) (relation : Kind) (br : Rat) : Kind × Rat :=
  if tn = .int then
    match relation with
    | .leq => (.leq, ⌊br⌋)
    | .lt => (.leq, ⌈br - 1⌉)
    | .gt => (.geq, ⌊br + 1⌋)
    | .geq => (.geq, ⌈br⌉)
    | relation => (relation, br)
  else (relation, br)

/-- What a relation does to the bounds of its left side. -/
def updateBounds (origin lhs : Node) (relation : Kind) (bound : Rat) (b : Bounds) : Bounds :=
  match relation with
  | .leq => updateUpperBound rewrite origin lhs bound false b
  | .lt => updateUpperBound rewrite origin lhs bound true b
  | .equal => updateUpperBound rewrite origin lhs bound false (updateLowerBound rewrite origin lhs bound false b)
  | .gt => updateLowerBound rewrite origin lhs bound true b
  | .geq => updateLowerBound rewrite origin lhs bound false b
  | _ => b

end Updates

section Adding

variable [LinearOrder Node] (rewrite : Node → Node) (decompose : Node → Decomposition)

abbrev State := OrderedMap Node Bounds

def get (d_bounds : State) (lhs : Node) : Bounds := (d_bounds.find? lhs).getD {}

def isDisequality : Node → Bool
  | .apply .not (.cons (.apply .equal _) .nil) => true
  | _ => false

/-- The comparison that a literal is rewritten to, if it can be used for bounds. -/
def comparison (n : Node) : Option Node :=
  let tmp := rewrite n
  if isDisequality tmp then none
  else
    match if tmp.getKind = .equal then (normalizeEquality tmp).1 else tmp with
    | .constBoolean _ => none
    | tmp => some tmp

/-- The relation that a literal is decomposed to, unless its left side has to be a variable and is not. -/
def used (n : Node) (onlyVariables : Bool) : Option Decomposition :=
  match comparison rewrite n with
  | none => none
  | some tmp =>
      let dec := decompose tmp
      if (onlyVariables && !dec.isVariable) || decide (dec.relation = .distinct) then none else some dec

/-- Adds a literal, and returns whether it is used. -/
def add (n : Node) (onlyVariables : Bool) (d_bounds : State) : State × Bool :=
  match used rewrite decompose n onlyVariables with
  | none => (d_bounds, false)
  | some dec =>
      let (relation, bound) := strengthen dec.lhs.getType dec.relation dec.bound
      (d_bounds.set dec.lhs (updateBounds rewrite n dec.lhs relation bound (get d_bounds dec.lhs)), true)

/-- The state after some calls of `add`. -/
def addAll : List (Node × Bool) → State → State
  | [], d_bounds => d_bounds
  | (n, onlyVariables) :: rest, d_bounds => addAll rest (add rewrite decompose n onlyVariables d_bounds).1

end Adding

/-- One node against the bounds of one left side: the node that replaces it, and one to add. -/
def replaceByOrigin (n : Node) (b : Bounds) : Node × List Node :=
  if b.lower.bound = some n ∧ b.upper.bound = some n then
    if b.lower.origin ≠ some n ∧ b.upper.origin ≠ some n then (b.lower.origin.getD n, b.upper.origin.toList)
    else (n, [])
  else if b.lower.bound = some n then (b.lower.origin.getD n, [])
  else if b.upper.bound = some n then (b.upper.origin.getD n, [])
  else (n, [])

/-- One node against all bounds, in their order. -/
def replaceByAllOrigins (n : Node) : List Bounds → Node × List Node
  | [] => (n, [])
  | b :: rest =>
      let (n, toAdd) := replaceByOrigin n b
      let (n, toAdd') := replaceByAllOrigins n rest
      (n, toAdd ++ toAdd')

/-- Replaces constraints by the literals they come from. -/
def replaceByOrigins [LinearOrder Node] (d_bounds : State) (nodes : List Node) : List Node :=
  let replaced := nodes.map (fun n => replaceByAllOrigins n (d_bounds.entries.map Prod.snd))
  replaced.map Prod.fst ++ (replaced.map Prod.snd).flatten

end Ava6.Arith.Rewriter.BoundInference

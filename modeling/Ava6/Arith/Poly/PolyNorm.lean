import Mathlib.Algebra.Field.Rat
import Mathlib.Data.List.Sort
import Mathlib.Algebra.Order.Ring.Unbundled.Rat
import Ava6.Library.OrderedMap
import Ava6.Arith.Node

/-! Polynomial normalization: polynomials over the nodes that normalization does not look into, and
the comparison of terms and of relations by their polynomials. The order on nodes is arbitrary.
-/

namespace Ava6.Arith.Poly

open Library

variable [LinearOrder Node]

/-- A monomial variable: null without variables, a node, or an SEXPR of nodes in order. -/
structure MonoVar where
  vars : List Node
  sorted : vars.Pairwise (· ≤ ·)

namespace MonoVar

@[ext]
theorem ext {x y : MonoVar} (same : x.vars = y.vars) : x = y := by
  cases x
  cases y
  cases same
  rfl

def null : MonoVar := ⟨[], List.Pairwise.nil⟩

def single (n : Node) : MonoVar := ⟨[n], List.pairwise_singleton _ n⟩

def multMonoVar (m1 m2 : MonoVar) : MonoVar :=
  ⟨(m1.vars ++ m2.vars).insertionSort (· ≤ ·), List.pairwise_insertionSort (· ≤ ·) _⟩

theorem multMonoVar_perm (m1 m2 : MonoVar)
    : (multMonoVar m1 m2).vars.Perm (m1.vars ++ m2.vars) :=
  List.perm_insertionSort _ _

/-- Sorted products determine the other factor. -/
theorem multMonoVar_injective (x : MonoVar) : Function.Injective (multMonoVar · x) := by
  intro m1 m2 same
  have perm : (m1.vars ++ x.vars).Perm (m2.vars ++ x.vars) := by
    refine (multMonoVar_perm m1 x).symm.trans ?_
    have sameVars : (multMonoVar m1 x).vars = (multMonoVar m2 x).vars := congrArg vars same
    rw [sameVars]
    exact multMonoVar_perm m2 x
  refine ext (List.Perm.eq_of_pairwise ?_ m1.sorted m2.sorted
    ((List.perm_append_right_iff x.vars).mp perm))
  intro a b _ _ le ge
  exact le_antisymm le ge

end MonoVar

variable [LinearOrder MonoVar]

/-- `d_polyNorm`, a map from monomial variables to coefficients; none of them is zero. -/
structure PolyNorm where
  monomials : OrderedMap MonoVar Rat
  nonzero : ∀ m ∈ monomials.entries, m.2 ≠ 0

namespace PolyNorm

def zero : PolyNorm := ⟨OrderedMap.empty, by simp [OrderedMap.empty]⟩

theorem nonzero_set {p : PolyNorm} (x : MonoVar) {c : Rat} (differs : c ≠ 0)
    : ∀ m ∈ (p.monomials.set x c).entries, m.2 ≠ 0 := by
  intro m member
  rcases OrderedMap.mem_setEntries member with isNew | old
  · rw [isNew]
    exact differs
  · exact p.nonzero m old

/-- Sets the coefficient of a monomial, or erases the monomial. -/
def assign (p : PolyNorm) (x : MonoVar) (c : Rat) : PolyNorm :=
  if differs : c ≠ 0 then ⟨p.monomials.set x c, nonzero_set x differs⟩
  else ⟨p.monomials.erase x, fun m member => p.nonzero m (List.mem_of_mem_filter member)⟩

/-- Add the monomial `x * c` to the polynomial. -/
def addMonomial (p : PolyNorm) (x : MonoVar) (c : Rat) (isNeg : Bool) : PolyNorm :=
  if c = 0 then p
  else
    match p.monomials.find? x with
    | none => p.assign x (if isNeg then -c else c)
    | some old => p.assign x (old + (if isNeg then -c else c))

/-- Multiply the coefficients by a constant. -/
def mulCoeffs (p : PolyNorm) (c : Rat) : PolyNorm :=
  if differs : c = 0 then zero
  else ⟨p.monomials.mapValues (· * c), by
    intro m member
    obtain ⟨old, inEntries, rfl⟩ := List.mem_map.mp member
    exact mul_ne_zero (p.nonzero old inEntries) differs⟩

/-- Multiply by the monomial `x * c`, where `c` is not zero. -/
def multiplyMonomial (p : PolyNorm) (x : MonoVar) (c : Rat) : PolyNorm :=
  if x.vars = [] then p.mulCoeffs c
  else
    p.monomials.entries.foldl (fun q m => q.assign (.multMonoVar m.1 x) (m.2 * c)) zero

/-- Take the coefficients modulo a positive integer, and erase those that became zero. -/
def modCoeffs (p : PolyNorm) (c : Nat) : PolyNorm :=
  ⟨(p.monomials.mapValues (fun old => ((old.num % c : Int) : Rat))).filter (·.2 ≠ 0), by
    intro m member
    simpa using (List.mem_filter.mp member).2⟩

def add (p q : PolyNorm) : PolyNorm :=
  q.monomials.entries.foldl (fun r m => r.addMonomial m.1 m.2 false) p

def subtract (p q : PolyNorm) : PolyNorm :=
  q.monomials.entries.foldl (fun r m => r.addMonomial m.1 m.2 true) p

def multiply (p q : PolyNorm) : PolyNorm :=
  match q.monomials.entries with
  | [m] => p.multiplyMonomial m.1 m.2
  | entries => entries.foldl (fun r m => r.add (p.multiplyMonomial m.1 m.2)) zero

def isEqual (p q : PolyNorm) : Bool :=
  p.monomials.entries.length == q.monomials.entries.length
    && p.monomials.entries.all (fun m => q.monomials.find? m.1 == some m.2)

/-- The polynomial of a node that is not looked into. -/
def leaf (n : Node) : PolyNorm := zero.addMonomial (.single n) 1 false

def constant (c : Rat) : PolyNorm := zero.addMonomial .null c false

/-- The polynomial of an application from those of the children: the loop over `i`. -/
def combine (k : Kind) : Nat → PolyNorm → List PolyNorm → PolyNorm
  | _, ret, [] => ret
  | i, ret, p :: ps =>
      combine k (i + 1)
        (if ((k = .sub ∨ k = .bitvectorSub) ∧ i = 1) ∨ k = .neg ∨ k = .bitvectorNeg then
          ret.subtract p
        else if i > 0 ∧ (k = .mult ∨ k = .nonlinearMult ∨ k = .bitvectorMult) then ret.multiply p
        else ret.add p)
        ps

/-- The operators that polynomials are combined by. -/
def Kind.isCombination : Kind → Bool
  | .add | .sub | .neg | .mult | .nonlinearMult | .toReal
  | .bitvectorAdd | .bitvectorSub | .bitvectorNeg | .bitvectorMult => true
  | _ => false

/-- The divisor of a division by a constant that is not zero; no other division is supported. -/
def constantDivisor (k : Kind) (children : List Node) : Option Rat :=
  match children with
  | [_, divisor] =>
      if k = .division ∨ k = .divisionTotal then divisor.getConst.filter (· ≠ 0) else none
  | _ => none

/-- The polynomial of an application from those of the children. -/
def ofChildren (k : Kind) (children : List Node) (polys : List PolyNorm) : PolyNorm :=
  if Kind.isCombination k then combine k 0 zero polys
  else
    match constantDivisor k children, polys with
    | some c, dividend :: _ => (zero.add dividend).multiplyMonomial .null c⁻¹
    | _, _ => leaf (mkNode k children)

mutual
/-- Make the polynomial of a node. -/
def mkPolyNorm : Node → PolyNorm
  | .constInteger value => constant value
  | .constRational value => constant value
  | .constBitvector _ value => constant value.toNat
  | .var type name => leaf (.var type name)
  | .apply k children => ofChildren k children.toList (mkPolyNorms children)

def mkPolyNorms : Nodes → List PolyNorm
  | .nil => []
  | .cons head tail => mkPolyNorm head :: mkPolyNorms tail
end

/-- The difference of two nodes, independent of their type. -/
def mkDiff (a b : Node) : PolyNorm := (mkPolyNorm a).subtract (mkPolyNorm b)

/-- Compares polynomials of terms of a type; modulo two to the width for bit-vectors. -/
def areEqualPolyNormTyped (t : TypeNode) (pa pb : PolyNorm) : Bool :=
  match t with
  | .bitVector width => (pa.modCoeffs (2 ^ width)).isEqual (pb.modCoeffs (2 ^ width))
  | _ => pa.isEqual pb

def isArithPolyNorm (a b : Node) : Bool :=
  a = b ∨ a.getType.any (areEqualPolyNormTyped · (mkPolyNorm a) (mkPolyNorm b))

/-- `testBit(0)` of the numerator. -/
def isOdd (c : Rat) : Bool := c.num % 2 = 1

/-- The factors for two bit-vector equalities: the first odd coefficients, crosswise. -/
def oddFactors (width : Nat) (pb : PolyNorm) : List (MonoVar × Rat) → Option (Rat × Rat)
  | [] => some (1, 1)
  | m :: rest =>
      match pb.monomials.find? m.1 with
      | none => none
      | some b =>
          if isOdd m.2 ≠ isOdd b then none
          else if isOdd m.2 then
            let ai : Int := m.2.num % 2 ^ width
            let bi : Int := b.num % 2 ^ width
            if ai ≠ bi then some (bi, ai) else some (1, 1)
          else oddFactors width pb rest

def leadingCoefficient (p : PolyNorm) : Rat := (p.monomials.entries.head?.map Prod.snd).getD 1

/-- Whether one polynomial is a multiple of the other, of the same sign unless for an equality. -/
def arithFactors (k : Kind) (pa pb : PolyNorm) : Option (Rat × Rat) :=
  let ca := pb.leadingCoefficient
  let cb := pa.leadingCoefficient
  if (pa.mulCoeffs ca).isEqual (pb.mulCoeffs cb) then
    if k = .equal ∨ ca.num.sign = cb.num.sign then some (ca, cb) else none
  else none

def bitVectorFactors (width : Nat) (pa pb : PolyNorm) : Option (Rat × Rat) := do
  let (ca, cb) ← oddFactors width pb pa.monomials.entries
  if areEqualPolyNormTyped (.bitVector width) (pa.mulCoeffs ca) (pb.mulCoeffs cb) then
    some (ca, cb)
  else none

/-- The type of the sides of an equality. -/
def sidesType (left right : Node) : Option TypeNode := do
  let t ← left.getType
  let s ← right.getType
  t.leastUpperBound s

/-- `isArithPolyNormRel`, with the factors where it returns true. -/
def isArithPolyNormRel (a b : Node) : Option (Rat × Rat) :=
  if a = b then some (1, 1)
  else if b.getKind ≠ a.getKind then none
  else
    match a.children, b.children with
    | [a0, a1], [b0, b1] =>
        let pa := mkDiff a0 a1
        let pb := mkDiff b0 b1
        if a.getKind = .equal then do
          let eqtn ← sidesType a0 a1
          let eqtn2 ← sidesType b0 b1
          if eqtn.isRealOrInt then
            if eqtn2.isRealOrInt then arithFactors .equal pa pb else none
          else
            match eqtn.leastUpperBound eqtn2 with
            | some (.bitVector width) => bitVectorFactors width pa pb
            | _ => none
        else if a.getKind = .geq ∨ a.getKind = .leq ∨ a.getKind = .gt ∨ a.getKind = .lt then
          arithFactors a.getKind pa pb
        else none
    | _, _ => none

def mkConstInt (c : Rat) : Option Node := if c.den = 1 then some (.constInteger c.num) else none

/-- Wraps a node of type Int into TO_REAL. -/
def mkReal (n : Node) : Node := if n.getType = some .int then mkNode .toReal [n] else n

def getArithPolyNormRelPremise (a b : Node) (rx ry : Rat) : Option Node :=
  match a.children, b.children with
  | [a0, a1], [b0, b1] =>
      match a0.getType, b0.getType with
      | some (.bitVector wa), some (.bitVector wb) =>
          let cx := Node.constBitvector wa (BitVec.ofInt wa rx.num)
          let cy := Node.constBitvector wb (BitVec.ofInt wb ry.num)
          let x := mkNode .bitvectorSub [a0, a1]
          let y := mkNode .bitvectorSub [b0, b1]
          some (mkNode .equal [mkNode .bitvectorMult [cx, x], mkNode .bitvectorMult [cy, y]])
      | some (.bitVector _), _ => none
      | _, _ => do
          let x := mkNode .sub [a0, a1]
          let y := mkNode .sub [b0, b1]
          if x.getType = some .int ∧ y.getType = some .int then
            let cx ← mkConstInt rx
            let cy ← mkConstInt ry
            some (mkNode .equal [mkNode .mult [cx, x], mkNode .mult [cy, y]])
          else
            some (mkNode .equal [mkNode .mult [.constRational rx, mkReal x],
              mkNode .mult [.constRational ry, mkReal y]])
  | _, _ => none

end PolyNorm

/-- The rule ARITH_POLY_NORM. -/
def checkArithPolyNorm (children args : List Node) : Option Node :=
  match children, args with
  | [], [equality] =>
      if equality.getKind ≠ .equal then none
      else
        match equality.children with
        | [t, s] =>
            if ¬t.getType.any TypeNode.isRealOrInt then none
            else if ¬PolyNorm.isArithPolyNorm t s then none
            else some equality
        | _ => none
  | _, _ => none

def isRelation (k : Kind) : Bool := k = .lt ∨ k = .leq ∨ k = .equal ∨ k = .gt ∨ k = .geq

/-- The child below TO_REAL. -/
def belowToReal (n : Node) : Option Node :=
  if n.getKind = .toReal then n.children.head? else some n

/-- The test on the multipliers of ARITH_POLY_NORM_REL, made only where both are constants. -/
def multipliersAccepted (k : Kind) (cx cy : Node) : Bool :=
  match cx.getConst, cy.getConst with
  | some c1, some c2 =>
      c1.num.sign ≠ 0 ∧ c2.num.sign ≠ 0 ∧ (k = .equal ∨ c1.num.sign = c2.num.sign)
  | _, _ => true

/-- The conclusion of ARITH_POLY_NORM_REL from the sides of the premise. -/
def relationFromProducts (k : Kind) (l r : Node) : Option Node :=
  if l.getKind ≠ .mult ∨ r.getKind ≠ .mult then none
  else
    match l.children, r.children with
    | cx :: l1 :: _, cy :: r1 :: _ => do
        let lr ← belowToReal l1
        let rr ← belowToReal r1
        if lr.getKind ≠ .sub ∨ rr.getKind ≠ .sub then none
        else
          match lr.children, rr.children with
          | x1 :: x2 :: _, y1 :: y2 :: _ =>
              if multipliersAccepted k cx cy then
                some (mkNode .equal [mkNode k [x1, x2], mkNode k [y1, y2]])
              else none
          | _, _ => none
    | _, _ => none

/-- The rule ARITH_POLY_NORM_REL. -/
def checkArithPolyNormRel (children args : List Node) : Option Node :=
  match children, args with
  | [child], [equivalence] =>
      if equivalence.getKind ≠ .equal then none
      else
        match equivalence.children, child.children with
        | left :: _, l :: r :: _ =>
            if ¬isRelation left.getKind ∨ child.getKind ≠ .equal then none
            else do
              let ret ← relationFromProducts left.getKind l r
              if ret ≠ equivalence then none else some ret
        | _, _ => none
  | _, _ => none

end Ava6.Arith.Poly

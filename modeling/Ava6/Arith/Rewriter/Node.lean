import Mathlib.Algebra.Order.Floor.Ring
import Mathlib.Tactic.Positivity
import Mathlib.Data.Nat.Log
import Mathlib.Algebra.Order.Archimedean.Real.Basic

/-! Terms and atoms as the arithmetic rewriter sees them, with their types and their values. Terms of other
theories are not looked into. Boolean values are zero and one, and bit-vectors are their unsigned numbers. Unlike in
`Arith.Node` every arithmetic kind is looked into, so that types and values have no other cases.
-/

namespace Ava6.Arith.Rewriter

-- Nodes and their types

inductive TypeNode
  | bool | int | real | bitVector (w : Nat)
  deriving DecidableEq, Repr

namespace TypeNode

def isRealOrInt : TypeNode → Bool
  | .int | .real => true
  | .bool | .bitVector _ => false

def getBitVectorSize : TypeNode → Nat
  | .bitVector w => w
  | _ => 0

end TypeNode

inductive Kind
  | var | term | constBoolean | constInteger | constRational | constBitVector
  | not | and | implies | ite | equal | distinct | lt | leq | gt | geq | isInteger | divisible (k : Nat)
  | add | sub | neg | mult | nonlinearMult | abs | pow
  | toReal | toInteger | division | divisionTotal
  | intsDivision | intsDivisionTotal | intsModulus | intsModulusTotal
  | pow2 | intsLog2 | intsIspow2
  -- applications of the functions that division by zero is
  | divByZero | intDivByZero | modByZero
  | ubvToInt | intToBv (w : Nat)
  -- a concatenation, with the widths of its children
  | bvExtract (high low : Nat) | bvConcat (widths : List Nat)
  | bvUge | bvUgt | bvUle | bvUlt
  deriving DecidableEq, Repr

mutual
/-- A `term` is an application of a symbol of another theory. -/
inductive Node
  | var (type : TypeNode) (name : Nat)
  | term (type : TypeNode) (name : Nat)
  | constBoolean (value : Bool)
  | constInteger (value : Int)
  | constRational (value : Rat)
  | constBitVector (w value : Nat)
  | apply (k : Kind) (children : Nodes)
  deriving DecidableEq, Repr

/-- The children of a node. -/
inductive Nodes
  | nil
  | cons (head : Node) (tail : Nodes)
  deriving DecidableEq, Repr
end

namespace Nodes

def ofList : List Node → Nodes
  | [] => .nil
  | head :: tail => .cons head (ofList tail)

def toList : Nodes → List Node
  | .nil => []
  | .cons head tail => head :: tail.toList

@[simp]
theorem toList_ofList (nodes : List Node) : (ofList nodes).toList = nodes := by
  induction nodes with
  | nil => rfl
  | cons head tail ih => rw [ofList, toList, ih]

@[simp]
theorem ofList_toList (children : Nodes) : ofList children.toList = children := by
  match children with
  | .nil => rfl
  | .cons head tail => rw [toList, ofList, ofList_toList tail]

end Nodes

def mkNode (k : Kind) (children : List Node) : Node := .apply k (.ofList children)

namespace Node

def getKind : Node → Kind
  | .var _ _ => .var
  | .term _ _ => .term
  | .constBoolean _ => .constBoolean
  | .constInteger _ => .constInteger
  | .constRational _ => .constRational
  | .constBitVector _ _ => .constBitVector
  | .apply k _ => k

def children : Node → List Node
  | .apply _ nodes => nodes.toList
  | _ => []

/-- `getConst<Rational>`, defined on arithmetic constants only. -/
def getConst : Node → Option Rat
  | .constInteger value => some value
  | .constRational value => some value
  | _ => none

def isConst (n : Node) : Bool := n.getConst.isSome

def isVar : Node → Bool
  | .var _ _ => true
  | _ => false

end Node

/-- The type rules, on the types of the children. -/
def Kind.computeType : Kind → List TypeNode → TypeNode
  | .not, _ | .and, _ | .implies, _ | .equal, _ | .distinct, _ | .lt, _ | .leq, _ | .gt, _ | .geq, _ => .bool
  | .isInteger, _ | .divisible _, _ | .intsIspow2, _ | .bvUge, _ | .bvUgt, _ | .bvUle, _ | .bvUlt, _ => .bool
  | .toReal, _ | .division, _ | .divisionTotal, _ | .divByZero, _ => .real
  | .toInteger, _ | .intsDivision, _ | .intsDivisionTotal, _ | .intsModulus, _ | .intsModulusTotal, _
  | .pow2, _ | .intsLog2, _ | .intDivByZero, _ | .modByZero, _ | .ubvToInt, _ => .int
  | .intToBv w, _ => .bitVector w
  | .bvExtract high low, _ => .bitVector (high + 1 - low)
  | .bvConcat widths, _ => .bitVector widths.sum
  | .ite, [_, first, second] => if first = second then first else .real
  | .ite, _ => .bool
  | _, types => if types.all (· == .int) then .int else .real

mutual
def Node.getType : Node → TypeNode
  | .var type _ => type
  | .term type _ => type
  | .constBoolean _ => .bool
  | .constInteger _ => .int
  | .constRational _ => .real
  | .constBitVector w _ => .bitVector w
  | .apply k children => k.computeType children.getTypes

def Nodes.getTypes : Nodes → List TypeNode
  | .nil => []
  | .cons head tail => head.getType :: tail.getTypes
end

theorem Nodes.getTypes_eq (children : Nodes) : children.getTypes = children.toList.map Node.getType := by
  match children with
  | .nil => rfl
  | .cons head tail => rw [getTypes, toList, List.map_cons, getTypes_eq tail]

theorem getType_mkNode (k : Kind) (nodes : List Node)
    : (mkNode k nodes).getType = k.computeType (nodes.map Node.getType) := by
  rw [mkNode, Node.getType, Nodes.getTypes_eq, Nodes.toList_ofList]

/-- Which types of children an application may have. -/
def Kind.accepts : Kind → List TypeNode → Bool
  | .not, types => types == [.bool]
  | .and, types => types.all (· == .bool)
  | .implies, types => types == [.bool, .bool]
  | .ite, [condition, first, second] =>
      condition == .bool && (first == second || first.isRealOrInt && second.isRealOrInt)
  | .equal, [first, second] | .distinct, [first, second] =>
      first == second || first.isRealOrInt && second.isRealOrInt
  | .lt, [first, second] | .leq, [first, second] | .gt, [first, second] | .geq, [first, second]
  | .sub, [first, second] | .pow, [first, second] | .division, [first, second]
  | .divisionTotal, [first, second] => first.isRealOrInt && second.isRealOrInt
  | .add, types | .mult, types | .nonlinearMult, types => types.all TypeNode.isRealOrInt
  | .isInteger, [x] | .toInteger, [x] | .toReal, [x] | .neg, [x] | .abs, [x] | .divByZero, [x] => x.isRealOrInt
  | .intsDivision, types | .intsDivisionTotal, types | .intsModulus, types
  | .intsModulusTotal, types => types == [.int, .int]
  | .divisible _, types | .pow2, types | .intsLog2, types | .intsIspow2, types | .intDivByZero, types
  | .modByZero, types | .intToBv _, types => types == [.int]
  | .ubvToInt, [.bitVector _] => true
  | .bvExtract high low, [.bitVector w] => decide (low ≤ high ∧ high < w)
  | .bvConcat widths, types => types == widths.map .bitVector
  | .bvUge, [.bitVector w, .bitVector w'] | .bvUgt, [.bitVector w, .bitVector w']
  | .bvUle, [.bitVector w, .bitVector w'] | .bvUlt, [.bitVector w, .bitVector w'] => w == w'
  | _, _ => false

mutual
def Node.wellTyped : Node → Bool
  | .apply k children => k.accepts children.getTypes && children.wellTyped
  | _ => true

def Nodes.wellTyped : Nodes → Bool
  | .nil => true
  | .cons head tail => head.wellTyped && tail.wellTyped
end

-- Values

/-- Values of the variables and terms, and of the operators where they are partial. -/
structure Interpretation where
  var : TypeNode → Nat → ℝ
  term : TypeNode → Nat → ℝ
  divideByZero : ℝ → ℝ
  intDivideByZero : Int → Int
  modulusByZero : Int → Int
  power : ℝ → ℝ → ℝ
  var_int : ∀ name, ∃ z : Int, var .int name = z
  term_int : ∀ name, ∃ z : Int, term .int name = z
  var_bitVector : ∀ w name, ∃ b : BitVec w, var (.bitVector w) name = b.toNat
  term_bitVector : ∀ w name, ∃ b : BitVec w, term (.bitVector w) name = b.toNat
  power_int : ∀ y z : Int, ∃ x : Int, power y z = x

open scoped Classical in
/-- One for true and zero for false. -/
noncomputable def truth (p : Prop) : ℝ := if p then 1 else 0

open scoped Classical in
/-- Powers with natural exponents. -/
noncomputable def Interpretation.pow (I : Interpretation) (x y : ℝ) : ℝ :=
  if 0 ≤ y ∧ (⌊y⌋ : ℝ) = y then x ^ ⌊y⌋.toNat else I.power x y

/-- The number of a concatenation, the first part in front. -/
noncomputable def concatenate : List Nat → List ℝ → Int → Int
  | w :: widths, x :: values, front => concatenate widths values (front * 2 ^ w + ⌊x⌋ % 2 ^ w)
  | _, _, front => front

open scoped Classical in
/-- The value of an application from those of the children. -/
noncomputable def Kind.apply (I : Interpretation) : Kind → List ℝ → ℝ
  | .not, [x] => 1 - x
  | .and, values => truth (∀ x ∈ values, x = 1)
  | .implies, [x, y] => truth (x = 1 → y = 1)
  | .ite, [x, y, z] => if x = 1 then y else z
  | .equal, [x, y] => truth (x = y)
  | .distinct, [x, y] => truth (x ≠ y)
  | .lt, [x, y] => truth (x < y)
  | .leq, [x, y] => truth (x ≤ y)
  | .gt, [x, y] => truth (y < x)
  | .geq, [x, y] => truth (y ≤ x)
  | .isInteger, [x] => truth (∃ z : Int, x = z)
  | .divisible k, [x] => truth (∃ z : Int, x = k * z)
  | .add, values => values.sum
  | .sub, [x, y] => x - y
  | .neg, [x] => -x
  | .mult, values | .nonlinearMult, values => values.prod
  | .abs, [x] => |x|
  | .pow, [x, y] => I.pow x y
  | .toReal, [x] => x
  | .toInteger, [x] => ⌊x⌋
  | .division, [x, y] => if y = 0 then I.divideByZero x else x / y
  | .divisionTotal, [x, y] => x / y
  | .intsDivision, [x, y] => if y = 0 then I.intDivideByZero ⌊x⌋ else (⌊x⌋ / ⌊y⌋ : Int)
  | .intsDivisionTotal, [x, y] => (⌊x⌋ / ⌊y⌋ : Int)
  | .intsModulus, [x, y] => if y = 0 then I.modulusByZero ⌊x⌋ else (⌊x⌋ % ⌊y⌋ : Int)
  | .intsModulusTotal, [x, y] => (⌊x⌋ % ⌊y⌋ : Int)
  | .pow2, [x] => if 0 ≤ x then 2 ^ ⌊x⌋.toNat else 0
  | .intsLog2, [x] => Nat.log 2 ⌊x⌋.toNat
  | .intsIspow2, [x] => truth (∃ e : Nat, x = 2 ^ e)
  | .divByZero, [x] => I.divideByZero x
  | .intDivByZero, [x] => I.intDivideByZero ⌊x⌋
  | .modByZero, [x] => I.modulusByZero ⌊x⌋
  | .ubvToInt, [x] => ⌊x⌋
  | .intToBv w, [x] => (⌊x⌋ % 2 ^ w : Int)
  | .bvExtract high low, [x] => (⌊x⌋ / 2 ^ low % 2 ^ (high + 1 - low) : Int)
  | .bvConcat widths, values => (concatenate widths values 0 : Int)
  | .bvUge, [x, y] => truth (y ≤ x)
  | .bvUgt, [x, y] => truth (y < x)
  | .bvUle, [x, y] => truth (x ≤ y)
  | .bvUlt, [x, y] => truth (x < y)
  | _, _ => 0

mutual
noncomputable def Node.value (I : Interpretation) : Node → ℝ
  | .var type name => I.var type name
  | .term type name => I.term type name
  | .constBoolean b => truth (b = true)
  | .constInteger z => z
  | .constRational r => r
  | .constBitVector w value => (value % 2 ^ w : Nat)
  | .apply k children => k.apply I (children.values I)

noncomputable def Nodes.values (I : Interpretation) : Nodes → List ℝ
  | .nil => []
  | .cons head tail => head.value I :: tail.values I
end

theorem Nodes.values_eq (I : Interpretation) (children : Nodes)
    : children.values I = children.toList.map (Node.value I) := by
  match children with
  | .nil => rfl
  | .cons head tail => rw [values, toList, List.map_cons, values_eq I tail]

@[simp]
theorem value_mkNode (I : Interpretation) (k : Kind) (nodes : List Node)
    : (mkNode k nodes).value I = k.apply I (nodes.map (Node.value I)) := by
  rw [mkNode, Node.value, Nodes.values_eq, Nodes.toList_ofList]

/-- The interpretation makes the node true. -/
def Interpretation.Satisfies (I : Interpretation) (n : Node) : Prop := n.value I = 1

section Truth

variable {p q : Prop}

theorem truth_eq_one : truth p = 1 ↔ p := by
  unfold truth
  split <;> simp [*]

theorem truth_congr (same : p ↔ q) : truth p = truth q := by
  rw [propext same]

theorem one_sub_truth (p : Prop) : 1 - truth p = truth ¬p := by
  by_cases holds : p <;> simp [truth, holds]

end Truth

def Kind.isRelation : Kind → Bool
  | .equal | .lt | .leq | .gt | .geq => true
  | _ => false

/-- The relation of two values. -/
def Kind.relates : Kind → ℝ → ℝ → Prop
  | .equal, x, y => x = y
  | .distinct, x, y => x ≠ y
  | .lt, x, y => x < y
  | .leq, x, y => x ≤ y
  | .gt, x, y => y < x
  | .geq, x, y => y ≤ x
  | _, _, _ => False

theorem value_relation (I : Interpretation) {k : Kind} (isRelation : k.isRelation = true) (left right : Node)
    : (mkNode k [left, right]).value I = truth (k.relates (left.value I) (right.value I)) := by
  rw [value_mkNode]
  cases k <;> first | rfl | cases isRelation

theorem value_of_getConst (I : Interpretation) {n : Node} {r : Rat} (isConst : n.getConst = some r)
    : n.value I = r := by
  cases n with
  | constInteger z =>
      rw [← Option.some.inj isConst, Node.value, Rat.cast_intCast]
  | constRational q => rw [← Option.some.inj isConst, Node.value]
  | var _ _ | term _ _ | constBoolean _ | constBitVector _ _ | apply _ _ => cases isConst

-- Integral values

/-- Induction over nodes, with the property for all children of an application. -/
@[elab_as_elim]
theorem Node.induction {P : Node → Prop} (var : ∀ type name, P (.var type name))
    (term : ∀ type name, P (.term type name)) (constBoolean : ∀ value, P (.constBoolean value))
    (constInteger : ∀ value, P (.constInteger value)) (constRational : ∀ value, P (.constRational value))
    (constBitVector : ∀ w value, P (.constBitVector w value))
    (apply : ∀ k children, (∀ n ∈ children.toList, P n) → P (.apply k children)) (n : Node)
    : P n := by
  refine @Node.rec P (fun children => ∀ n ∈ children.toList, P n) var term constBoolean constInteger constRational
    constBitVector apply ?_ ?_ n
  · exact nofun
  · intro head tail ofHead ofTail n member
    rcases List.mem_cons.mp member with rfl | inTail
    · exact ofHead
    · exact ofTail n inTail

def IsInteger (x : ℝ) : Prop := ∃ z : Int, x = z

section Integral

variable {x y : ℝ}

theorem IsInteger.of_int (z : Int) : IsInteger z := ⟨z, rfl⟩

theorem IsInteger.of_nat (n : Nat) : IsInteger n := ⟨n, (Int.cast_natCast n).symm⟩

theorem IsInteger.floor (integral : IsInteger x) : (⌊x⌋ : ℝ) = x := by
  obtain ⟨z, rfl⟩ := integral
  rw [Int.floor_intCast]

theorem IsInteger.add (first : IsInteger x) (second : IsInteger y) : IsInteger (x + y) := by
  obtain ⟨z, rfl⟩ := first
  obtain ⟨z', rfl⟩ := second
  exact ⟨z + z', (Int.cast_add z z').symm⟩

theorem IsInteger.mul (first : IsInteger x) (second : IsInteger y) : IsInteger (x * y) := by
  obtain ⟨z, rfl⟩ := first
  obtain ⟨z', rfl⟩ := second
  exact ⟨z * z', (Int.cast_mul z z').symm⟩

theorem IsInteger.neg (integral : IsInteger x) : IsInteger (-x) := by
  obtain ⟨z, rfl⟩ := integral
  exact ⟨-z, (Int.cast_neg z).symm⟩

theorem IsInteger.sub (first : IsInteger x) (second : IsInteger y) : IsInteger (x - y) := by
  rw [sub_eq_add_neg]
  exact first.add second.neg

theorem IsInteger.sum {values : List ℝ} (integral : ∀ x ∈ values, IsInteger x) : IsInteger values.sum := by
  induction values with
  | nil => exact ⟨0, by simp⟩
  | cons x values ih =>
      obtain ⟨first, rest⟩ := List.forall_mem_cons.mp integral
      rw [List.sum_cons]
      exact first.add (ih rest)

theorem IsInteger.prod {values : List ℝ} (integral : ∀ x ∈ values, IsInteger x) : IsInteger values.prod := by
  induction values with
  | nil => exact ⟨1, by simp⟩
  | cons x values ih =>
      obtain ⟨first, rest⟩ := List.forall_mem_cons.mp integral
      rw [List.prod_cons]
      exact first.mul (ih rest)

theorem IsInteger.pow (integral : IsInteger x) (n : Nat) : IsInteger (x ^ n) := by
  obtain ⟨z, rfl⟩ := integral
  exact ⟨z ^ n, (Int.cast_pow z n).symm⟩

theorem IsInteger.abs (integral : IsInteger x) : IsInteger |x| := by
  obtain ⟨z, rfl⟩ := integral
  exact ⟨|z|, Int.cast_abs.symm⟩

variable (I : Interpretation)

theorem Interpretation.pow_integer (first : IsInteger x) (second : IsInteger y) : IsInteger (I.pow x y) := by
  unfold pow
  split
  · exact first.pow _
  · obtain ⟨z, rfl⟩ := first
    obtain ⟨z', rfl⟩ := second
    exact I.power_int z z'

theorem IsInteger.zero : IsInteger 0 := ⟨0, Int.cast_zero.symm⟩

theorem IsInteger.ite {p : Prop} [Decidable p] (first : IsInteger x) (second : IsInteger y)
    : IsInteger (if p then x else y) := by
  split
  · exact first
  · exact second

/-- The operators that are of type Int if all children are. -/
theorem integer_of_integers {k : Kind} {values : List ℝ} (integers : ∀ x ∈ values, IsInteger x)
    (isSum : k = .add ∨ k = .sub ∨ k = .neg ∨ k = .mult ∨ k = .nonlinearMult ∨ k = .abs ∨ k = .pow)
    : IsInteger (k.apply I values) := by
  rcases isSum with rfl | rfl | rfl | rfl | rfl | rfl | rfl
  · exact IsInteger.sum integers
  · match values with
    | [x, y] => exact (integers x (by simp)).sub (integers y (by simp))
    | [] | [_] | _ :: _ :: _ :: _ => exact .zero
  · match values with
    | [x] => exact (integers x (by simp)).neg
    | [] | _ :: _ :: _ => exact .zero
  · exact IsInteger.prod integers
  · exact IsInteger.prod integers
  · match values with
    | [x] => exact (integers x (by simp)).abs
    | [] | _ :: _ :: _ => exact .zero
  · match values with
    | [x, y] => exact I.pow_integer (integers x (by simp)) (integers y (by simp))
    | [] | [_] | _ :: _ :: _ :: _ => exact .zero

/-- The operators that are always of type Int. -/
theorem integer_of_kind (k : Kind) (values : List ℝ)
    (isInt : k = .toInteger ∨ k = .intsDivision ∨ k = .intsDivisionTotal ∨ k = .intsModulus ∨ k = .intsModulusTotal
      ∨ k = .pow2 ∨ k = .intsLog2 ∨ k = .intDivByZero ∨ k = .modByZero ∨ k = .ubvToInt)
    : IsInteger (k.apply I values) := by
  match values with
  | [] | _ :: _ :: _ :: _ => rcases isInt with rfl | rfl | rfl | rfl | rfl | rfl | rfl | rfl | rfl | rfl <;> exact .zero
  | [x] =>
      rcases isInt with rfl | rfl | rfl | rfl | rfl | rfl | rfl | rfl | rfl | rfl
      · exact .of_int ⌊x⌋
      · exact .zero
      · exact .zero
      · exact .zero
      · exact .zero
      · exact .ite ⟨2 ^ ⌊x⌋.toNat, by simp⟩ .zero
      · exact .of_nat _
      · exact .of_int _
      · exact .of_int _
      · exact .of_int _
  | [x, y] =>
      rcases isInt with rfl | rfl | rfl | rfl | rfl | rfl | rfl | rfl | rfl | rfl
      · exact .zero
      · exact .ite (.of_int _) (.of_int _)
      · exact .of_int _
      · exact .ite (.of_int _) (.of_int _)
      · exact .of_int _
      · exact .zero
      · exact .zero
      · exact .zero
      · exact .zero
      · exact .zero

/-- Nodes of type Int have integral values. -/
theorem integer_of_getType {n : Node} (isInt : n.getType = .int) : IsInteger (n.value I) := by
  induction n using Node.induction with
  | var type name =>
      obtain rfl : type = .int := isInt
      exact I.var_int name
  | term type name =>
      obtain rfl : type = .int := isInt
      exact I.term_int name
  | constBoolean b => cases isInt
  | constInteger z => exact .of_int z
  | constRational r => cases isInt
  | constBitVector w value => cases isInt
  | apply k children ih =>
      rw [Node.getType, Nodes.getTypes_eq] at isInt
      rw [Node.value, Nodes.values_eq]
      have integers (all : (children.toList.map Node.getType).all (· == .int) = true)
          : ∀ x ∈ children.toList.map (Node.value I), IsInteger x := by
        intro x member
        obtain ⟨n, isChild, rfl⟩ := List.mem_map.mp member
        exact ih n isChild (beq_iff_eq.mp (List.all_eq_true.mp all _ (List.mem_map_of_mem isChild)))
      cases k with
      | not | and | implies | equal | distinct | lt | leq | gt | geq | isInteger | divisible _ | intsIspow2 => cases isInt
      | toReal | division | divisionTotal | divByZero => cases isInt
      | bvUge | bvUgt | bvUle | bvUlt | intToBv _ | bvExtract _ _ | bvConcat _ => cases isInt
      | toInteger | intsDivision | intsDivisionTotal | intsModulus | intsModulusTotal | pow2 | intsLog2
      | intDivByZero | modByZero | ubvToInt => exact integer_of_kind I _ _ (by simp)
      | ite =>
          match nodes : children.toList with
          | [condition, first, second] =>
              rw [nodes] at isInt ih
              simp only [List.map_cons, List.map_nil, Kind.computeType] at isInt
              split at isInt
              · next same => exact .ite (ih first (by simp) isInt) (ih second (by simp) (same ▸ isInt))
              · cases isInt
          | [] | [_] | [_, _] | _ :: _ :: _ :: _ :: _ => exact .zero
      | add | sub | neg | mult | nonlinearMult | abs | pow =>
          simp only [Kind.computeType] at isInt
          split at isInt
          · next all => exact integer_of_integers I (integers all) (by simp)
          · cases isInt
      | var | term | constBoolean | constInteger | constRational | constBitVector => exact .zero

/-- Concatenations of parts have as many bits as the parts. -/
theorem concatenate_bounds (widths : List Nat) (values : List ℝ) {front : Int} {w : Nat} (nonneg : 0 ≤ front)
    (below : front < 2 ^ w)
    : 0 ≤ concatenate widths values front ∧ concatenate widths values front < 2 ^ (w + widths.sum) := by
  induction widths generalizing values front w with
  | nil =>
      cases values <;> exact ⟨nonneg, below⟩
  | cons width widths ih =>
      cases values with
      | nil =>
          refine ⟨nonneg, lt_of_lt_of_le below ?_⟩
          exact_mod_cast Nat.pow_le_pow_right Nat.two_pos (Nat.le_add_right w _)
      | cons x values =>
          have positive : (0 : Int) < 2 ^ width := by positivity
          have partNonneg := Int.emod_nonneg ⌊x⌋ positive.ne'
          have partBelow := Int.emod_lt_of_pos ⌊x⌋ positive
          rw [concatenate, List.sum_cons, ← Nat.add_assoc]
          refine ih values (add_nonneg (mul_nonneg nonneg positive.le) partNonneg) ?_
          calc front * 2 ^ width + ⌊x⌋ % 2 ^ width < front * 2 ^ width + 2 ^ width := by omega
            _ = (front + 1) * 2 ^ width := by rw [add_mul, one_mul]
            _ ≤ 2 ^ w * 2 ^ width := mul_le_mul_of_nonneg_right (by omega) positive.le
            _ = 2 ^ (w + width) := (pow_add 2 w width).symm

theorem exists_bitVec {w : Nat} {z : Int} (nonneg : 0 ≤ z) (below : z < 2 ^ w)
    : ∃ b : BitVec w, (z : ℝ) = b.toNat := by
  obtain ⟨n, rfl⟩ := Int.eq_ofNat_of_zero_le nonneg
  have isBelow : n < 2 ^ w := by exact_mod_cast below
  exact ⟨BitVec.ofNat w n, by rw [BitVec.toNat_ofNat, Nat.mod_eq_of_lt isBelow, Int.cast_natCast]⟩

theorem exists_bitVec_emod (w : Nat) (z : Int) : ∃ b : BitVec w, ((z % 2 ^ w : Int) : ℝ) = b.toNat :=
  exists_bitVec (Int.emod_nonneg z (by positivity)) (Int.emod_lt_of_pos z (by positivity))

theorem apply_ite_cases (c x y : ℝ) : Kind.apply I .ite [c, x, y] = x ∨ Kind.apply I .ite [c, x, y] = y := by
  rw [Kind.apply]
  split
  · exact Or.inl rfl
  · exact Or.inr rfl

/-- Nodes of a bit-vector type have bit-vectors as values. -/
theorem bitVec_of_getType {n : Node} {w : Nat} (isBitVector : n.getType = .bitVector w)
    : ∃ b : BitVec w, n.value I = b.toNat := by
  have zero (w : Nat) : ∃ b : BitVec w, (0 : ℝ) = b.toNat := ⟨0#w, by simp⟩
  induction n using Node.induction generalizing w with
  | var type name =>
      obtain rfl : type = .bitVector w := isBitVector
      exact I.var_bitVector w name
  | term type name =>
      obtain rfl : type = .bitVector w := isBitVector
      exact I.term_bitVector w name
  | constBoolean _ | constInteger _ | constRational _ => cases isBitVector
  | constBitVector w' value =>
      cases isBitVector
      exact ⟨BitVec.ofNat _ value, by rw [BitVec.toNat_ofNat, Node.value]⟩
  | apply k children ih =>
      rw [Node.getType, Nodes.getTypes_eq] at isBitVector
      rw [Node.value, Nodes.values_eq]
      cases k with
      | intToBv w' =>
          cases isBitVector
          match children.toList.map (Node.value I) with
          | [x] => exact exists_bitVec_emod _ ⌊x⌋
          | [] | _ :: _ :: _ => exact zero _
      | bvExtract high low =>
          cases isBitVector
          match children.toList.map (Node.value I) with
          | [x] => exact exists_bitVec_emod _ (⌊x⌋ / 2 ^ low)
          | [] | _ :: _ :: _ => exact zero _
      | bvConcat widths =>
          cases isBitVector
          have bounds := concatenate_bounds widths (children.toList.map (Node.value I)) (le_refl 0)
            (show (0 : Int) < 2 ^ 0 by decide)
          rw [Nat.zero_add] at bounds
          exact exists_bitVec bounds.1 bounds.2
      | ite =>
          match nodes : children.toList with
          | [condition, first, second] =>
              rw [nodes] at isBitVector ih
              simp only [List.map_cons, List.map_nil, Kind.computeType] at isBitVector
              split at isBitVector
              · next same =>
                  rcases apply_ite_cases I (condition.value I) (first.value I) (second.value I) with isFirst | isSecond
                  · rw [List.map_cons, List.map_cons, List.map_cons, List.map_nil, isFirst]
                    exact ih first (by simp) isBitVector
                  · rw [List.map_cons, List.map_cons, List.map_cons, List.map_nil, isSecond]
                    exact ih second (by simp) (same ▸ isBitVector)
              · cases isBitVector
          | [] | [_] | [_, _] | _ :: _ :: _ :: _ :: _ => exact zero w
      | add | sub | neg | mult | nonlinearMult | abs | pow | var | term | constBoolean | constInteger
      | constRational | constBitVector =>
          simp only [Kind.computeType] at isBitVector
          split at isBitVector <;> cases isBitVector
      | _ => cases isBitVector

end Integral

end Ava6.Arith.Rewriter

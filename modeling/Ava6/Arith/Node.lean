import Mathlib.Data.Real.Basic

/-! Arithmetic nodes as proof checking and polynomial normalization see them, also of bit-vector sorts: untyped trees
with a computed type, and their meaning under an interpretation. Numbers of both arithmetic sorts are read as reals; an
interpretation gives integers to the terms of integer sort. Every other operator is an `op` with the sort of its result.
-/

namespace Ava6.Arith

inductive TypeNode
  | bool | int | real
  | bitVector (width : Nat)
  | other (name : Nat)
  deriving DecidableEq, Repr

namespace TypeNode

def isRealOrInt : TypeNode → Bool
  | .int | .real => true
  | _ => false

def isBitVector : TypeNode → Bool
  | .bitVector _ => true
  | _ => false

/-- Without abstract types, only equal types are comparable. -/
def leastUpperBound (t s : TypeNode) : Option TypeNode := if t = s then some t else none

end TypeNode

inductive Kind
  | var | constInteger | constRational | constBitvector
  | add | sub | neg | mult | nonlinearMult
  | toReal | division | divisionTotal
  | bitvectorAdd | bitvectorSub | bitvectorNeg | bitvectorMult
  | equal | lt | leq | gt | geq | distinct
  | not | and | implies
  | op (symbol : Nat) (range : TypeNode)
  deriving DecidableEq, Repr

mutual
inductive Node
  | var (type : TypeNode) (name : Nat)
  | constInteger (value : Int)
  | constRational (value : Rat)
  | constBitvector (width : Nat) (value : BitVec width)
  | apply (k : Kind) (children : Nodes)
  deriving DecidableEq, Repr

/-- The children of a node. -/
inductive Nodes
  | nil
  | cons (head : Node) (tail : Nodes)
  deriving DecidableEq, Repr
end

namespace Nodes

def ofList : List Node → Nodes
  | [] => .nil
  | head :: tail => .cons head (ofList tail)

def toList : Nodes → List Node
  | .nil => []
  | .cons head tail => head :: tail.toList

@[simp]
theorem toList_ofList (nodes : List Node) : (ofList nodes).toList = nodes := by
  induction nodes with
  | nil => rfl
  | cons head tail ih => rw [ofList, toList, ih]

end Nodes

def mkNode (k : Kind) (children : List Node) : Node := .apply k (.ofList children)

namespace Node

def getKind : Node → Kind
  | .var _ _ => .var
  | .constInteger _ => .constInteger
  | .constRational _ => .constRational
  | .constBitvector _ _ => .constBitvector
  | .apply k _ => k

def children : Node → List Node
  | .apply _ nodes => nodes.toList
  | _ => []

/-- `n[i]` for the first two positions; there is nothing at a position the node lacks. -/
def first : Node → Option Node
  | .apply _ (.cons a _) => some a
  | _ => none

def second : Node → Option Node
  | .apply _ (.cons _ (.cons b _)) => some b
  | _ => none

/-- `getConst<Rational>`, defined on arithmetic constants only. -/
def getConst : Node → Option Rat
  | .constInteger value => some value
  | .constRational value => some value
  | _ => none

end Node

/-- The common type of at least `least` children of a bit-vector operator. -/
def bitVectorType (least : Nat) (types : List TypeNode) : Option TypeNode :=
  match types with
  | .bitVector width :: rest =>
      if least ≤ types.length ∧ rest.all (· == .bitVector width) then some (.bitVector width)
      else none
  | _ => none

def allSame : List TypeNode → Bool
  | first :: second :: rest => (second :: rest).all (· == first)
  | _ => false

/-- The type rules: the type of an application from the types of its children. -/
def Kind.computeType : Kind → List TypeNode → Option TypeNode
  | .add, types | .mult, types | .nonlinearMult, types =>
      if 2 ≤ types.length ∧ types.all TypeNode.isRealOrInt then
        some (if types.all (· == .int) then .int else .real)
      else none
  | .sub, [a, b] =>
      if a.isRealOrInt && b.isRealOrInt then
        some (if a == .int && b == .int then .int else .real)
      else none
  | .neg, [a] => if a.isRealOrInt then some a else none
  | .toReal, [a] => if a.isRealOrInt then some .real else none
  | .division, [a, b] | .divisionTotal, [a, b] =>
      if a.isRealOrInt && b.isRealOrInt then some .real else none
  | .bitvectorAdd, types | .bitvectorMult, types => bitVectorType 2 types
  | .bitvectorSub, [a, b] => bitVectorType 2 [a, b]
  | .bitvectorNeg, [a] => bitVectorType 1 [a]
  | .equal, [a, b] => if (a.leastUpperBound b).isSome then some .bool else none
  | .lt, [a, b] | .leq, [a, b] | .gt, [a, b] | .geq, [a, b] =>
      if a.isRealOrInt && b.isRealOrInt then some .bool else none
  | .distinct, types => if allSame types then some .bool else none
  | .not, [.bool] => some .bool
  | .implies, [.bool, .bool] => some .bool
  | .and, types => if 2 ≤ types.length ∧ types.all (· == .bool) then some .bool else none
  | .op _ range, _ => some range
  | _, _ => none

mutual
/-- `getType(check = true)`; nothing for an ill-sorted node. -/
def Node.getType : Node → Option TypeNode
  | .var type _ => some type
  | .constInteger _ => some .int
  | .constRational _ => some .real
  | .constBitvector width _ => some (.bitVector width)
  | .apply k children => children.getTypes.bind k.computeType

def Nodes.getTypes : Nodes → Option (List TypeNode)
  | .nil => some []
  | .cons head tail => do
      let type ← head.getType
      let types ← tail.getTypes
      return type :: types
end

/-- Values of the sorts. -/
inductive Value
  | bool (value : Prop)
  | num (value : ℝ)
  | bv (width value : Nat)
  | elem (type element : Nat)

namespace Value

def HasType : Value → TypeNode → Prop
  | .bool _, .bool => True
  | .num value, .int => ∃ z : Int, value = z
  | .num _, .real => True
  | .bv width value, .bitVector width' => width = width' ∧ value < 2 ^ width
  | .elem type _, .other name => type = name
  | _, _ => False

/-- The number a value is; only meaningful at the arithmetic and bit-vector sorts. -/
noncomputable def toReal : Value → ℝ
  | .num value => value
  | .bv _ value => value
  | _ => 0

def toInt : Value → Int
  | .bv _ value => value
  | _ => 0

def width : Value → Nat
  | .bv width _ => width
  | _ => 0

def IsTrue : Value → Prop
  | .bool value => value
  | _ => False

/-- An integer in `width` bits. -/
def ofInt (width : Nat) (z : Int) : Value := .bv width (z % 2 ^ width).toNat

end Value

/-- The width of the first value. -/
def widthOf : List Value → Nat
  | [] => 0
  | first :: _ => first.width

/-- Values for the variables and for the operators that are not looked into, of the right sorts, and
the value of a division by zero.
-/
structure Interpretation where
  var : TypeNode → Nat → Value
  op : Nat → TypeNode → List Value → Value
  divideByZero : ℝ → ℝ
  var_hasType : ∀ type name, (var type name).HasType type
  op_hasType : ∀ symbol range values, (op symbol range values).HasType range

open scoped Classical in
/-- The meaning of a kind on the values of the children. -/
noncomputable def Kind.apply (I : Interpretation) : Kind → List Value → Value
  | .add, values => .num (values.map Value.toReal).sum
  | .mult, values | .nonlinearMult, values => .num (values.map Value.toReal).prod
  | .sub, [a, b] => .num (a.toReal - b.toReal)
  | .neg, [a] => .num (-a.toReal)
  | .toReal, [a] => .num a.toReal
  | .division, [a, b] =>
      .num (if b.toReal = 0 then I.divideByZero a.toReal else a.toReal / b.toReal)
  | .divisionTotal, [a, b] => .num (a.toReal / b.toReal)
  | .bitvectorAdd, values => .ofInt (widthOf values) (values.map Value.toInt).sum
  | .bitvectorMult, values => .ofInt (widthOf values) (values.map Value.toInt).prod
  | .bitvectorSub, [a, b] => .ofInt a.width (a.toInt - b.toInt)
  | .bitvectorNeg, [a] => .ofInt a.width (-a.toInt)
  | .equal, [a, b] => .bool (a = b)
  | .lt, [a, b] => .bool (a.toReal < b.toReal)
  | .leq, [a, b] => .bool (a.toReal ≤ b.toReal)
  | .gt, [a, b] => .bool (b.toReal < a.toReal)
  | .geq, [a, b] => .bool (b.toReal ≤ a.toReal)
  | .distinct, values => .bool (values.Pairwise (· ≠ ·))
  | .not, [a] => .bool (¬a.IsTrue)
  | .implies, [a, b] => .bool (a.IsTrue → b.IsTrue)
  | .and, values => .bool (∀ value ∈ values, value.IsTrue)
  | .op symbol range, values => I.op symbol range values
  | _, _ => .bool False

mutual
noncomputable def Node.eval (I : Interpretation) : Node → Value
  | .var type name => I.var type name
  | .constInteger value => .num value
  | .constRational value => .num value
  | .constBitvector width value => .bv width value.toNat
  | .apply k children => k.apply I (children.eval I)

noncomputable def Nodes.eval (I : Interpretation) : Nodes → List Value
  | .nil => []
  | .cons head tail => head.eval I :: tail.eval I
end

/-- The interpretation makes the node true. -/
def Interpretation.Satisfies (I : Interpretation) (n : Node) : Prop := (n.eval I).IsTrue

@[simp]
theorem eval_ofList (I : Interpretation) (children : List Node)
    : (Nodes.ofList children).eval I = children.map (Node.eval I) := by
  induction children with
  | nil => rfl
  | cons head tail ih => rw [Nodes.ofList, Nodes.eval, ih, List.map_cons]

@[simp]
theorem eval_mkNode (I : Interpretation) (k : Kind) (children : List Node)
    : (mkNode k children).eval I = k.apply I (children.map (Node.eval I)) := by
  rw [mkNode, Node.eval, eval_ofList]

/-- Induction over nodes, with the property for all children of an application. -/
@[elab_as_elim]
theorem Node.induction {P : Node → Prop} (var : ∀ type name, P (.var type name))
    (constInteger : ∀ value, P (.constInteger value))
    (constRational : ∀ value, P (.constRational value))
    (constBitvector : ∀ width value, P (.constBitvector width value))
    (apply : ∀ k children, (∀ n ∈ children.toList, P n) → P (.apply k children)) (n : Node)
    : P n := by
  refine @Node.rec P (fun children => ∀ n ∈ children.toList, P n) var constInteger constRational
    constBitvector apply ?_ ?_ n
  · intro n member
    simp [Nodes.toList] at member
  · intro head tail ofHead ofTail n member
    rcases List.mem_cons.mp member with isHead | inTail
    · rw [isHead]
      exact ofHead
    · exact ofTail n inTail

theorem Nodes.getTypes_eq {children : Nodes} {types : List TypeNode}
    (typed : children.getTypes = some types)
    : List.Forall₂ (fun n t => n.getType = some t) children.toList types := by
  induction types generalizing children with
  | nil =>
      cases children with
      | nil => exact .nil
      | cons head tail => simp [Nodes.getTypes, Option.bind_eq_some_iff] at typed
  | cons t types ih =>
      cases children with
      | nil => simp [Nodes.getTypes] at typed
      | cons head tail =>
          simp only [Nodes.getTypes, Option.bind_eq_bind, Option.pure_def, Option.bind_eq_some_iff,
            Option.some.injEq, List.cons.injEq] at typed
          obtain ⟨_, ofHead, _, ofTail, rfl, rfl⟩ := typed
          exact .cons ofHead (ih ofTail)

theorem Nodes.eval_toList (I : Interpretation) (children : Nodes)
    : children.eval I = children.toList.map (Node.eval I) := by
  match children with
  | .nil => rfl
  | .cons head tail => rw [Nodes.eval, Nodes.toList, List.map_cons, eval_toList I tail]

theorem Nodes.ofList_toList (children : Nodes) : Nodes.ofList children.toList = children := by
  match children with
  | .nil => rfl
  | .cons head tail => rw [Nodes.toList, Nodes.ofList, ofList_toList tail]

/-- What the type of an application says about its children. -/
theorem Node.getType_apply {k : Kind} {children : Nodes} {t : TypeNode}
    (typed : (Node.apply k children).getType = some t)
    : ∃ types, List.Forall₂ (fun n t => n.getType = some t) children.toList types
        ∧ k.computeType types = some t := by
  rw [Node.getType] at typed
  obtain ⟨types, ofChildren, computed⟩ := Option.bind_eq_some_iff.mp typed
  exact ⟨types, Nodes.getTypes_eq ofChildren, computed⟩

end Ava6.Arith

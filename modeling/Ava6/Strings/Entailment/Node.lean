import Mathlib

/-! Nodes over integers and strings with any other operators, their types and values, and substitution. A kind that
entailment does not look into has any meaning that respects its type; sums of reals are of such a kind.
-/

namespace Ava6.Strings.Entailment

inductive TypeNode
  | bool | int | string
  | other (name : Nat)
  deriving DecidableEq, Repr

inductive Value
  | bool (value : Bool)
  | int (value : Int)
  | string (characters : List Nat)
  | other (type element : Nat)
  deriving DecidableEq, Repr

def Value.type : Value → TypeNode
  | .bool _ => .bool
  | .int _ => .int
  | .string _ => .string
  | .other type _ => .other type

/-- The number that a value is, where it is one. -/
def Value.toInt : Value → Int
  | .int value => value
  | _ => 0

def Value.length : Value → Nat
  | .string characters => characters.length
  | _ => 0

def Value.isTrue : Value → Bool
  | .bool value => value
  | _ => false

inductive Kind
  | add | mult | sub | equal | geq | not | stringLength
  | op (symbol : Nat) (range : TypeNode)
  deriving DecidableEq, Repr

mutual
inductive Node
  | const (value : Value)
  | var (type : TypeNode) (name : Nat)
  | apply (kind : Kind) (children : Nodes)
  deriving DecidableEq, Repr

/-- The children of a node. -/
inductive Nodes
  | nil
  | cons (head : Node) (tail : Nodes)
  deriving DecidableEq, Repr
end

namespace Nodes

def toList : Nodes → List Node
  | .nil => []
  | .cons head tail => head :: tail.toList

def ofList : List Node → Nodes
  | [] => .nil
  | head :: tail => .cons head (ofList tail)

@[simp]
theorem toList_ofList (children : List Node) : (ofList children).toList = children := by
  induction children with
  | nil => rfl
  | cons head tail ih => rw [ofList, toList, ih]

end Nodes

def mkNode (kind : Kind) (children : List Node) : Node := .apply kind (.ofList children)

def mkConstInt (n : Int) : Node := .const (.int n)

/-- The type of an application, from the types of its children. -/
def Kind.computeType : Kind → List TypeNode → Option TypeNode
  | .add, types | .mult, types => if 2 ≤ types.length ∧ types.all (· == .int) then some .int else none
  | .sub, [.int, .int] => some .int
  | .equal, [a, b] => if a = b then some .bool else none
  | .geq, [.int, .int] | .not, [.bool] => some .bool
  | .stringLength, [.string] => some .int
  | .op _ range, _ => some range
  | _, _ => none

mutual
/-- Nothing for a node that is not well sorted. -/
def Node.getType : Node → Option TypeNode
  | .const value => some value.type
  | .var type _ => some type
  | .apply kind children => children.getTypes.bind kind.computeType

def Nodes.getTypes : Nodes → Option (List TypeNode)
  | .nil => some []
  | .cons head tail => do
      let type ← head.getType
      let types ← tail.getTypes
      return type :: types
end

/-- An integer term. -/
def Node.IsInteger (n : Node) : Prop := n.getType = some .int

instance (n : Node) : Decidable n.IsInteger := inferInstanceAs (Decidable (n.getType = some .int))

/-- Values of variables and of the other operators, of their types. -/
structure Interpretation where
  var : TypeNode → Nat → Value
  op : Nat → TypeNode → List Value → Value
  type_var : ∀ type name, (var type name).type = type
  type_op : ∀ symbol range values, (op symbol range values).type = range

def Kind.eval (I : Interpretation) : Kind → List Value → Value
  | .add, values => .int (values.map Value.toInt).sum
  | .mult, values => .int (values.map Value.toInt).prod
  | .sub, [a, b] => .int (a.toInt - b.toInt)
  | .equal, [a, b] => .bool (decide (a = b))
  | .geq, [a, b] => .bool (decide (b.toInt ≤ a.toInt))
  | .not, [a] => .bool (!a.isTrue)
  | .stringLength, [s] => .int s.length
  | .op symbol range, values => I.op symbol range values
  | .sub, _ | .stringLength, _ => .int 0
  | .equal, _ | .geq, _ | .not, _ => .bool false

variable (I : Interpretation)

mutual
def Node.eval : Node → Value
  | .const value => value
  | .var type name => I.var type name
  | .apply kind children => kind.eval I children.eval

def Nodes.eval : Nodes → List Value
  | .nil => []
  | .cons head tail => head.eval :: tail.eval
end

def Interpretation.Satisfies (n : Node) : Prop := (n.eval I).isTrue = true

variable {I}

@[simp]
theorem eval_const (value : Value) : (Node.const value).eval I = value := by rw [Node.eval]

theorem eval_nodes (children : Nodes) : children.eval I = children.toList.map (Node.eval I) := by
  match children with
  | .nil => rfl
  | .cons head tail => rw [Nodes.eval, Nodes.toList, List.map_cons, eval_nodes tail]

@[simp]
theorem eval_mkNode (kind : Kind) (children : List Node)
    : (mkNode kind children).eval I = kind.eval I (children.map (Node.eval I)) := by
  rw [mkNode, Node.eval, eval_nodes, Nodes.toList_ofList]

theorem getTypes_eq_some {children : Nodes} {types : List TypeNode} (isTypes : children.getTypes = some types)
    : children.toList.map Node.getType = types.map some := by
  match children with
  | .nil =>
      cases isTypes
      rfl
  | .cons head tail =>
      rw [Nodes.getTypes, Option.bind_eq_bind, Option.bind_eq_some_iff] at isTypes
      obtain ⟨type, isType, isTypes⟩ := isTypes
      rw [Option.bind_eq_bind, Option.bind_eq_some_iff] at isTypes
      obtain ⟨types', isTypes', isResult⟩ := isTypes
      cases isResult
      rw [Nodes.toList, List.map_cons, isType, getTypes_eq_some isTypes', List.map_cons]

def Kind.range : Kind → TypeNode
  | .add | .mult | .sub | .stringLength => .int
  | .equal | .geq | .not => .bool
  | .op _ range => range

theorem range_of_computeType {kind : Kind} {types : List TypeNode} {type : TypeNode}
    (isType : kind.computeType types = some type)
    : kind.range = type := by
  unfold Kind.computeType at isType
  split at isType
  all_goals first
    | (split at isType <;> cases isType <;> rfl)
    | (cases isType <;> rfl)

theorem type_kind_eval (kind : Kind) (values : List Value) : (kind.eval I values).type = kind.range := by
  cases kind with
  | op symbol range => exact I.type_op symbol range values
  | add | mult => rfl
  | sub | equal | geq | not | stringLength =>
      unfold Kind.eval
      split
      all_goals first
        | rfl
        | contradiction

theorem type_eval {n : Node} {type : TypeNode} (isType : n.getType = some type) : (n.eval I).type = type := by
  cases n with
  | const value =>
      rw [Node.getType, Option.some_inj] at isType
      rw [eval_const, isType]
  | var type' name =>
      rw [Node.getType, Option.some_inj] at isType
      rw [Node.eval, I.type_var, isType]
  | apply kind children =>
      rw [Node.getType, Option.bind_eq_some_iff] at isType
      obtain ⟨types, _, isType⟩ := isType
      rw [Node.eval, type_kind_eval, range_of_computeType isType]

theorem eval_of_isInteger {n : Node} (isInteger : n.IsInteger) : n.eval I = .int (n.eval I).toInt := by
  have isType : (n.eval I).type = .int := type_eval isInteger
  cases isValue : n.eval I with
  | int value => rfl
  | bool value | string characters | other type element =>
      rw [isValue] at isType
      cases isType

mutual
/-- Replaces a node wherever it occurs. -/
def Node.substitute (n node replacement : Node) : Node :=
  match n with
  | .const value => if .const value = node then replacement else .const value
  | .var type name => if .var type name = node then replacement else .var type name
  | .apply kind children =>
      if .apply kind children = node then replacement else .apply kind (children.substitute node replacement)

def Nodes.substitute (children : Nodes) (node replacement : Node) : Nodes :=
  match children with
  | .nil => .nil
  | .cons head tail => .cons (head.substitute node replacement) (tail.substitute node replacement)
end

mutual
/-- Equals are replaced by equals, at any depth. -/
theorem eval_substitute {node replacement : Node} (same : node.eval I = replacement.eval I) (n : Node)
    : (n.substitute node replacement).eval I = n.eval I := by
  match n with
  | .const value =>
      rw [Node.substitute]
      split
      · next isNode => rw [isNode, same]
      · rfl
  | .var type name =>
      rw [Node.substitute]
      split
      · next isNode => rw [isNode, same]
      · rfl
  | .apply kind children =>
      rw [Node.substitute]
      split
      · next isNode => rw [isNode, same]
      · rw [Node.eval, Node.eval, evals_substitute same children]

theorem evals_substitute {node replacement : Node} (same : node.eval I = replacement.eval I) (children : Nodes)
    : (children.substitute node replacement).eval I = children.eval I := by
  match children with
  | .nil => rfl
  | .cons head tail =>
      rw [Nodes.substitute, Nodes.eval, Nodes.eval, eval_substitute same head, evals_substitute same tail]
end

mutual
/-- A replacement of the same type leaves nodes well sorted. -/
theorem getType_substitute {node replacement : Node} (same : node.getType = replacement.getType) (n : Node)
    : (n.substitute node replacement).getType = n.getType := by
  match n with
  | .const value =>
      rw [Node.substitute]
      split
      · next isNode => rw [isNode, same]
      · rfl
  | .var type name =>
      rw [Node.substitute]
      split
      · next isNode => rw [isNode, same]
      · rfl
  | .apply kind children =>
      rw [Node.substitute]
      split
      · next isNode => rw [isNode, same]
      · rw [Node.getType, Node.getType, getTypes_substitute same children]

theorem getTypes_substitute {node replacement : Node} (same : node.getType = replacement.getType) (children : Nodes)
    : (children.substitute node replacement).getTypes = children.getTypes := by
  match children with
  | .nil => rfl
  | .cons head tail =>
      rw [Nodes.substitute, Nodes.getTypes, Nodes.getTypes, getType_substitute same head, getTypes_substitute same tail]
end

mutual
/-- Every variable has a name below some name. -/
def Node.Below (next : Nat) : Node → Prop
  | .const _ => True
  | .var _ name => name < next
  | .apply _ children => children.Below next

def Nodes.Below (next : Nat) : Nodes → Prop
  | .nil => True
  | .cons head tail => head.Below next ∧ tail.Below next
end

mutual
def decideBelow (next : Nat) : (n : Node) → Decidable (n.Below next)
  | .const _ => .isTrue trivial
  | .var _ name => inferInstanceAs (Decidable (name < next))
  | .apply _ children => decideBelows next children

def decideBelows (next : Nat) : (children : Nodes) → Decidable (children.Below next)
  | .nil => .isTrue trivial
  | .cons head tail =>
      match decideBelow next head, decideBelows next tail with
      | .isTrue isBelow, .isTrue areBelow => .isTrue ⟨isBelow, areBelow⟩
      | .isFalse notBelow, _ => .isFalse fun both => notBelow both.1
      | _, .isFalse notBelow => .isFalse fun both => notBelow both.2
end

instance (next : Nat) (n : Node) : Decidable (n.Below next) := decideBelow next n

mutual
theorem Node.Below.mono {n : Node} {next next' : Nat} (isBelow : n.Below next) (le : next ≤ next') : n.Below next' := by
  match n with
  | .const _ => exact trivial
  | .var _ _ => exact Nat.lt_of_lt_of_le isBelow le
  | .apply _ children => exact Nodes.Below.mono isBelow le

theorem Nodes.Below.mono {children : Nodes} {next next' : Nat} (areBelow : children.Below next) (le : next ≤ next')
    : children.Below next' := by
  match children with
  | .nil => exact trivial
  | .cons _ _ => exact ⟨Node.Below.mono areBelow.1 le, Nodes.Below.mono areBelow.2 le⟩
end

/-- A string of some length for one variable. -/
def Interpretation.withLength (I : Interpretation) (name length : Nat) : Interpretation where
  var type name' :=
    if type = .string ∧ name' = name then .string (List.replicate length 0) else I.var type name'
  op := I.op
  type_var type name' := by
    split
    · next isName => exact isName.1.symm
    · exact I.type_var type name'
  type_op := I.type_op

theorem kind_eval_withLength (kind : Kind) (name length : Nat) (values : List Value)
    : kind.eval (I.withLength name length) values = kind.eval I values := by
  cases kind <;> rfl

mutual
theorem eval_withLength {n : Node} {name : Nat} (length : Nat) (isBelow : n.Below name)
    : n.eval (I.withLength name length) = n.eval I := by
  match n with
  | .const value => rfl
  | .var type name' =>
      have isOther : ¬(type = .string ∧ name' = name) := fun isName => Nat.ne_of_lt isBelow isName.2
      exact if_neg isOther
  | .apply kind children => rw [Node.eval, Node.eval, kind_eval_withLength, evals_withLength length isBelow]

theorem evals_withLength {children : Nodes} {name : Nat} (length : Nat) (areBelow : children.Below name)
    : children.eval (I.withLength name length) = children.eval I := by
  match children with
  | .nil => rfl
  | .cons head tail => rw [Nodes.eval, Nodes.eval, eval_withLength length areBelow.1, evals_withLength length areBelow.2]
end

end Ava6.Strings.Entailment

import Mathlib

/-! Nodes as the checker of the propositional rules sees them: a kind with a list of children, a
computed type, and a value under a valuation of everything that is not propositional.
-/

namespace Ava6.Booleans

inductive TypeNode
  | bool | int
  | other (name : Nat)
  deriving DecidableEq, Repr

/-- The propositional kinds; `op` stands for every other kind, with the type of its result. -/
inductive Kind
  | not | and | or | implies | xor | ite | equal
  | op (symbol : Nat) (range : TypeNode)
  deriving DecidableEq, Repr

inductive Node
  | const (value : Bool)
  | constInteger (value : Int)
  | apply (k : Kind) (children : List Node)

mutual
def Node.decEq : (a b : Node) → Decidable (a = b)
  | .const a, .const b => decidable_of_iff (a = b) (by simp)
  | .constInteger a, .constInteger b => decidable_of_iff (a = b) (by simp)
  | .apply k a, .apply l b =>
      have := Node.decEqs a b
      decidable_of_iff (k = l ∧ a = b) (by simp)
  | .const _, .constInteger _ | .const _, .apply _ _ | .constInteger _, .const _
  | .constInteger _, .apply _ _ | .apply _ _, .const _ | .apply _ _, .constInteger _ => isFalse nofun

def Node.decEqs : (a b : List Node) → Decidable (a = b)
  | [], [] => isTrue rfl
  | a :: as, b :: bs =>
      have := Node.decEq a b
      have := Node.decEqs as bs
      decidable_of_iff (a = b ∧ as = bs) (by simp)
  | [], _ :: _ | _ :: _, [] => isFalse nofun
end

instance : DecidableEq Node := Node.decEq

namespace Node

/-- The kind of an application; constants have kinds of their own. -/
def getKind : Node → Option Kind
  | .apply k _ => some k
  | _ => none

def children : Node → List Node
  | .apply _ children => children
  | _ => []

def notNode (n : Node) : Node := .apply .not [n]

/-- The type of an application from the types of its children. -/
def typeOfKind : Kind → List (Option TypeNode) → Option TypeNode
  | .not, [some .bool] => some .bool
  | .and, types => if 2 ≤ types.length ∧ types.all (· == some .bool) then some .bool else none
  | .or, types => if 2 ≤ types.length ∧ types.all (· == some .bool) then some .bool else none
  | .implies, [some .bool, some .bool] => some .bool
  | .xor, [some .bool, some .bool] => some .bool
  | .ite, [some .bool, some a, some b] => if a = b then some a else none
  | .equal, [some a, some b] => if a = b then some .bool else none
  | .op _ range, types => if types.all Option.isSome then some range else none
  | _, _ => none

mutual
def typeOf : Node → Option TypeNode
  | .const _ => some .bool
  | .constInteger _ => some .int
  | .apply k children => typeOfKind k (typesOf children)

def typesOf : List Node → List (Option TypeNode)
  | [] => []
  | n :: rest => typeOf n :: typesOf rest
end

attribute [local simp] typeOfKind typeOf

/-- A well-typed node of Boolean type. -/
def isFormula (n : Node) : Bool := n.typeOf == some .bool

theorem typesOf_eq_map (nodes : List Node) : typesOf nodes = nodes.map typeOf := by
  induction nodes with
  | nil => rfl
  | cons n rest ih => rw [typesOf, ih, List.map_cons]

end Node

/-- A truth value, or an element of the domain of another type. -/
inductive Value (D : Type)
  | bool (b : Bool)
  | element (d : D)
  deriving DecidableEq

variable {D : Type} [DecidableEq D]

def Value.holds : Value D → Bool
  | .bool b => b
  | .element _ => false

/-- The value of a propositional application; there is none for another kind. -/
def evalKind : Kind → List (Value D) → Option (Value D)
  | .not, [a] => some (.bool !a.holds)
  | .and, values => some (.bool (values.all Value.holds))
  | .or, values => some (.bool (values.any Value.holds))
  | .implies, [a, b] => some (.bool (!a.holds || b.holds))
  | .xor, [a, b] => some (.bool (a.holds ^^ b.holds))
  | .ite, [c, a, b] => some (if c.holds then a else b)
  | .equal, [a, b] => some (.bool (decide (a = b)))
  | _, _ => none

mutual
/-- The value of a node. The valuation gives the values of what is not propositional. -/
def eval (valuation : Node → Value D) : Node → Value D
  | .const b => .bool b
  | .constInteger i => valuation (.constInteger i)
  | .apply k children =>
      (evalKind k (evals valuation children)).getD (valuation (.apply k children))

def evals (valuation : Node → Value D) : List Node → List (Value D)
  | [] => []
  | n :: rest => eval valuation n :: evals valuation rest
end

attribute [local simp] evalKind eval

/-- A valuation that gives truth values to applications of Boolean type. -/
def WellSorted (valuation : Node → Value D) : Prop :=
  ∀ symbol children, ∃ b, valuation (.apply (.op symbol .bool) children) = .bool b

/-- The node is true. -/
def Holds (valuation : Node → Value D) (n : Node) : Bool := (eval valuation n).holds

section Values

variable {valuation : Node → Value D}

theorem evals_eq_map (nodes : List Node) : evals valuation nodes = nodes.map (eval valuation) := by
  induction nodes with
  | nil => rfl
  | cons n rest ih => rw [evals, ih, List.map_cons]

@[simp] theorem holds_const (b : Bool) : Holds valuation (.const b) = b := rfl

@[simp] theorem holds_notNode (a : Node) : Holds valuation a.notNode = !Holds valuation a := rfl

@[simp]
theorem holds_not (a : Node) : Holds valuation (.apply .not [a]) = !Holds valuation a := rfl

@[simp]
theorem holds_and (nodes : List Node)
    : Holds valuation (.apply .and nodes) = nodes.all (Holds valuation ·) := by
  simp [Holds, eval, evals_eq_map, evalKind, Value.holds, List.all_map, Function.comp_def]

@[simp]
theorem holds_or (nodes : List Node)
    : Holds valuation (.apply .or nodes) = nodes.any (Holds valuation ·) := by
  simp [Holds, eval, evals_eq_map, evalKind, Value.holds, List.any_map, Function.comp_def]

@[simp]
theorem holds_implies (a b : Node)
    : Holds valuation (.apply .implies [a, b]) = (!Holds valuation a || Holds valuation b) := rfl

@[simp]
theorem holds_xor (a b : Node)
    : Holds valuation (.apply .xor [a, b]) = (Holds valuation a ^^ Holds valuation b) := rfl

@[simp]
theorem holds_ite (c a b : Node)
    : Holds valuation (.apply .ite [c, a, b])
      = if Holds valuation c then Holds valuation a else Holds valuation b := by
  simp only [Holds, eval, evals, evalKind, Option.getD_some]
  exact apply_ite Value.holds _ _ _

theorem holds_equal (a b : Node)
    : Holds valuation (.apply .equal [a, b]) = decide (eval valuation a = eval valuation b) := rfl

/-- The parts of a conditional that is a formula. -/
theorem ite_formula {children : List Node} (formula : (Node.apply .ite children).typeOf = some .bool)
    : ∃ c a b, children = [c, a, b] ∧ a.typeOf = some .bool ∧ b.typeOf = some .bool := by
  match children with
  | [c, a, b] =>
    refine ⟨c, a, b, rfl, ?_⟩
    simp only [Node.typeOf, Node.typesOf] at formula
    generalize Node.typeOf c = first, Node.typeOf a = second, Node.typeOf b = third at formula
    rcases first with _ | (_ | _ | _) <;> rcases second with _ | second <;>
      rcases third with _ | third <;> simp [Node.typeOfKind] at formula
    simp [formula.1, ← formula.2]
  | [] | [_] | [_, _] | _ :: _ :: _ :: _ :: _ =>
    simp [Node.typeOf, Node.typesOf, Node.typeOfKind] at formula

/-- Negations have one child, and the binary kinds two. -/
theorem unary_formula {children : List Node} (formula : (Node.apply .not children).typeOf = some .bool)
    : ∃ a, children = [a] := by
  match children with
  | [a] => exact ⟨a, rfl⟩
  | [] | _ :: _ :: _ => simp [Node.typeOf, Node.typesOf, Node.typeOfKind] at formula

theorem binary_formula {k : Kind} {children : List Node}
    (isBinary : k = .implies ∨ k = .xor ∨ k = .equal)
    (formula : (Node.apply k children).typeOf = some .bool) : ∃ a b, children = [a, b] := by
  match children with
  | [a, b] => exact ⟨a, b, rfl⟩
  | [] | [_] | _ :: _ :: _ :: _ =>
    rcases isBinary with rfl | rfl | rfl <;>
      simp [Node.typeOf, Node.typesOf, Node.typeOfKind] at formula

/-- The value of a formula is a truth value, by recursion along the branches of conditionals. -/
theorem eval_isBool (sorted : WellSorted valuation)
    : (n : Node) → n.typeOf = some .bool → ∃ b, eval valuation n = .bool b
  | .const b, _ => ⟨b, rfl⟩
  | .constInteger _, formula => by simp [Node.typeOf] at formula
  | .apply .and _, _ => ⟨_, rfl⟩
  | .apply .or _, _ => ⟨_, rfl⟩
  | .apply (.op symbol range) children, formula => by
    simp only [Node.typeOf, Node.typeOfKind, Option.ite_none_right_eq_some, Option.some.injEq]
      at formula
    obtain ⟨_, rfl⟩ := formula
    simpa [eval, evalKind] using sorted symbol children
  | .apply .not children, formula => by
    obtain ⟨a, rfl⟩ := unary_formula formula
    exact ⟨_, rfl⟩
  | .apply .implies children, formula => by
    obtain ⟨a, b, rfl⟩ := binary_formula (.inl rfl) formula
    exact ⟨_, rfl⟩
  | .apply .xor children, formula => by
    obtain ⟨a, b, rfl⟩ := binary_formula (.inr (.inl rfl)) formula
    exact ⟨_, rfl⟩
  | .apply .equal children, formula => by
    obtain ⟨a, b, rfl⟩ := binary_formula (.inr (.inr rfl)) formula
    exact ⟨_, rfl⟩
  | .apply .ite children, formula => by
    obtain ⟨c, a, b, rfl, first, second⟩ := ite_formula formula
    simp only [eval, evals, evalKind, Option.getD_some]
    split
    · exact eval_isBool sorted a first
    · exact eval_isBool sorted b second
termination_by n => n
decreasing_by
  all_goals
    subst_vars
    simp only [Node.apply.sizeOf_spec, List.cons.sizeOf_spec]
    omega

theorem eval_formula (sorted : WellSorted valuation) {n : Node} (formula : n.typeOf = some .bool)
    : eval valuation n = .bool (Holds valuation n) := by
  obtain ⟨b, isBool⟩ := eval_isBool sorted n formula
  rw [Holds, isBool]
  rfl

/-- Between formulas equality is equivalence. -/
theorem holds_equal_formulas (sorted : WellSorted valuation) {a b : Node}
    (first : a.typeOf = some .bool) (second : b.typeOf = some .bool)
    : Holds valuation (.apply .equal [a, b]) = (Holds valuation a == Holds valuation b) := by
  rw [holds_equal, eval_formula sorted first, eval_formula sorted second]
  cases Holds valuation a <;> cases Holds valuation b <;> rfl

end Values

end Ava6.Booleans

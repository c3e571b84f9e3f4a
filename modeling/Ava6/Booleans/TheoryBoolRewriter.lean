import Ava6.Booleans.Formulas
import Ava6.Library.Worklist

/-! The rewriter of the Boolean theory: one step of the rewriting of a node before its children are visited, and its
repetition.
-/

namespace Ava6.Booleans

open Library

inductive RewriteStatus
  | done | again
  deriving DecidableEq

structure RewriteResponse where
  status : RewriteStatus
  node : Node

/-- Which nodes are constants, and the order in which nodes were made. The constants of Boolean type are the two truth
values.
-/
structure TheoryBoolRewriter where
  isConst : Node → Bool
  getId : Node → Nat
  isConst_const (b : Bool) : isConst (.const b) = true
  const_of_isConst {n : Node} (isConstant : isConst n = true) (formula : n.typeOf = some .bool) : ∃ b, n = .const b

namespace TheoryBoolRewriter

/-- The number of children that fit in a node. -/
def maxChildren : Nat := 2 ^ 26 - 1

-- Flattening

structure Flattening where
  visited : List Node
  childList : List Node

/-- Nothing once the trivial node was found. -/
def flattenChild (k : Kind) (trivialNode : Node) (s : Option (Flattening × List Node)) (child : Node)
    : Option (Flattening × List Node) :=
  s.bind fun (s, toProcess) =>
    if child ∈ s.visited then some (s, toProcess)
    else if child = trivialNode then none
    else if child.getKind = some k then some ({ s with visited := child :: s.visited }, toProcess ++ [child])
    else some (⟨child :: s.visited, s.childList ++ [child]⟩, toProcess)

def flattenCurrent (k : Kind) (trivialNode current : Node) (s : Option Flattening) : Option Flattening × List Node :=
  match current.children.foldl (flattenChild k trivialNode) (s.map (·, [])) with
  | none => (none, [])
  | some (s, toProcess) => (some s, toProcess)

theorem sizeOf_foldl_flattenChild (k : Kind) (trivialNode : Node) (nodes : List Node) (s s' : Option (Flattening × List Node))
    (isResult : nodes.foldl (flattenChild k trivialNode) s = s')
    : ((s'.elim [] (·.2)).map sizeOf).sum ≤ ((s.elim [] (·.2)).map sizeOf).sum + (nodes.map sizeOf).sum := by
  induction nodes generalizing s with
  | nil =>
      subst isResult
      simp
  | cons n rest ih =>
      refine Nat.le_trans (ih _ isResult) ?_
      have isAdded : (((flattenChild k trivialNode s n).elim [] (·.2)).map sizeOf).sum
          ≤ ((s.elim [] (·.2)).map sizeOf).sum + sizeOf n := by
        cases s with
        | none => simp [flattenChild]
        | some s =>
            obtain ⟨s, toProcess⟩ := s
            simp only [flattenChild, Option.bind_some, Option.elim_some]
            split
            · simp
            split
            · simp
            split <;> simp
      rw [List.map_cons, List.sum_cons]
      omega

theorem sizeOf_flattenCurrent (k : Kind) (trivialNode current : Node) (s : Option Flattening)
    : ((flattenCurrent k trivialNode current s).2.map sizeOf).sum < sizeOf current := by
  have bound := sizeOf_foldl_flattenChild k trivialNode current.children (s.map (·, [])) _ rfl
  have isStart : ((s.map fun s => (s, ([] : List Node))).elim [] (·.2)) = [] := by cases s <;> rfl
  have isLess : (current.children.map sizeOf).sum < sizeOf current := by
    have isLess := sum_sizeOf_lt current.children
    cases current with
    | apply k children =>
        simp only [Node.children, Node.apply.sizeOf_spec] at isLess ⊢
        omega
    | _ => simp [Node.children]
  rw [isStart, List.map_nil, List.sum_nil, Nat.zero_add] at bound
  rw [flattenCurrent]
  generalize current.children.foldl (flattenChild k trivialNode) (s.map (·, [])) = r at bound
  cases r with
  | none => exact Nat.lt_of_le_of_lt bound isLess
  | some r => exact Nat.lt_of_le_of_lt bound isLess

def flattenList (k : Kind) (trivialNode : Node) : Worklist (Option Flattening) Node :=
  ⟨flattenCurrent k trivialNode, sizeOf, fun a s => sizeOf_flattenCurrent k trivialNode a s⟩

/-- The children of other kinds below nodes of the kind of `n`, each one once. -/
def flattenedChildren (k : Kind) (trivialNode skipNode n : Node) : Option (List Node) :=
  ((flattenList k trivialNode).run (some ⟨[skipNode], []⟩) [n]).map (·.childList)

/-- Parts of the length that fits in a node, the last one with what is left. -/
def chunks (size : Nat) : List Node → List (List Node)
  | [] => []
  | c :: rest => (c :: rest.take (size - 1)) :: chunks size (rest.drop (size - 1))
termination_by nodes => nodes.length
decreasing_by
  rw [List.length_drop, List.length_cons]
  omega

def flattenNode (k : Kind) (n trivialNode skipNode : Node) : RewriteResponse :=
  match flattenedChildren k trivialNode skipNode n with
  | none => ⟨.done, trivialNode⟩
  | some [] => ⟨.done, skipNode⟩
  | some [c] => ⟨.again, c⟩
  | some childList =>
      if childList.length < maxChildren then ⟨.done, .apply k childList⟩
      else ⟨.done, .apply k ((chunks maxChildren childList).map (.apply k))⟩

-- One step

def negate : Node → Node
  | .apply .not [a] => a
  | n => n.notNode

/-- A node without its negations, negated if their number is even. -/
def makeNegation : Node → Node
  | .apply .not [a] =>
      match a with
      | .apply .not [b] => makeNegation b
      | a => a
  | .const b => .const (!b)
  | n => n.notNode

/-- How `a` and `b` are related: 0 if they are not, 1 if they are equal, 2 and 3 if one is the negation of the other. -/
def equalityParity (a b : Node) : Nat :=
  if a = b then 1 else if a = b.notNode then 2 else if b = a.notNode then 3 else 0

def preRewriteNot (a : Node) : RewriteResponse :=
  match a with
  | .const b => ⟨.done, .const (!b)⟩
  | .apply .not [b] => ⟨.again, b⟩
  | a => ⟨.done, a.notNode⟩

def adjacentSame : List Node → Bool
  | a :: b :: rest => decide (a = b) && adjacentSame (b :: rest)
  | _ => true

/-- A conjunction or a disjunction, which has the truth value `trivial` if one of its children does. -/
def preRewriteNary (k : Kind) (trivial : Bool) (children : List Node) : RewriteResponse :=
  if .const trivial ∈ children then ⟨.done, .const trivial⟩
  else if children.any fun c => c = .const (!trivial) ∨ c.getKind = some k then
    flattenNode k (.apply k children) (.const trivial) (.const (!trivial))
  else if adjacentSame children then ⟨.again, children.headD (.apply k children)⟩
  else ⟨.done, .apply k children⟩

def preRewriteImplies (a b : Node) : RewriteResponse :=
  if a = .const false ∨ b = .const true then ⟨.done, .const true⟩
  else if a = .const true ∧ b = .const false then ⟨.done, .const false⟩
  else if a = .const true then ⟨.again, b⟩
  else if b = .const false then ⟨.again, makeNegation a⟩
  else ⟨.done, .apply .implies [a, b]⟩

variable (r : TheoryBoolRewriter)

/-- A constant side of an equality, and the other one. -/
def constSide (x y : Node) : Option (Node × Node) :=
  if r.isConst x then some (x, y) else if r.isConst y then some (y, x) else none

/-- An equality between equalities of one term with constants. -/
def rewriteViaEqConstEq : Node → Node → Option Node
  | .apply .equal [x, y], .apply .equal [z, w] =>
      (r.constSide x y).bind fun (c, t) =>
        let other := if z = t ∧ r.isConst w then some w else if w = t ∧ r.isConst z then some z else none
        other.map fun d =>
          if d = c then .const true
          else .apply .and [(Node.apply .equal [x, y]).notNode, (Node.apply .equal [z, w]).notNode]
  | _, _ => none

def preRewriteEqual (a b : Node) : RewriteResponse :=
  if a = .const true then ⟨.again, b⟩
  else if b = .const true then ⟨.again, a⟩
  else if a = .const false then ⟨.again, makeNegation b⟩
  else if b = .const false then ⟨.again, makeNegation a⟩
  else if a = b then ⟨.done, .const true⟩
  else if a = b.notNode then ⟨.done, .const false⟩
  else if b = a.notNode then ⟨.done, .const false⟩
  else
    match r.rewriteViaEqConstEq a b with
    | some ret => ⟨if r.isConst ret then .done else .again, ret⟩
    | none =>
        if r.getId a > r.getId b then ⟨.again, .apply .equal [b, a]⟩ else ⟨.done, .apply .equal [a, b]⟩

def preRewriteXor (a b : Node) : RewriteResponse :=
  if a = .const true then ⟨.again, makeNegation b⟩
  else if b = .const true then ⟨.again, makeNegation a⟩
  else if a = .const false then ⟨.again, b⟩
  else if b = .const false then ⟨.again, a⟩
  else if a = b then ⟨.done, .const false⟩
  else if a = b.notNode then ⟨.done, .const true⟩
  else if b = a.notNode then ⟨.done, .const true⟩
  else ⟨.done, .apply .xor [a, b]⟩

/-- Conditionals with a constant branch, once the branches are known to be unrelated to the condition. -/
def preRewriteIteConst (c x y : Node) : RewriteResponse :=
  if x = .const true then ⟨.again, .apply .or [c, y]⟩
  else if x = .const false then ⟨.again, .apply .and [negate c, y]⟩
  else if y = .const true then ⟨.again, .apply .or [negate c, x]⟩
  else if y = .const false then ⟨.again, .apply .and [c, x]⟩
  else ⟨.done, .apply .ite [c, x, y]⟩

/-- Conditionals with a conditional in a branch. -/
def preRewriteIteNested (c x y : Node) : RewriteResponse :=
  match x with
  | .apply .ite [c', x', y'] =>
      if equalityParity c c' ≠ 0 then ⟨.again, .apply .ite [c, if equalityParity c c' = 1 then x' else y', y]⟩
      else nestedElse c x y
  | _ => nestedElse c x y
where
  nestedElse (c x y : Node) : RewriteResponse :=
    match y with
    | .apply .ite [c', x', y'] =>
        if equalityParity c c' ≠ 0 then ⟨.again, .apply .ite [c, x, if equalityParity c c' = 1 then y' else x']⟩
        else preRewriteIteConst c x y
    | _ => preRewriteIteConst c x y

/-- Conditionals with a branch that is related to the other one or to the condition. -/
def preRewriteIteParity (c x y : Node) : RewriteResponse :=
  if equalityParity x y ≠ 0 then ⟨.again, if equalityParity x y = 1 then x else .apply .equal [c, x]⟩
  else if r.isConst x = false ∧ equalityParity c x ≠ 0 then
    ⟨.again, .apply .ite [c, .const (equalityParity c x = 1), y]⟩
  else if r.isConst y = false ∧ equalityParity c y ≠ 0 then
    ⟨.again, .apply .ite [c, x, .const (equalityParity c y ≠ 1)]⟩
  else preRewriteIteNested c x y

def preRewriteIte (c x y : Node) : RewriteResponse :=
  if r.isConst c then ⟨.again, if c = .const true then x else y⟩
  else if x = .const true ∧ y = .const false then ⟨.again, c⟩
  else if x = .const false ∧ y = .const true then ⟨.again, makeNegation c⟩
  else
    match c with
    | .apply .not [a] => ⟨.again, .apply .ite [a, y, x]⟩
    | c => r.preRewriteIteParity c x y

def preRewrite : Node → RewriteResponse
  | .apply .not [a] => preRewriteNot a
  | .apply .or children => preRewriteNary .or true children
  | .apply .and children => preRewriteNary .and false children
  | .apply .implies [a, b] => preRewriteImplies a b
  | .apply .equal [a, b] => r.preRewriteEqual a b
  | .apply .xor [a, b] => preRewriteXor a b
  | .apply .ite [c, x, y] => r.preRewriteIte c x y
  | n => ⟨.done, n⟩

/-- The repetition while the answer is to rewrite again. Nothing if the fuel does not suffice. -/
def rewriteAgain : Nat → Node → Option Node
  | 0, _ => none
  | fuel + 1, n =>
      match (r.preRewrite n).status with
      | .done => some (r.preRewrite n).node
      | .again => rewriteAgain fuel (r.preRewrite n).node

end TheoryBoolRewriter

end Ava6.Booleans

import Mathlib.Data.List.Sort
import Mathlib.Tactic

/-! Canonical terms: bound variables are replaced by canonical ones in the order of their first
occurrence, and arguments of commutative operators may be sorted by a term order.
-/

namespace Ava6.Expr.Canonize

structure TypeNode where
  name : Nat
deriving DecidableEq

/-- Variables of kind BOUND_VARIABLE. -/
structure Variable where
  name : Nat
  type : TypeNode
deriving DecidableEq

/-- Kinds with an operator of their own, the commutative ones among them. -/
inductive Kind
  | equal | add | mult | nonlinearMult | and | or | xor
  | bitvectorAdd | bitvectorMult | bitvectorAnd | bitvectorOr | bitvectorXor | bitvectorXnor
  | setUnion | setInter
  | other (name : Nat)
deriving DecidableEq

/-- Nodes without operator and children: free variables, constants and nullary operators are terms,
and constructors or indexed operators are only applied, like the operators of kinds. -/
inductive Symbol
  | term (name : Nat)
  | operator (name : Nat)
  | builtin (k : Kind)
deriving DecidableEq

/-- The kind of a parameterized node is that of its operator. -/
inductive Node
  | boundVar (v : Variable)
  | symbol (s : Symbol)
  | apply (k : Kind) (children : List Node)
  | parameterized (op : Node) (children : List Node)

mutual

def Node.decEq : (a b : Node) → Decidable (a = b)
  | .boundVar v, .boundVar w => decidable_of_iff (v = w) (by simp)
  | .symbol s, .symbol t => decidable_of_iff (s = t) (by simp)
  | .apply k a, .apply l b =>
      have := Node.decEqs a b
      decidable_of_iff (k = l ∧ a = b) (by simp)
  | .parameterized f a, .parameterized g b =>
      have := Node.decEq f g
      have := Node.decEqs a b
      decidable_of_iff (f = g ∧ a = b) (by simp)
  | .boundVar _, .symbol _ | .boundVar _, .apply _ _ | .boundVar _, .parameterized _ _
  | .symbol _, .boundVar _ | .symbol _, .apply _ _ | .symbol _, .parameterized _ _
  | .apply _ _, .boundVar _ | .apply _ _, .symbol _ | .apply _ _, .parameterized _ _
  | .parameterized _ _, .boundVar _ | .parameterized _ _, .symbol _
  | .parameterized _ _, .apply _ _ => isFalse nofun

def Node.decEqs : (a b : List Node) → Decidable (a = b)
  | [], [] => isTrue rfl
  | a :: as, b :: bs =>
      have := Node.decEq a b
      have := Node.decEqs as bs
      decidable_of_iff (a = b ∧ as = bs) (by simp)
  | [], _ :: _ | _ :: _, [] => isFalse nofun

end

instance : DecidableEq Node := Node.decEq

def isComm : Kind → Bool
  | .other _ => false
  | _ => true

namespace Node

def children : Node → List Node
  | .boundVar _ | .symbol _ => []
  | .apply _ children | .parameterized _ children => children

/-- The operator, or the node itself if it has none. -/
def operator : Node → Node
  | .apply k _ => .symbol (.builtin k)
  | .parameterized op _ => op
  | n => n

end Node

/-- The comparison of nodes other than bound variables with another one. -/
def operatorOrder (id : Node → Nat) (a b : Node) (childOrder : Bool) : Bool :=
  match b with
  | .boundVar _ => false
  | _ =>
      if a.operator = b.operator then
        if a.children.length = b.children.length then childOrder
        else decide (a.children.length < b.children.length)
      else decide (id a.operator < id b.operator)

mutual

/-- Nodes are compared by their numbers where nothing else tells them apart. -/
def getTermOrder (id : Node → Nat) : Node → Node → Bool
  | .boundVar v, b =>
      match b with
      | .boundVar w => decide (id (.boundVar v) < id (.boundVar w))
      | _ => true
  | .symbol s, b => operatorOrder id (.symbol s) b false
  | .apply k children, b =>
      operatorOrder id (.apply k children) b (firstDistinctOrder id children b.children)
  | .parameterized op children, b =>
      operatorOrder id (.parameterized op children) b (firstDistinctOrder id children b.children)

def firstDistinctOrder (id : Node → Nat) : List Node → List Node → Bool
  | a :: as, b :: bs => if a ≠ b then getTermOrder id a b else firstDistinctOrder id as bs
  | _, _ => false

end

def sortTermOrder (id : Node → Nat) (children : List Node) : List Node :=
  children.mergeSort (fun a b => !getTermOrder id b a)

/-- The canonical variables made so far, by type and a cache value made of a type class and an index,
and the number of the next bound variable. -/
structure BoundVarManager where
  cache : TypeNode → Nat × Nat → Option Variable
  next : Nat

namespace BoundVarManager

def mkBoundVar (bvm : BoundVarManager) (tn : TypeNode) (n : Nat × Nat)
    : Variable × BoundVarManager :=
  match bvm.cache tn n with
  | some v => (v, bvm)
  | none =>
      let v := ⟨bvm.next, tn⟩
      (v, ⟨Function.update bvm.cache tn (Function.update (bvm.cache tn) n (some v)), bvm.next + 1⟩)

end BoundVarManager

/-- Types with type classes. -/
abbrev Key := TypeNode × Nat

structure TermCanonize where
  boundVars : BoundVarManager
  cnFreeVar : Key → List Variable

namespace TermCanonize

def initial : TermCanonize := ⟨⟨fun _ _ => none, 0⟩, fun _ => []⟩

/-- One round of the loop for the variable of an index. -/
def addFreeVar (s : TermCanonize) (tn : TypeNode) (i tc : Nat) : TermCanonize :=
  let (x, boundVars) := s.boundVars.mkBoundVar tn (tc, i)
  ⟨boundVars, Function.update s.cnFreeVar (tn, tc) (s.cnFreeVar (tn, tc) ++ [x])⟩

/-- The loop runs until there are more variables than the index. -/
def getCanonicalFreeVar (s : TermCanonize) (tn : TypeNode) (i tc : Nat) : Variable × TermCanonize :=
  let s := (fun s => s.addFreeVar tn i tc)^[i + 1 - (s.cnFreeVar (tn, tc)).length] s
  ((s.cnFreeVar (tn, tc)).getD i ⟨0, tn⟩, s)

end TermCanonize

/-- The numbers of nodes, the type class callback if there is one, and the options of a call. -/
structure Config where
  id : Node → Nat
  tcc : Option (Variable → Nat)
  applyTOrder : Bool
  doHoVar : Bool

namespace Config

def getTypeClass (c : Config) (v : Variable) : Nat :=
  match c.tcc with
  | none => 0
  | some tcc => tcc v

def key (c : Config) (v : Variable) : Key := (v.type, c.getTypeClass v)

/-- No commutative kind is parameterized. -/
def sortChildren (c : Config) (k : Kind) (children : List Node) : List Node :=
  if c.applyTOrder && isComm k then sortTermOrder c.id children else children

end Config

structure Traversal where
  canonize : TermCanonize
  varCount : Key → Nat
  visited : Node → Option Node

namespace Traversal

def visit (t : Traversal) (n ret : Node) : Traversal :=
  { t with visited := Function.update t.visited n (some ret) }

/-- The next canonical variable for one that is not visited. -/
def allocate (c : Config) (v : Variable) (t : Traversal) : Node × Traversal :=
  let vn := t.varCount (c.key v)
  let (fv, canonize) := t.canonize.getCanonicalFreeVar v.type vn (c.getTypeClass v)
  let t : Traversal := ⟨canonize, Function.update t.varCount (c.key v) (vn + 1), t.visited⟩
  (.boundVar fv, t.visit (.boundVar v) (.boundVar fv))

mutual

def getCanonicalTerm (c : Config) (n : Node) (t : Traversal) : Node × Traversal :=
  match t.visited n with
  | some ret => (ret, t)
  | none =>
      match n with
      | .boundVar v => allocate c v t
      | .symbol s => (.symbol s, t)
      | .apply k [] => (.apply k [], t)
      | .parameterized op [] => (.parameterized op [], t)
      | .apply k (first :: rest) =>
          let (cchildren, t) := getCanonicalTerms c (first :: rest) t
          let ret := .apply k (c.sortChildren k cchildren)
          (ret, t.visit (.apply k (first :: rest)) ret)
      | .parameterized op (first :: rest) =>
          let (cchildren, t) := getCanonicalTerms c (first :: rest) t
          let (cop, t) := if c.doHoVar then getCanonicalTerm c op t else (op, t)
          let ret := .parameterized cop cchildren
          (ret, t.visit (.parameterized op (first :: rest)) ret)

def getCanonicalTerms (c : Config) (nodes : List Node) (t : Traversal) : List Node × Traversal :=
  match nodes with
  | [] => ([], t)
  | node :: rest =>
      let (first, t) := getCanonicalTerm c node t
      let (others, t) := getCanonicalTerms c rest t
      (first :: others, t)

end

end Traversal

namespace TermCanonize

/-- The caller may give what is visited already. -/
def getCanonicalTermVisited (c : Config) (n : Node) (visited : Node → Option Node) (s : TermCanonize)
    : Node × TermCanonize :=
  let (ret, t) := Traversal.getCanonicalTerm c n ⟨s, fun _ => 0, visited⟩
  (ret, t.canonize)

def getCanonicalTerm (c : Config) (n : Node) (s : TermCanonize) : Node × TermCanonize :=
  getCanonicalTermVisited c n (fun _ => none) s

/-- What can happen: calls of all methods, canonical variables that are made for other objects, and
any other new bound variable. -/
inductive Call
  | getCanonicalTerm (c : Config) (n : Node) (visited : Node → Option Node)
  | getCanonicalFreeVar (tn : TypeNode) (i tc : Nat)
  | mkCanonicalVar (tn : TypeNode) (n : Nat × Nat)
  | mkOtherVar

def call (s : TermCanonize) : Call → TermCanonize
  | .getCanonicalTerm c n visited => (getCanonicalTermVisited c n visited s).2
  | .getCanonicalFreeVar tn i tc => (s.getCanonicalFreeVar tn i tc).2
  | .mkCanonicalVar tn n => { s with boundVars := (s.boundVars.mkBoundVar tn n).2 }
  | .mkOtherVar => { s with boundVars := { s.boundVars with next := s.boundVars.next + 1 } }

end TermCanonize

end Ava6.Expr.Canonize

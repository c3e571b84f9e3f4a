import Mathlib.Data.List.Basic

/-! Boolean nodes as the CNF converter sees them: atoms, constants, and a kind with a list of
children. Nodes are shared in the source, so equal nodes are one node.
-/

namespace Ava6.Cnf

/-- A Boolean variable, which may be a term skolem, or an atom of a theory. -/
inductive Atom
  | var (name : Nat) (isBooleanTermSkolem : Bool)
  | theory (name : Nat)
  deriving DecidableEq, Repr

/-- The kinds with Boolean children; `equal` is the one between Booleans. -/
inductive Kind
  | not | and | or | xor | implies | ite | equal
  deriving DecidableEq, Repr

inductive Formula
  | atom (a : Atom)
  | const (value : Bool)
  | node (k : Kind) (children : List Formula)

mutual
def Formula.decEq : (a b : Formula) → Decidable (a = b)
  | .atom a, .atom b => decidable_of_iff (a = b) (by simp)
  | .const a, .const b => decidable_of_iff (a = b) (by simp)
  | .node k a, .node l b =>
      have := Formula.decEqs a b
      decidable_of_iff (k = l ∧ a = b) (by simp)
  | .atom _, .const _ | .atom _, .node _ _ | .const _, .atom _ | .const _, .node _ _
  | .node _ _, .atom _ | .node _ _, .const _ => isFalse nofun

def Formula.decEqs : (a b : List Formula) → Decidable (a = b)
  | [], [] => isTrue rfl
  | a :: as, b :: bs =>
      have := Formula.decEq a b
      have := Formula.decEqs as bs
      decidable_of_iff (a = b ∧ as = bs) (by simp)
  | [], _ :: _ | _ :: _, [] => isFalse nofun
end

instance : DecidableEq Formula := Formula.decEq

namespace Formula

/-- The negation of a node. -/
def notNode (f : Formula) : Formula := .node .not [f]

def children : Formula → List Formula
  | .node _ children => children
  | _ => []

/-- A node of kind `NOT`. -/
def isNot : Formula → Bool
  | .node .not _ => true
  | _ => false

mutual
/-- The number of nodes of the tree. -/
def size : Formula → Nat
  | .atom _ | .const _ => 1
  | .node _ children => sizes children + 1

def sizes : List Formula → Nat
  | [] => 0
  | f :: rest => f.size + sizes rest
end

theorem size_pos (f : Formula) : 0 < f.size := by
  cases f <;> simp [size]

theorem size_le_sizes {f : Formula} {fs : List Formula} (member : f ∈ fs) : f.size ≤ sizes fs := by
  induction fs with
  | nil => cases member
  | cons g rest ih =>
    rw [sizes]
    rcases List.mem_cons.mp member with rfl | member
    · omega
    · have := ih member
      omega

end Formula

abbrev Valuation := Atom → Bool

/-- The connective of a kind. -/
def Kind.apply : Kind → List Bool → Bool
  | .not, [a] => !a
  | .and, values => values.all id
  | .or, values => values.any id
  | .xor, [a, b] => a ^^ b
  | .implies, [a, b] => !a || b
  | .ite, [c, t, e] => if c then t else e
  | .equal, [a, b] => a == b
  | _, _ => false

mutual
def Formula.eval (v : Valuation) : Formula → Bool
  | .atom a => v a
  | .const value => value
  | .node k children => k.apply (Formula.evals v children)

def Formula.evals (v : Valuation) : List Formula → List Bool
  | [] => []
  | f :: rest => f.eval v :: Formula.evals v rest
end

theorem Formula.evals_eq (v : Valuation) (fs : List Formula)
    : Formula.evals v fs = fs.map (·.eval v) := by
  induction fs with
  | nil => rfl
  | cons f rest ih => rw [evals, ih, List.map_cons]

@[simp]
theorem Formula.eval_notNode (v : Valuation) (f : Formula) : f.notNode.eval v = !f.eval v := by
  simp [notNode, eval, evals, Kind.apply]

/-- The number of children a kind takes. -/
def Kind.arity : Kind → Nat → Bool
  | .not, n => n == 1
  | .and, n | .or, n => 1 < n
  | .xor, n | .implies, n | .equal, n => n == 2
  | .ite, n => n == 3

mutual
/-- Every node has the children its kind takes, and no negation stands directly under a
negation. -/
def Formula.admissible : Formula → Bool
  | .atom _ | .const _ => true
  | .node k children =>
      k.arity children.length && (k != .not || children.all (!·.isNot))
        && Formula.allAdmissible children

def Formula.allAdmissible : List Formula → Bool
  | [] => true
  | f :: rest => f.admissible && Formula.allAdmissible rest
end

end Ava6.Cnf

import Ava6.Bv.Term

/-! Signed operators and tests for overflow, as they are eliminated, and their meaning on integers.
The terms that the rules build have conditions of Boolean sort, and are indexed by their width; where an operator computes
the width of its result, the node carries the proof that it is the index.
-/

namespace Ava6.Bv.OperatorElimination

mutual
inductive TypedNode : Nat → Type
  /-- A variable, or any term whose operator is not one of the others. -/
  | var {n : Nat} (positive : 0 < n) (name : Nat) : TypedNode n
  | const {n : Nat} (positive : 0 < n) (value : BitVec n) : TypedNode n
  | neg {n : Nat} (a : TypedNode n) : TypedNode n
  | add {n : Nat} (a b : TypedNode n) : TypedNode n
  | binary {n : Nat} (k : BinaryKind) (a b : TypedNode n) : TypedNode n
  | concat {m n w : Nat} (isSize : m + n = w) (a : TypedNode m) (b : TypedNode n) : TypedNode w
  | extract {n w : Nat} (high low : Nat) (isSize : high - low + 1 = w) (inside : low ≤ high ∧ high < n)
    (a : TypedNode n) : TypedNode w
  | zeroExtend {n : Nat} (amount : Nat) (a : TypedNode n) : TypedNode (n + amount)
  | ite {n : Nat} (cond : BoolNode) (thenpart elsepart : TypedNode n) : TypedNode n

inductive BoolNode : Type
  | equal {n : Nat} (a b : TypedNode n) : BoolNode
  | and (a b : BoolNode) : BoolNode
  | or (a b : BoolNode) : BoolNode
  | xor (a b : BoolNode) : BoolNode
end

theorem TypedNode.positive : {n : Nat} → TypedNode n → 0 < n
  | _, .var positive _ => positive
  | _, .const positive _ => positive
  | _, .neg a => a.positive
  | _, .add a _ => a.positive
  | _, .binary _ a _ => a.positive
  | _, .concat isSize a _ => by have := a.positive; omega
  | _, .extract _ _ isSize _ _ => by omega
  | _, .zeroExtend amount a => Nat.add_pos_left a.positive amount
  | _, .ite _ thenpart _ => thenpart.positive

mutual
def TypedNode.eval (v : Valuation) : {n : Nat} → TypedNode n → BitVec n
  | n, .var _ name => v n name
  | _, .const _ value => value
  | _, .neg a => -a.eval v
  | _, .add a b => a.eval v + b.eval v
  | _, .binary k a b => k.apply (a.eval v) (b.eval v)
  | _, .concat isSize a b => (a.eval v ++ b.eval v).cast isSize
  | n, .extract _ low _ _ a => (a.eval v).extractLsb' low n
  | _, .zeroExtend _ a => (a.eval v).setWidth _
  | _, .ite cond thenpart elsepart => if cond.eval v then thenpart.eval v else elsepart.eval v

def BoolNode.eval (v : Valuation) : BoolNode → Bool
  | .equal a b => a.eval v == b.eval v
  | .and a b => a.eval v && b.eval v
  | .or a b => a.eval v || b.eval v
  | .xor a b => a.eval v ^^ b.eval v
end

attribute [local simp] TypedNode.eval BoolNode.eval

variable {n : Nat}

/-- The most significant bit, `utils::mkExtract(a, size - 1, size - 1)`. -/
def mkSign (a : TypedNode n) : TypedNode 1 :=
  .extract (n - 1) (n - 1) (by omega) ⟨le_refl _, Nat.sub_lt a.positive Nat.one_pos⟩ a

def isSign (a : TypedNode n) (bit : TypedNode 1) : BoolNode := .equal (mkSign a) bit

/-- The least signed number. -/
def mkMinSigned (positive : 0 < n) : TypedNode n := .const positive (BitVec.intMin n)

def mkOnes (positive : 0 < n) : TypedNode n := .const positive (BitVec.allOnes n)

variable {v : Valuation} (a b : TypedNode n)

end Ava6.Bv.OperatorElimination

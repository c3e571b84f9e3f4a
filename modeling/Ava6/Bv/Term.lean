import Mathlib.Data.BitVec

/-! Bit-vector terms and the formulas built over them, with their SMT-LIB meaning.
Terms are indexed by their width, so an ill-sorted node cannot be written down; every
leaf carries the proof that its width is positive, as the sort `(_ BitVec n)` demands.
-/

namespace Ava6.Bv

/-- Kinds with two or more children of one width, folded from the left. -/
inductive NaryKind
  | and | or | xor | add | mult
  deriving DecidableEq, Repr

/-- Kinds with exactly two children of the width of the result. -/
inductive BinaryKind
  | xnor | sub | udiv | urem | shl | lshr | ashr
  deriving DecidableEq, Repr

/-- `BITVECTOR_NOT` and `BITVECTOR_NEG`. -/
inductive UnaryKind
  | not | neg
  deriving DecidableEq, Repr

/-- Kinds that return a comparison as a vector of width one. -/
inductive FlagKind
  | comp | ultbv | sltbv
  deriving DecidableEq, Repr

/-- Relations between two vectors of one width. -/
inductive Relation
  | equal | distinct | ult | ule | ugt | uge | slt | sle | sgt | sge
  deriving DecidableEq, Repr

mutual
/-- A bit-vector term of the given width. -/
inductive Term : Nat → Type
  | var {n : Nat} (positive : 0 < n) (name : Nat) : Term n
  | const {n : Nat} (positive : 0 < n) (value : BitVec n) : Term n
  | unary {n : Nat} (k : UnaryKind) (a : Term n) : Term n
  | binary {n : Nat} (k : BinaryKind) (a b : Term n) : Term n
  | nary {n : Nat} (k : NaryKind) (first : Term n) (rest : Args n) : Term n
  | flag {n : Nat} (k : FlagKind) (a b : Term n) : Term 1
  | ite {n : Nat} (cond : Term 1) (thenpart elsepart : Term n) : Term n
  | concat {n : Nat} (parts : Parts n) : Term n
  | extract {n : Nat} (high low : Nat) (inside : low ≤ high ∧ high < n) (a : Term n)
    : Term (high - low + 1)
  | signExtend {n : Nat} (amount : Nat) (a : Term n) : Term (n + amount)

/-- The further children of an n-ary node, all of one width. -/
inductive Args : Nat → Type
  | nil {n : Nat} : Args n
  | cons {n : Nat} (head : Term n) (tail : Args n) : Args n

/-- The children of a `BITVECTOR_CONCAT` node, most significant first. -/
inductive Parts : Nat → Type
  | single {n : Nat} (a : Term n) : Parts n
  | cons {m n : Nat} (a : Term m) (rest : Parts n) : Parts (m + n)
end

mutual
/-- A node of bit-vector sort has at least one bit, by induction on the node. -/
theorem Term.positive : {n : Nat} → Term n → 0 < n
  | _, .var positive _ => positive
  | _, .const positive _ => positive
  | _, .unary _ a => a.positive
  | _, .binary _ a _ => a.positive
  | _, .nary _ first _ => first.positive
  | _, .flag _ _ _ => Nat.one_pos
  | _, .ite _ thenpart _ => thenpart.positive
  | _, .concat parts => parts.positive
  | _, .extract _ _ _ _ => Nat.succ_pos _
  | _, .signExtend amount a => Nat.add_pos_left a.positive amount

/-- A concatenation has at least one bit: its first part does. -/
theorem Parts.positive : {n : Nat} → Parts n → 0 < n
  | _, .single a => a.positive
  | _, .cons (n := n) a _ => Nat.add_pos_left a.positive n
end

/-- An interpretation gives a vector of its width to each variable. -/
abbrev Valuation := (n : Nat) → (name : Nat) → BitVec n

def UnaryKind.apply {n : Nat} : UnaryKind → BitVec n → BitVec n
  | .not, a => ~~~a
  | .neg, a => -a

/-- `udiv` by zero is all ones and `urem` by zero is the dividend; a shift amount of at
least the width shifts everything out. -/
def BinaryKind.apply {n : Nat} : BinaryKind → BitVec n → BitVec n → BitVec n
  | .xnor, a, b => ~~~(a ^^^ b)
  | .sub, a, b => a - b
  | .udiv, a, b => BitVec.smtUDiv a b
  | .urem, a, b => a % b
  | .shl, a, b => a <<< b
  | .lshr, a, b => a >>> b
  | .ashr, a, b => BitVec.sshiftRight' a b

def NaryKind.apply {n : Nat} : NaryKind → BitVec n → BitVec n → BitVec n
  | .and, a, b => a &&& b
  | .or, a, b => a ||| b
  | .xor, a, b => a ^^^ b
  | .add, a, b => a + b
  | .mult, a, b => a * b

def FlagKind.apply {n : Nat} : FlagKind → BitVec n → BitVec n → Bool
  | .comp, a, b => a == b
  | .ultbv, a, b => BitVec.ult a b
  | .sltbv, a, b => BitVec.slt a b

def Relation.holds {n : Nat} : Relation → BitVec n → BitVec n → Bool
  | .equal, a, b => a == b
  | .distinct, a, b => a != b
  | .ult, a, b => BitVec.ult a b
  | .ule, a, b => BitVec.ule a b
  | .ugt, a, b => BitVec.ult b a
  | .uge, a, b => BitVec.ule b a
  | .slt, a, b => BitVec.slt a b
  | .sle, a, b => BitVec.sle a b
  | .sgt, a, b => BitVec.slt b a
  | .sge, a, b => BitVec.sle b a

mutual
def Term.eval (v : Valuation) : {n : Nat} → Term n → BitVec n
  | n, .var _ name => v n name
  | _, .const _ value => value
  | _, .unary k a => k.apply (a.eval v)
  | _, .binary k a b => k.apply (a.eval v) (b.eval v)
  | _, .nary k first rest => rest.eval v k (first.eval v)
  | _, .flag k a b => BitVec.ofBool (k.apply (a.eval v) (b.eval v))
  | _, .ite cond thenpart elsepart =>
      if cond.eval v = 1#1 then thenpart.eval v else elsepart.eval v
  | _, .concat parts => parts.eval v
  | _, .extract high low _ a => (a.eval v).extractLsb high low
  | _, .signExtend amount a => (a.eval v).signExtend _

/-- The value of an n-ary node, the children folded from the left. -/
def Args.eval (v : Valuation) : {n : Nat} → Args n → NaryKind → BitVec n → BitVec n
  | _, .nil, _, value => value
  | _, .cons head tail, k, value => tail.eval v k (k.apply value (head.eval v))

def Parts.eval (v : Valuation) : {n : Nat} → Parts n → BitVec n
  | _, .single a => a.eval v
  | _, .cons a rest => a.eval v ++ rest.eval v
end

end Ava6.Bv

import Ava6.Bv.Term
import Ava6.Library.Vec

/-! Terms and atoms as the bit-vector rewriter sees them: a kind over a list of children, with sizes computed from
those of the children. Rules take nodes apart and rebuild them, so sorts are a predicate here and not an index.
-/

namespace Ava6.Bv.Rewriter

open Library

inductive Kind
  | and | or | xor | add | mult
  | not | neg | sub
  | concat
  | extract (high low : Nat)
  | signExtend (amount : Nat)
  | zeroExtend (amount : Nat)
  | repeats (amount : Nat)
  deriving DecidableEq, Repr

mutual
inductive Node
  | var (w name : Nat)
  | const (value : Vec)
  | apply (k : Kind) (children : Nodes)
  deriving DecidableEq, Repr

/-- The children of a node. -/
inductive Nodes
  | nil
  | cons (head : Node) (tail : Nodes)
  deriving DecidableEq, Repr
end

namespace Nodes

def ofList : List Node → Nodes
  | [] => .nil
  | head :: tail => .cons head (ofList tail)

def toList : Nodes → List Node
  | .nil => []
  | .cons head tail => head :: tail.toList

@[simp]
theorem toList_ofList (nodes : List Node) : (ofList nodes).toList = nodes := by
  induction nodes with
  | nil => rfl
  | cons head tail ih => rw [ofList, toList, ih]

@[simp]
theorem ofList_toList (children : Nodes) : ofList children.toList = children := by
  match children with
  | .nil => rfl
  | .cons head tail => rw [toList, ofList, ofList_toList tail]

end Nodes

def mkNode (k : Kind) (children : List Node) : Node := .apply k (.ofList children)

namespace Node

def children : Node → List Node
  | .apply _ nodes => nodes.toList
  | _ => []

def isConst : Node → Bool
  | .const _ => true
  | _ => false

def isKind (k : Kind) : Node → Bool
  | .apply k' _ => k' == k
  | _ => false

end Node

/-- The size of an application, from those of its children. -/
def Kind.getSize : Kind → List Nat → Nat
  | .and, w :: _ | .or, w :: _ | .xor, w :: _ | .add, w :: _ | .mult, w :: _ => w
  | .not, [w] | .neg, [w] | .sub, [w, _] => w
  | .concat, sizes => sizes.sum
  | .extract high low, [_] => high - low + 1
  | .signExtend amount, [w] | .zeroExtend amount, [w] => w + amount
  | .repeats amount, [w] => (List.replicate amount w).sum
  | _, _ => 0

/-- The type rules, on the sizes of the children. -/
def Kind.accepts : Kind → List Nat → Bool
  | .and, w :: w' :: rest | .or, w :: w' :: rest | .xor, w :: w' :: rest | .add, w :: w' :: rest
  | .mult, w :: w' :: rest => (w' :: rest).all (· == w)
  | .not, [_] | .neg, [_] | .signExtend _, [_] | .zeroExtend _, [_] => true
  | .sub, [w, w'] => w == w'
  | .concat, _ :: _ :: _ => true
  | .extract high low, [w] => decide (low ≤ high) && decide (high < w)
  | .repeats amount, [_] => decide (0 < amount)
  | _, _ => false

mutual
def Node.getSize : Node → Nat
  | .var w _ => w
  | .const value => value.width
  | .apply k children => k.getSize children.getSizes

def Nodes.getSizes : Nodes → List Nat
  | .nil => []
  | .cons head tail => head.getSize :: tail.getSizes
end

/-- A sort has at least one bit, and its size is a number of thirty-two. -/
def isSize (w : Nat) : Bool := decide (0 < w) && decide (w < 2 ^ 32)

mutual
def Node.wellSorted : Node → Bool
  | .var w _ => isSize w
  | .const value => isSize value.width
  | .apply k children => k.accepts children.getSizes && isSize (k.getSize children.getSizes) && children.wellSorted

def Nodes.wellSorted : Nodes → Bool
  | .nil => true
  | .cons head tail => head.wellSorted && tail.wellSorted
end

def Node.WellSorted (n : Node) : Prop := n.wellSorted = true

instance (n : Node) : Decidable n.WellSorted := inferInstanceAs (Decidable (_ = _))

theorem Nodes.getSizes_eq (children : Nodes) : children.getSizes = children.toList.map Node.getSize := by
  match children with
  | .nil => rfl
  | .cons head tail => rw [getSizes, toList, List.map_cons, getSizes_eq tail]

theorem Nodes.wellSorted_iff (children : Nodes) : children.wellSorted = true ↔ ∀ n ∈ children.toList, n.WellSorted := by
  match children with
  | .nil => simp [wellSorted, toList]
  | .cons head tail =>
      rw [wellSorted, Bool.and_eq_true, wellSorted_iff tail, toList, List.forall_mem_cons]
      rfl

@[simp]
theorem getSize_mkNode (k : Kind) (children : List Node)
    : (mkNode k children).getSize = k.getSize (children.map Node.getSize) := by
  rw [mkNode, Node.getSize, Nodes.getSizes_eq, Nodes.toList_ofList]

theorem wellSorted_mkNode {k : Kind} {children : List Node}
    : (mkNode k children).WellSorted
      ↔ k.accepts (children.map Node.getSize) = true ∧ isSize (k.getSize (children.map Node.getSize)) = true
        ∧ ∀ n ∈ children, n.WellSorted := by
  rw [Node.WellSorted, mkNode, Node.wellSorted, Bool.and_eq_true, Bool.and_eq_true, Nodes.wellSorted_iff,
    Nodes.getSizes_eq, Nodes.toList_ofList, and_assoc]

theorem Node.WellSorted.isSize {n : Node} (sorted : n.WellSorted) : Rewriter.isSize n.getSize = true := by
  match n with
  | .var _ _ => exact sorted
  | .const _ => exact sorted
  | .apply _ _ =>
      rw [WellSorted, wellSorted, Bool.and_eq_true, Bool.and_eq_true] at sorted
      exact sorted.1.2

theorem Node.WellSorted.positive {n : Node} (sorted : n.WellSorted) : 0 < n.getSize := by
  have size := sorted.isSize
  simp only [Rewriter.isSize, Bool.and_eq_true, decide_eq_true_eq] at size
  exact size.1

theorem Node.WellSorted.lt {n : Node} (sorted : n.WellSorted) : n.getSize < 2 ^ 32 := by
  have size := sorted.isSize
  simp only [Rewriter.isSize, Bool.and_eq_true, decide_eq_true_eq] at size
  exact size.2

theorem Node.WellSorted.child {k : Kind} {nodes : Nodes} {n : Node} (sorted : (Node.apply k nodes).WellSorted)
    (member : n ∈ nodes.toList)
    : n.WellSorted := by
  rw [WellSorted, wellSorted, Bool.and_eq_true, Nodes.wellSorted_iff] at sorted
  exact sorted.2 n member

theorem Node.WellSorted.accepts {k : Kind} {nodes : Nodes} (sorted : (Node.apply k nodes).WellSorted)
    : k.accepts (nodes.toList.map Node.getSize) = true := by
  rw [WellSorted, wellSorted, Bool.and_eq_true, Bool.and_eq_true, Nodes.getSizes_eq] at sorted
  exact sorted.1.1

/-- Operators on two or more children of one size. -/
def Kind.isNary : Kind → Bool
  | .and | .or | .xor | .add | .mult => true
  | _ => false

theorem Kind.accepts_nary {k : Kind} {sizes : List Nat} (isNary : k.isNary = true) (accepted : k.accepts sizes = true)
    : 2 ≤ sizes.length ∧ ∀ w ∈ sizes, w = k.getSize sizes := by
  match sizes with
  | [] | [_] => cases k <;> first | exact absurd accepted Bool.false_ne_true | exact absurd isNary Bool.false_ne_true
  | w :: w' :: rest =>
      refine ⟨by simp, ?_⟩
      have sizeEq : k.getSize (w :: w' :: rest) = w := by cases k <;> first | rfl | cases isNary
      have allSame : ∀ v ∈ w' :: rest, v = w := by
        have checked : (w' :: rest).all (· == w) = true := by
          cases k <;> first | exact accepted | cases isNary
        simpa using checked
      rw [sizeEq]
      intro v member
      rcases List.mem_cons.mp member with same | inRest
      · exact same
      · exact allSame v inRest

/-- The children of such an operator have its size. -/
theorem getSize_of_mem {k : Kind} {nodes : Nodes} {n : Node} (isNary : k.isNary = true)
    (sorted : (Node.apply k nodes).WellSorted) (member : n ∈ nodes.toList)
    : n.getSize = (Node.apply k nodes).getSize := by
  rw [Node.getSize, Nodes.getSizes_eq]
  exact (Kind.accepts_nary isNary sorted.accepts).2 _ (List.mem_map_of_mem member)

/-- An operator with two or more children associates to the left. -/
def nary (op : (w : Nat) → BitVec w → BitVec w → BitVec w) : List Vec → Vec
  | [] => .empty
  | first :: rest => rest.foldl (Vec.zipWith op) first

def Kind.apply : Kind → List Vec → Vec
  | .and, vs => nary (fun _ x y => x &&& y) vs
  | .or, vs => nary (fun _ x y => x ||| y) vs
  | .xor, vs => nary (fun _ x y => x ^^^ y) vs
  | .add, vs => nary (fun _ x y => x + y) vs
  | .mult, vs => nary (fun _ x y => x * y) vs
  | .not, [a] => ⟨a.width, ~~~a.bits⟩
  | .neg, [a] => ⟨a.width, -a.bits⟩
  | .sub, [a, b] => Vec.zipWith (fun _ x y => x - y) a b
  | .concat, vs => Vec.concat vs
  | .extract high low, [a] => a.extract high low
  | .signExtend amount, [a] => a.signExtend amount
  | .zeroExtend amount, [a] => a.zeroExtend amount
  | .repeats amount, [a] => Vec.concat (List.replicate amount a)
  | _, _ => .empty

mutual
def Node.value (V : Valuation) : Node → Vec
  | .var w name => ⟨w, V w name⟩
  | .const value => value
  | .apply k children => k.apply (children.values V)

def Nodes.values (V : Valuation) : Nodes → List Vec
  | .nil => []
  | .cons head tail => head.value V :: tail.values V
end

theorem Nodes.values_eq (V : Valuation) (children : Nodes)
    : children.values V = children.toList.map (Node.value V) := by
  match children with
  | .nil => rfl
  | .cons head tail => rw [values, toList, List.map_cons, values_eq V tail]

@[simp]
theorem value_mkNode (V : Valuation) (k : Kind) (children : List Node)
    : (mkNode k children).value V = k.apply (children.map (Node.value V)) := by
  rw [mkNode, Node.value, Nodes.values_eq, Nodes.toList_ofList]

theorem width_nary (op : (w : Nat) → BitVec w → BitVec w → BitVec w) (first : Vec) (rest : List Vec)
    : (nary op (first :: rest)).width = first.width := by
  rw [nary]
  induction rest generalizing first with
  | nil => rfl
  | cons next rest ih => exact ih (Vec.zipWith op first next)

/-- The width of a value is the size of the node. -/
theorem Kind.width_apply (k : Kind) (vs : List Vec) : (k.apply vs).width = k.getSize (vs.map Vec.width) := by
  match k, vs with
  | .and, _ :: _ | .or, _ :: _ | .xor, _ :: _ | .add, _ :: _ | .mult, _ :: _ => exact width_nary _ _ _
  | .and, [] | .or, [] | .xor, [] | .add, [] | .mult, [] => rfl
  | .not, [_] | .neg, [_] | .sub, [_, _] => rfl
  | .concat, vs => exact Vec.width_concat vs
  | .extract _ _, [_] | .signExtend _, [_] | .zeroExtend _, [_] => rfl
  | .repeats amount, [a] =>
      rw [apply, Vec.width_concat, List.map_replicate]
      rfl
  | .not, [] | .neg, [] | .sub, [] | .sub, [_] | .extract _ _, [] | .signExtend _, [] | .zeroExtend _, []
  | .repeats _, [] => rfl
  | .not, _ :: _ :: _ | .neg, _ :: _ :: _ | .sub, _ :: _ :: _ :: _ | .extract _ _, _ :: _ :: _
  | .signExtend _, _ :: _ :: _ | .zeroExtend _, _ :: _ :: _ | .repeats _, _ :: _ :: _ => rfl

mutual
theorem Node.width_value (V : Valuation) (n : Node) : (n.value V).width = n.getSize := by
  match n with
  | .var _ _ => rfl
  | .const _ => rfl
  | .apply k children => rw [Node.value, Kind.width_apply, Nodes.width_values V children, Node.getSize]

theorem Nodes.width_values (V : Valuation) (children : Nodes)
    : (children.values V).map Vec.width = children.getSizes := by
  match children with
  | .nil => rfl
  | .cons head tail =>
      rw [Nodes.values, List.map_cons, Node.width_value V head, Nodes.width_values V tail, Nodes.getSizes]
end

/-- A conjunction of more than two is nested to the right. -/
inductive Formula
  | const (value : Bool)
  | equal (left right : Node)
  | ult (left right : Node)
  | slt (left right : Node)
  | sgt (left right : Node)
  | iff (left right : Formula)
  | not (f : Formula)
  | and (left right : Formula)
  deriving DecidableEq, Repr

def ult (a b : Vec) : Bool := decide (a.toNat < b.toNat)

def slt (a b : Vec) : Bool := decide (a.toInt < b.toInt)

namespace Formula

def holds (V : Valuation) : Formula → Bool
  | .const value => value
  | .equal left right => left.value V == right.value V
  | .ult left right => Rewriter.ult (left.value V) (right.value V)
  | .slt left right => Rewriter.slt (left.value V) (right.value V)
  | .sgt left right => Rewriter.slt (right.value V) (left.value V)
  | .iff left right => left.holds V == right.holds V
  | .not f => !f.holds V
  | .and left right => left.holds V && right.holds V

/-- Both sides of a relation are of one sort. -/
def WellSorted : Formula → Prop
  | .const _ => True
  | .equal left right | .ult left right | .slt left right | .sgt left right =>
      left.WellSorted ∧ right.WellSorted ∧ left.getSize = right.getSize
  | .iff left right | .and left right => left.WellSorted ∧ right.WellSorted
  | .not f => f.WellSorted

def decideWellSorted : (f : Formula) → Decidable f.WellSorted
  | .const _ => .isTrue trivial
  | .equal _ _ | .ult _ _ | .slt _ _ | .sgt _ _ => inferInstanceAs (Decidable (_ ∧ _ ∧ _))
  | .iff left right | .and left right =>
      have := left.decideWellSorted
      have := right.decideWellSorted
      inferInstanceAs (Decidable (_ ∧ _))
  | .not f => f.decideWellSorted

instance (f : Formula) : Decidable f.WellSorted := f.decideWellSorted

end Formula

attribute [local simp] Formula.holds

theorem holds_equal_iff (V : Valuation) {left right : Node} (sameSize : left.getSize = right.getSize)
    : (Formula.equal left right).holds V = true ↔ (left.value V).toNat = (right.value V).toNat := by
  rw [Formula.holds, beq_iff_eq, Vec.eq_iff_toNat]
  rw [Node.width_value, Node.width_value, sameSize]

theorem holds_ult_iff (V : Valuation) (left right : Node)
    : (Formula.ult left right).holds V = true ↔ (left.value V).toNat < (right.value V).toNat := by
  rw [Formula.holds, ult, decide_eq_true_iff]

theorem holds_slt_iff (V : Valuation) (left right : Node)
    : (Formula.slt left right).holds V = true ↔ (left.value V).toInt < (right.value V).toInt := by
  rw [Formula.holds, slt, decide_eq_true_iff]

theorem holds_sgt_iff (V : Valuation) (left right : Node)
    : (Formula.sgt left right).holds V = true ↔ (right.value V).toInt < (left.value V).toInt := by
  rw [Formula.holds, slt, decide_eq_true_iff]

theorem holds_and_iff (V : Valuation) (left right : Formula)
    : (left.and right).holds V = true ↔ left.holds V = true ∧ right.holds V = true := by
  rw [Formula.holds, Bool.and_eq_true]

theorem holds_not_iff (V : Valuation) (f : Formula) : f.not.holds V = true ↔ ¬f.holds V = true := by
  rw [Formula.holds, Bool.not_eq_true', Bool.eq_false_iff]

theorem holds_iff_iff (V : Valuation) (left right : Formula)
    : (left.iff right).holds V = true ↔ (left.holds V = true ↔ right.holds V = true) := by
  rw [Formula.holds, beq_iff_eq, Bool.eq_iff_iff]

def mkConst (w : Nat) (value : Nat) : Node := .const ⟨w, BitVec.ofNat w value⟩

def mkZero (w : Nat) : Node := mkConst w 0

def mkOne (w : Nat) : Node := mkConst w 1

def mkOnes (w : Nat) : Node := .const ⟨w, BitVec.allOnes w⟩

def mkExtract (n : Node) (high low : Nat) : Node := mkNode (.extract high low) [n]

def mkSignExtend (n : Node) (amount : Nat) : Node := mkNode (.signExtend amount) [n]

def mkZeroExtend (n : Node) (amount : Nat) : Node := mkNode (.zeroExtend amount) [n]

def mkRepeat (n : Node) (amount : Nat) : Node := mkNode (.repeats amount) [n]

/-- There is no first child to return for no children. -/
def mkConcat : List Node → Node
  | [n] => n
  | children => mkNode .concat children

def mkNaryNode (k : Kind) : List Node → Node
  | [n] => n
  | children => mkNode k children

@[simp]
theorem value_mkExtract (V : Valuation) (n : Node) (high low : Nat)
    : (mkExtract n high low).value V = (n.value V).extract high low := by
  rw [mkExtract, value_mkNode]
  rfl

@[simp]
theorem value_mkSignExtend (V : Valuation) (n : Node) (amount : Nat)
    : (mkSignExtend n amount).value V = (n.value V).signExtend amount := by
  rw [mkSignExtend, value_mkNode]
  rfl

@[simp]
theorem value_mkZeroExtend (V : Valuation) (n : Node) (amount : Nat)
    : (mkZeroExtend n amount).value V = (n.value V).zeroExtend amount := by
  rw [mkZeroExtend, value_mkNode]
  rfl

@[simp]
theorem value_mkConst (V : Valuation) (w value : Nat) : (mkConst w value).value V = ⟨w, BitVec.ofNat w value⟩ := rfl

theorem toNat_mkZero (V : Valuation) (w : Nat) : ((mkZero w).value V).toNat = 0 := BitVec.toNat_ofNat _ _

theorem holds_equal_zero (V : Valuation) (n : Node)
    : (Formula.equal n (mkZero n.getSize)).holds V = true ↔ (n.value V).toNat = 0 := by
  rw [holds_equal_iff V (show n.getSize = (mkZero n.getSize).getSize from rfl), toNat_mkZero]

end Ava6.Bv.Rewriter

import Ava6.Bv.Rewriter.ConcatExtract
import Mathlib.Data.List.TakeWhile

/-! Rules that cut conjunctions, disjunctions and exclusive disjunctions of bit-vectors along the parts of one child,
a concatenation or the runs of equal bits of a constant.
-/

namespace Ava6.Bv.Rewriter

open Library

-- The rules

def isZero (n : Node) : Bool := n.isConst && decide (n = mkZero n.getSize)

def isOne (n : Node) : Bool := n.isConst && decide (n = mkOne n.getSize)

def isOnes (n : Node) : Bool := n.isConst && decide (n = mkOnes n.getSize)

def isBitwise (node : Node) : Bool := node.isKind .and || node.isKind .or || node.isKind .xor

namespace AndOrXorConcatPullUp

def isPulledUp (n : Node) : Bool := isZero n || isOne n || isOnes n

def applies (node : Node) : Bool :=
  isBitwise node
    && match node.children.find? (Node.isKind .concat) with
      | none => false
      | some c => (c.children.find? Node.isConst).any isPulledUp

/-- The size of what the parts are built to, none when there are no parts. -/
def sizeOf (parts : List Node) : Nat := if parts = [] then 0 else (mkConcat parts).getSize

def slices (kind : Kind) (x : Node) (ys : List Node) (c : Node) (zs : List Node) : List Node :=
  let m := x.getSize
  let my := sizeOf ys
  let mz := sizeOf zs
  let upper := if my ≠ 0 then [mkNode kind [mkExtract x (m - 1) (m - my), mkConcat ys]] else []
  let middle := mkNode kind [mkExtract x (m - my - 1) mz, c]
  let lower := if mz ≠ 0 then [mkNode kind [mkExtract x (mz - 1) 0, mkConcat zs]] else []
  upper ++ middle :: lower

def apply : Node → Node
  | .apply kind nodes =>
      match nodes.toList.find? (Node.isKind .concat) with
      | some concat =>
          let x := mkNaryNode kind (nodes.toList.eraseP (Node.isKind .concat))
          match concat.children.dropWhile (fun child => !isPulledUp child) with
          | c :: zs =>
              mkNode .concat (slices kind x (concat.children.takeWhile (fun child => !isPulledUp child)) c zs)
          | [] => .apply kind nodes
      | none => .apply kind nodes
  | n => n

end AndOrXorConcatPullUp

namespace BitwiseSlicing

def applies (node : Node) : Bool :=
  isBitwise node && decide (node.getSize ≠ 1)
    && match node.children.find? Node.isConst with
      | some (.const constant) =>
          decide (constant.toNat ≠ 0) && (List.range constant.width).any (fun j => !constant.bit j)
      | _ => false

structure State where
  concat_children : List Node
  start : Nat
  stop : Nat

def slice (kind : Kind) (constant other : Node) (high low : Nat) : Node :=
  mkNode kind [mkExtract constant high low, mkExtract other high low]

/-- A run of equal bits ends above a different bit, and the last run at the first bit. -/
def step (kind : Kind) (bv_constant : Vec) (constant other : Node) (s : State) (i : Nat) : State :=
  let s' :=
    if bv_constant.bit (i + 1) ≠ bv_constant.bit i then
      ⟨s.concat_children ++ [slice kind constant other s.stop s.start], i, i⟩
    else { s with start := s.start - 1 }
  if i = 0 then { s' with concat_children := s'.concat_children ++ [slice kind constant other s'.stop 0] } else s'

/-- The loop goes down from the bit below the last one. -/
def loop (kind : Kind) (bv_constant : Vec) (constant other : Node) (start : Nat) : List Node :=
  ((List.range start).reverse.foldl (step kind bv_constant constant other) ⟨[], start, start⟩).concat_children

/-- There are no bits to go over where the position of the last one is read as negative. -/
def concatChildren (kind : Kind) (bv_constant : Vec) (constant other : Node) : List Node :=
  loop kind bv_constant constant other (toInt32 (bv_constant.width - 1)).toNat

def apply : Node → Node
  | .apply kind nodes =>
      match nodes.toList.find? Node.isConst with
      | some (.const bv_constant) =>
          let other := mkNaryNode kind (nodes.toList.eraseP Node.isConst)
          mkConcat (concatChildren kind bv_constant (.const bv_constant) other)
      | _ => .apply kind nodes
  | n => n

end BitwiseSlicing

-- Bitwise operators with any number of children

section ActsBitwise

variable {k : Kind} {op : (w : Nat) → BitVec w → BitVec w → BitVec w} {f : Bool → Bool → Bool} {e : Bool}

end ActsBitwise

-- A concatenation as a child

namespace AndOrXorConcatPullUp

section Parts

variable {kind : Kind} {op : (w : Nat) → BitVec w → BitVec w → BitVec w} {f : Bool → Bool → Bool} {e : Bool}
variable {x : Node}

end Parts

end AndOrXorConcatPullUp

-- A constant as a child

namespace BitwiseSlicing

section Runs

variable {kind : Kind} {op : (w : Nat) → BitVec w → BitVec w → BitVec w} {f : Bool → Bool → Bool} {e : Bool}
variable {node other : Node} {bv_constant : Vec}

end Runs

end BitwiseSlicing

end Ava6.Bv.Rewriter

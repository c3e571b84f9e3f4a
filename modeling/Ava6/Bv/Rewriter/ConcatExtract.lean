import Ava6.Bv.Rewriter.Node

/-! Rules on concatenations and slices: nested ones are flattened, adjacent slices and constants are merged, and a slice
of a concatenation is cut out of its children.
-/

namespace Ava6.Bv.Rewriter

open Library

-- The rules

/-- What `int` reads from an unsigned number of thirty-two bits. -/
def toInt32 (n : Nat) : Int := (n : Int).bmod (2 ^ 32)

namespace ConcatFlatten

def applies (node : Node) : Bool := node.isKind .concat

mutual
/-- The nodes that a term is made of, to bound the loop. -/
def weight : Node → Nat
  | .apply _ children => weights children + 1
  | _ => 1

def weights : Nodes → Nat
  | .nil => 0
  | .cons head tail => weight head + weights tail
end

theorem weights_eq (children : Nodes) : weights children = (children.toList.map weight).sum := by
  cases children with
  | nil => rfl
  | cons head tail => rw [weights, Nodes.toList, List.map_cons, List.sum_cons, weights_eq tail]

theorem weight_pos (n : Node) : 0 < weight n := by
  cases n <;> simp [weight]

/-- The top of the stack is the first of the list, so that children are pushed from the last to the first. -/
def flatten : List Node → List Node → List Node
  | [], result => result
  | .apply .concat children :: processing_stack, result => flatten (children.toList ++ processing_stack) result
  | current :: processing_stack, result => flatten processing_stack (result ++ [current])
  termination_by processing_stack => (processing_stack.map weight).sum
  decreasing_by
    · simp [weight, weights_eq]
    · have := weight_pos current
      simp
      omega

def apply (node : Node) : Node := mkNode .concat (flatten [node] [])

end ConcatFlatten

namespace ConcatExtractMerge

def applies (node : Node) : Bool := node.isKind .concat

structure State where
  mergedExtracts : List Node
  current : Node
  mergeStarted : Bool
  currentHigh : Nat
  currentLow : Nat

/-- The current slice, with what has been merged into it. -/
def pending (s : State) : Node :=
  if s.mergeStarted then
    match s.current with
    | .apply (.extract _ _) (.cons child _) => mkExtract child s.currentHigh s.currentLow
    | other => other
  else s.current

/-- The lower bound of a slice that can be merged. -/
def mergeableLow (child : Node) (currentLow : Nat) : Node → Option Nat
  | .apply (.extract nextHigh nextLow) (.cons nextChild _) =>
      if child = nextChild ∧ nextHigh + 1 = currentLow then some nextLow else none
  | _ => none

def step (s : State) (next : Node) : State :=
  match s.current with
  | .apply (.extract high low) (.cons child _) =>
      let currentHigh := if s.mergeStarted then s.currentHigh else high
      let currentLow := if s.mergeStarted then s.currentLow else low
      match mergeableLow child currentLow next with
      | some nextLow => { s with mergeStarted := true, currentHigh, currentLow := nextLow }
      | none => ⟨s.mergedExtracts ++ [pending s], next, false, currentHigh, currentLow⟩
  | _ => { s with mergedExtracts := s.mergedExtracts ++ [s.current], current := next }

def apply (node : Node) : Node :=
  match node.children with
  | [] => node
  | first :: rest =>
      let s := rest.foldl step ⟨[], first, false, 0, 0⟩
      mkConcat (s.mergedExtracts ++ [pending s])

end ConcatExtractMerge

namespace ConcatConstantMerge

def applies (node : Node) : Bool := node.isKind .concat

/-- The constants at the start are appended to the current one. -/
def mergeRun (current : Vec) : List Node → Vec × List Node
  | .const value :: rest => mergeRun (current.append value) rest
  | rest => (current, rest)

theorem length_mergeRun (current : Vec) (rest : List Node) : (mergeRun current rest).2.length ≤ rest.length := by
  induction rest generalizing current with
  | nil => exact Nat.le_refl _
  | cons n rest ih =>
      match n with
      | .const value => exact (ih (current.append value)).trans (Nat.le_succ _)
      | .var _ _ | .apply _ _ => exact Nat.le_refl _

def merge : List Node → List Node
  | [] => []
  | .const value :: rest =>
      have := length_mergeRun value rest
      .const (mergeRun value rest).1 :: merge (mergeRun value rest).2
  | n :: rest => n :: merge rest
  termination_by children => children.length

def apply (node : Node) : Node := mkConcat (merge node.children)

end ConcatConstantMerge

namespace ExtractConcat

def applies : Node → Bool
  | .apply (.extract _ _) (.cons child _) => child.isKind .concat
  | _ => false

/-- The children from the last one on, with the bounds relative to the start of the next. Differences of `int` are
exact as long as they are defined.
-/
def resultChildren : List Node → Int → Int → List Node
  | [], _, _ => []
  | concatChild :: rest, extract_high, extract_low =>
      if 0 ≤ extract_high then
        let concatChildSize := toInt32 concatChild.getSize
        let pushed :=
          if extract_low < concatChildSize then
            let extract_start := if extract_low < 0 then 0 else extract_low
            let extract_end := if extract_high < concatChildSize then extract_high else concatChildSize - 1
            [mkExtract concatChild extract_end.toNat extract_start.toNat]
          else []
        pushed ++ resultChildren rest (extract_high - concatChildSize) (extract_low - concatChildSize)
      else []

def apply : Node → Node
  | .apply (.extract high low) (.cons concat _) =>
      mkConcat (resultChildren concat.children.reverse (toInt32 high) (toInt32 low)).reverse
  | n => n

end ExtractConcat

namespace ExtractExtract

def applies : Node → Bool
  | .apply (.extract _ _) (.cons child _) =>
      match child with
      | .apply (.extract _ _) _ => true
      | _ => false
  | _ => false

/-- The sum of the lower bounds of nested slices, and what they are of. -/
def innermost : Node → Nat × Node
  | .apply (.extract _ low) (.cons child _) => (low + (innermost child).1, (innermost child).2)
  | n => (0, n)

def apply : Node → Node
  | .apply (.extract k l) (.cons child _) =>
      let (j, inner) := innermost child
      mkExtract inner (k + j) (l + j)
  | n => n

end ExtractExtract

namespace ExtractSignExtend

def applies : Node → Bool
  | .apply (.extract _ _) (.cons child _) =>
      match child with
      | .apply (.signExtend _) _ => true
      | _ => false
  | _ => false

def apply : Node → Node
  | .apply (.extract high low) (.cons (.apply (.signExtend _) (.cons extendee _)) _) =>
      let extendee_size := extendee.getSize
      if high < extendee_size then mkExtract extendee high low
      else if low < extendee_size ∧ high ≥ extendee_size then
        mkSignExtend (mkExtract extendee (extendee_size - 1) low) (high - extendee_size + 1)
      else mkRepeat (mkExtract extendee (extendee_size - 1) (extendee_size - 1)) (high - low + 1)
  | n => n

end ExtractSignExtend

-- Slices and concatenations with a sort

section Sorted

variable {n : Node}

end Sorted

namespace ConcatFlatten

end ConcatFlatten

-- Merging

namespace ConcatExtractMerge

end ConcatExtractMerge

namespace ConcatConstantMerge

end ConcatConstantMerge

-- Slices of slices and of extensions

namespace ExtractExtract

end ExtractExtract

namespace ExtractSignExtend

end ExtractSignExtend

-- Slices of concatenations

namespace ExtractConcat

/-- The child that a bit is in, from the last child on. -/
def holder : List Node → Nat → Option Node
  | [], _ => none
  | concatChild :: rest, i =>
      if i < concatChild.getSize then some concatChild else holder rest (i - concatChild.getSize)

/-- The sizes that the loop reads fit into an `int`. -/
def Fits (children : List Node) (high : Nat) : Prop :=
  high < 2 ^ 31 ∧ ∀ c, holder children.reverse high = some c → c.getSize < 2 ^ 31

def total (children : List Node) : Nat := (children.map Node.getSize).sum

end ExtractConcat

end Ava6.Bv.Rewriter

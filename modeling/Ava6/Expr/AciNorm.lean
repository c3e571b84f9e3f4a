import Mathlib.Data.List.Sort
import Mathlib.Tactic

/-! Normal forms of terms over operators that are associative, with a neutral element and possibly
commutative and idempotent, and the search for absorbing elements. Results are kept as attributes of
nodes.
-/

namespace Ava6.Expr.Aci

inductive TypeNode
  | bool
  | bitVector (size : Nat)
  | stringLike (element : Nat)
  | regLan
  | abstract
  | other (name : Nat)
deriving DecidableEq

/-- The associative kinds. -/
inductive Kind
  | or | and | regexpUnion | regexpInter | bitvectorAnd | bitvectorOr
  | bitvectorXor
  | bitvectorConcat | stringConcat | regexpConcat
deriving DecidableEq

/-- The constants that are neutral or absorbing for some kind; terms of all other kinds have a name
and a type. -/
inductive Leaf
  | constBool (value : Bool)
  | constBitVector (bits : List Bool)
  | emptyWord (element : Nat)
  | emptyWordToRegexp
  | regexpNone
  | regexpAll
  | bvEmpty
  | other (name : Nat) (type : TypeNode)
deriving DecidableEq

inductive Node
  | leaf (symbol : Leaf)
  | apply (k : Kind) (children : List Node)

mutual

def Node.decEq : (a b : Node) → Decidable (a = b)
  | .leaf a, .leaf b => decidable_of_iff (a = b) (by simp)
  | .apply k a, .apply l b =>
      have := Node.decEqs a b
      decidable_of_iff (k = l ∧ a = b) (by simp)
  | .leaf _, .apply _ _ | .apply _ _, .leaf _ => isFalse nofun

def Node.decEqs : (a b : List Node) → Decidable (a = b)
  | [], [] => isTrue rfl
  | a :: as, b :: bs =>
      have := Node.decEq a b
      have := Node.decEqs as bs
      decidable_of_iff (a = b ∧ as = bs) (by simp)
  | [], _ :: _ | _ :: _, [] => isFalse nofun

end

instance : DecidableEq Node := Node.decEq

namespace TypeNode

/-- Of types that can be compared. -/
def leastUpperBound (tn t : TypeNode) : TypeNode := if tn = .abstract then t else tn

/-- The type of terms over arguments of one type. -/
def common : List TypeNode → TypeNode
  | [] => .abstract
  | tn :: rest => rest.foldl leastUpperBound tn

/-- The type of a concatenation. -/
def concat : List TypeNode → TypeNode
  | [] => .bitVector 0
  | .bitVector size :: rest =>
      match concat rest with
      | .bitVector restSize => .bitVector (size + restSize)
      | _ => .abstract
  | _ :: _ => .abstract

end TypeNode

namespace Leaf

def type : Leaf → TypeNode
  | .constBool _ => .bool
  | .constBitVector bits => .bitVector bits.length
  | .emptyWord element => .stringLike element
  | .emptyWordToRegexp | .regexpNone | .regexpAll => .regLan
  | .bvEmpty => .bitVector 0
  | .other _ type => type

end Leaf

namespace Node

/-- The kind of a node, if it is associative. -/
def kind : Node → Option Kind
  | .apply k _ => some k
  | .leaf _ => none

def children : Node → List Node
  | .apply _ children => children
  | .leaf _ => []

mutual

def type : Node → TypeNode
  | .leaf symbol => symbol.type
  | .apply k children =>
      match k with
      | .or | .and => .bool
      | .regexpUnion | .regexpInter | .regexpConcat => .regLan
      | .bitvectorAnd | .bitvectorOr | .bitvectorXor | .stringConcat =>
          .common (types children)
      | .bitvectorConcat => .concat (types children)

def types : List Node → List TypeNode
  | [] => []
  | node :: rest => node.type :: types rest

end

mutual

def size : Node → Nat
  | .leaf _ => 1
  | .apply _ children => 1 + sizes children

def sizes : List Node → Nat
  | [] => 0
  | node :: rest => node.size + sizes rest

end

theorem sizes_append (front rest : List Node) : sizes (front ++ rest) = sizes front + sizes rest := by
  induction front with
  | nil => simp [sizes]
  | cons node front ih => rw [List.cons_append, sizes, sizes, ih, Nat.add_assoc]

theorem sizes_children_lt {node : Node} {k : Kind} (isKind : node.kind = some k)
    : sizes node.children < node.size := by
  cases node with
  | leaf symbol => cases isKind
  | apply k args =>
      rw [children, size]
      omega

theorem size_le_sizes {node : Node} {nodes : List Node} (member : node ∈ nodes)
    : node.size ≤ sizes nodes := by
  induction nodes with
  | nil => cases member
  | cons first rest ih =>
      rw [sizes]
      rcases List.mem_cons.mp member with rfl | later
      · exact Nat.le_add_right ..
      · exact Nat.le_trans (ih later) (Nat.le_add_left ..)

theorem size_pos (node : Node) : 0 < node.size := by
  cases node with
  | leaf symbol => rw [size]; exact Nat.one_pos
  | apply k args => rw [size]; omega

end Node

def constBool (value : Bool) : Node := .leaf (.constBool value)

def mkOnes (size : Nat) : Node := .leaf (.constBitVector (List.replicate size true))

def mkZero (size : Nat) : Node := .leaf (.constBitVector (List.replicate size false))

/-- Undefined for the abstract type. -/
def getNullTerminator (k : Kind) (tn : TypeNode) : Option Node :=
  match k with
  | .or => some (constBool false)
  | .and => some (constBool true)
  | .stringConcat =>
      match tn with
      | .stringLike element => some (.leaf (.emptyWord element))
      | _ => none
  | .regexpConcat => some (.leaf .emptyWordToRegexp)
  | .regexpUnion => some (.leaf .regexpNone)
  | .regexpInter => some (.leaf .regexpAll)
  | .bitvectorAnd =>
      match tn with
      | .bitVector size => some (mkOnes size)
      | _ => none
  | .bitvectorOr | .bitvectorXor =>
      match tn with
      | .bitVector size => some (mkZero size)
      | _ => none
  | .bitvectorConcat => some (.leaf .bvEmpty)

def isAssocCommIdem : Kind → Bool
  | .or | .and | .regexpUnion | .regexpInter | .bitvectorAnd | .bitvectorOr => true
  | _ => false

def isAssocComm (k : Kind) : Bool := k == .bitvectorXor

def getZeroElement (k : Kind) (tn : TypeNode) : Option Node :=
  match k with
  | .or => some (constBool true)
  | .and => some (constBool false)
  | .regexpUnion => some (.leaf .regexpAll)
  | .regexpInter | .regexpConcat => some (.leaf .regexpNone)
  | .bitvectorOr =>
      match tn with
      | .bitVector size => some (mkOnes size)
      | _ => none
  | .bitvectorAnd =>
      match tn with
      | .bitVector size => some (mkZero size)
      | _ => none
  | .bitvectorXor | .bitvectorConcat | .stringConcat => none

def isAbsorbKind : Kind → Bool
  | .or | .and | .regexpUnion | .regexpInter | .regexpConcat | .bitvectorAnd | .bitvectorOr => true
  | _ => false

/-- What is known about nodes: normal forms, and for which nodes absorption is computed and holds. -/
structure Attributes where
  normalForm : Node → Option Node
  absorb : Node → Bool
  absorbComputed : Node → Bool

namespace Attributes

def empty : Attributes := ⟨fun _ => none, fun _ => false, fun _ => false⟩

def setNormalForm (attrs : Attributes) (a an : Node) : Attributes :=
  { attrs with normalForm := Function.update attrs.normalForm a (some an) }

def setAbsorb (attrs : Attributes) (cur : Node) (isAnnil : Bool) : Attributes :=
  { attrs with
    absorb := Function.update attrs.absorb cur isAnnil
    absorbComputed := Function.update attrs.absorbComputed cur true }

variable {attrs : Attributes} {cur n : Node} {isAnnil : Bool}

@[simp]
theorem setAbsorb_absorb_self : (attrs.setAbsorb cur isAnnil).absorb cur = isAnnil :=
  Function.update_self ..

@[simp]
theorem setAbsorb_computed_self : (attrs.setAbsorb cur isAnnil).absorbComputed cur = true :=
  Function.update_self ..

theorem setAbsorb_of_ne (different : n ≠ cur)
    : (attrs.setAbsorb cur isAnnil).absorb n = attrs.absorb n
      ∧ (attrs.setAbsorb cur isAnnil).absorbComputed n = attrs.absorbComputed n :=
  ⟨Function.update_of_ne different .., Function.update_of_ne different ..⟩

end Attributes

/-- The nodes to process are a stack, its top first. -/
def flattenLoop (k : Kind) (nt : Node) (aci : Bool) : List Node → List Node → List Node
  | [], children => children
  | cur :: toProcess, children =>
      if cur = nt then flattenLoop k nt aci toProcess children
      else if cur.kind = some k then flattenLoop k nt aci (cur.children ++ toProcess) children
      else if !aci || !children.contains cur then flattenLoop k nt aci toProcess (children ++ [cur])
      else flattenLoop k nt aci toProcess children
termination_by toProcess => Node.sizes toProcess
decreasing_by
  · simp [Node.sizes, Node.size_pos]
  · next isKind =>
      rw [Node.sizes_append, Node.sizes]
      exact Nat.add_lt_add_right (Node.sizes_children_lt isKind) _
  · simp [Node.sizes, Node.size_pos]
  · simp [Node.sizes, Node.size_pos]

/-- The order of nodes is that of their numbers. -/
def sortNodes (id : Node → Nat) (children : List Node) : List Node :=
  children.mergeSort (fun a b => decide (id a ≤ id b))

/-- The term over flattened children. -/
def mkNormal (k : Kind) (nt : Node) : List Node → Node
  | [] => nt
  | [child] => child
  | children => .apply k children

def computeNormalForm (id : Node → Nat) (a : Node) : Node :=
  match a with
  | .leaf _ => a
  | .apply k children =>
      match getNullTerminator k a.type with
      | none => a
      | some nt =>
          let aci := isAssocCommIdem k
          let flat := flattenLoop k nt aci children []
          mkNormal k nt (if isAssocComm k || aci then sortNodes id flat else flat)

def getACINormalForm (id : Node → Nat) (attrs : Attributes) (a : Node) : Node × Attributes :=
  match attrs.normalForm a with
  | some an => (an, attrs)
  | none =>
      let an := computeNormalForm id a
      (an, attrs.setNormalForm a an)

/-- Nodes of kinds that are not associative are their own normal forms, so that their kinds need not
be told apart. -/
def isACINorm (id : Node → Nat) (attrs : Attributes) (a b : Node) : Bool × Attributes :=
  let (an, attrs) := getACINormalForm id attrs a
  let (bn, attrs) := getACINormalForm id attrs b
  if a.kind = b.kind then (decide (an = bn), attrs)
  else (decide (a = bn) || decide (an = b), attrs)

def isAnnil (k : Kind) (zero : Node) (attrs : Attributes) (cur : Node) : Bool :=
  cur.children.any (fun cc => decide (cc = zero) || (decide (cc.kind = some k) && attrs.absorb cc))

/-- The stack of nodes to visit with its top first, for so many steps. -/
def absorbLoop (k : Kind) (zero : Node)
    : Nat → List Node → List Node → Attributes → Option Attributes
  | 0, _, _, _ => none
  | _ + 1, [], _, attrs => some attrs
  | steps + 1, cur :: visit, visited, attrs =>
      if attrs.absorbComputed cur then absorbLoop k zero steps visit visited attrs
      else if !visited.contains cur then
        let pushed := (cur.children.filter (fun cc => decide (cc.kind = some k))).reverse
        absorbLoop k zero steps (pushed ++ cur :: visit) (cur :: visited) attrs
      else absorbLoop k zero steps visit visited (attrs.setAbsorb cur (isAnnil k zero attrs cur))

def isAbsorb (steps : Nat) (attrs : Attributes) (a zero : Node) : Option (Bool × Attributes) :=
  match a.kind with
  | none => some (false, attrs)
  | some k =>
      if !isAbsorbKind k then some (false, attrs)
      else
        match absorbLoop k zero steps [a] [] attrs with
        | none => none
        | some attrs => some (attrs.absorb a, attrs)

/-- The equality that a step is asked to prove. -/
inductive Check
  | aciNorm (a b : Node)
  | absorb (a z : Node)

/-- Whether the check accepts, and the attributes after it. -/
def check (id : Node → Nat) (steps : Nat) (attrs : Attributes) : Check → Option (Bool × Attributes)
  | .aciNorm a b => some (isACINorm id attrs a b)
  | .absorb a z =>
      match a.kind with
      | none => some (false, attrs)
      | some k =>
          if getZeroElement k a.type ≠ some z then some (false, attrs)
          else isAbsorb steps attrs a z

end Ava6.Expr.Aci

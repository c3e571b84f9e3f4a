import Ava6.Booleans.Formulas
import Ava6.Library.Worklist

/-! The propagator of truth values through the circuit of the assertions: an assignment to nodes, a queue of the nodes
that were assigned, and edges from nodes to the nodes they are children of. What the source leaves undefined gives
nothing.
-/

namespace Ava6.Booleans

open Library

/-- The symbols of variables, and the directions in which values are propagated. -/
structure CircuitOptions where
  isVariable : Nat → Bool
  forwardPropagation : Bool
  backwardPropagation : Bool

/-- A node without a value is unassigned. `saved` is what popping the context restores. -/
structure CircuitPropagator where
  dPropagationQueue : List Node
  dConflict : Bool
  dLearnedLiterals : List Node
  dBackEdges : Node → Option (List Node)
  dSeen : List Node
  dState : Node → Option Bool
  saved : Option (Bool × List Node × (Node → Option Bool))

namespace CircuitPropagator

variable (options : CircuitOptions)

def isVar : Node → Bool
  | .apply (.op symbol _) [] => options.isVariable symbol
  | _ => false

/-- The node belongs to the Boolean theory. Variables belong to the theory of their type, equalities to that of the
type of their sides, and other nodes to that of their kind.
-/
def isBoolean : Node → Bool
  | .const _ => true
  | .constInteger _ => false
  | .apply (.op symbol range) children => isVar options (.apply (.op symbol range) children) && decide (range = .bool)
  | .apply .equal children => children.head?.any Node.isFormula
  | .apply _ _ => true

/-- Nodes that are not propagated to their children. -/
def isAtom (current : Node) : Bool :=
  !isBoolean options current || isVar options current
    || match current with
      | .apply .equal [a, b] => isVar options a && isVar options b
      | _ => false

def isLearned (current : Node) : Bool :=
  isAtom options current
    || match current with
      | .apply .equal [a, b] => isVar options a || isVar options b
      | _ => false

def isConst : Node → Bool
  | .const _ | .constInteger _ => true
  | .apply _ _ => false

def empty : CircuitPropagator := ⟨[], false, [], fun _ => none, [], fun _ => none, none⟩

def pop (p : CircuitPropagator) : CircuitPropagator :=
  match p.saved with
  | none => p
  | some (conflict, seen, state) => ⟨[], conflict, [], fun _ => none, seen, state, none⟩

def push (p : CircuitPropagator) : CircuitPropagator := { p with saved := some (p.dConflict, p.dSeen, p.dState) }

def initializeContext (p : CircuitPropagator) : CircuitPropagator := (if p.saved.isSome then p.pop else p).push

def isAssigned (p : CircuitPropagator) (n : Node) : Bool := (p.dState n).isSome

def isAssignedTo (p : CircuitPropagator) (n : Node) (value : Bool) : Bool := p.dState n == some value

/-- Undefined where the node is unassigned. -/
def getAssignment (p : CircuitPropagator) (n : Node) : Option Bool := p.dState n

def makeConflict (p : CircuitPropagator) : CircuitPropagator := { p with dConflict := true }

def assignAndEnqueue (n : Node) (value : Bool) (p : CircuitPropagator) : CircuitPropagator :=
  if n = .const (!value) then p.makeConflict
  else
    match p.dState n with
    | some state => if value ≠ state then p.makeConflict else p
    | none =>
        { p with
          dState := Function.update p.dState n (some value), dPropagationQueue := p.dPropagationQueue ++ [n] }

/-- Assigns the value to all nodes, also after a conflict. -/
def assignAll (nodes : List Node) (value : Bool) (p : CircuitPropagator) : CircuitPropagator :=
  nodes.foldl (fun p n => p.assignAndEnqueue n value) p

def addBackEdge (current : Node) (s : CircuitPropagator × List Node) (childNode : Node) : CircuitPropagator × List Node :=
  let parents := (s.1.dBackEdges childNode).getD []
  let p := { s.1 with dBackEdges := Function.update s.1.dBackEdges childNode (some (parents ++ [current])) }
  if childNode ∈ p.dSeen then (p, s.2) else ({ p with dSeen := p.dSeen ++ [childNode] }, s.2 ++ [childNode])

/-- The edges to a node from its children, and the children that were not seen before. -/
def visit (current : Node) (p : CircuitPropagator) : CircuitPropagator × List Node :=
  if isBoolean options current then current.children.foldl (addBackEdge current) (p, []) else (p, [])

theorem sizeOf_foldl_addBackEdge (current : Node) (nodes : List Node) (s : CircuitPropagator × List Node)
    : ((nodes.foldl (addBackEdge current) s).2.map sizeOf).sum ≤ (s.2.map sizeOf).sum + (nodes.map sizeOf).sum := by
  induction nodes generalizing s with
  | nil => simp
  | cons n rest ih =>
      refine Nat.le_trans (ih (addBackEdge current s n)) ?_
      have isAdded : ((addBackEdge current s n).2.map sizeOf).sum ≤ (s.2.map sizeOf).sum + sizeOf n := by
        rw [addBackEdge]
        split <;> simp
      rw [List.map_cons, List.sum_cons]
      omega

theorem sizeOf_visit (current : Node) (p : CircuitPropagator)
    : ((visit options current p).2.map sizeOf).sum < sizeOf current := by
  rw [visit]
  split
  · refine Nat.lt_of_le_of_lt (sizeOf_foldl_addBackEdge current current.children (p, [])) ?_
    have isLess := sum_sizeOf_lt current.children
    cases current with
    | apply k children =>
        simp only [Node.children, List.map_nil, List.sum_nil, Node.apply.sizeOf_spec] at isLess ⊢
        omega
    | _ => simp [Node.children]
  · cases current <;> simp

def visitList : Worklist CircuitPropagator Node := ⟨visit options, sizeOf, sizeOf_visit options⟩

/-- The entry of a root, which is a special case nowhere else. -/
def addRoot (node : Node) (p : CircuitPropagator) : CircuitPropagator :=
  { p with
    dSeen := if node ∈ p.dSeen then p.dSeen else p.dSeen ++ [node]
    dBackEdges := Function.update p.dBackEdges node (some ((p.dBackEdges node).getD [])) }

def computeBackEdges (node : Node) (p : CircuitPropagator) : CircuitPropagator :=
  (visitList options).run (p.addRoot node) (if node ∈ p.dSeen then [] else [node])

mutual
def assertTrue (assertion : Node) (p : CircuitPropagator) : CircuitPropagator :=
  match assertion with
  | .const false => p.makeConflict
  | .apply .and children => assertAll children p
  | assertion => (p.computeBackEdges options assertion).assignAndEnqueue assertion true

def assertAll (assertions : List Node) (p : CircuitPropagator) : CircuitPropagator :=
  match assertions with
  | [] => p
  | assertion :: rest => assertAll rest (assertTrue assertion p)
end

/-- The only node with the property, where others may be equal to it. -/
def findIfUnique (pred : Node → Bool) : List Node → Option Node
  | [] => none
  | n :: rest => if pred n then (if rest.any pred then none else some n) else findIfUnique pred rest

/-- A conjunction with the value `true` for `neutral`, or a disjunction with `false` for it: if all children but one are
neutral, then that one is not.
-/
def backwardNary (children : List Node) (neutral parentAssignment : Bool) (p : CircuitPropagator) : CircuitPropagator :=
  if parentAssignment = neutral then p.assignAll children neutral
  else
    match findIfUnique (fun x => !p.isAssignedTo x neutral) children with
    | some holdout => p.assignAndEnqueue holdout (!neutral)
    | none => p

/-- The other child of the node gets the value that the function gives for the first one that is assigned. -/
def propagateOther (x y : Node) (value : Bool → Bool) (p : CircuitPropagator) : Option CircuitPropagator :=
  if p.isAssigned x then (p.getAssignment x).map fun v => p.assignAndEnqueue y (value v)
  else if p.isAssigned y then (p.getAssignment y).map fun v => p.assignAndEnqueue x (value v)
  else some p

def propagateBackward (parent : Node) (parentAssignment : Bool) (p : CircuitPropagator) : Option CircuitPropagator :=
  match parent with
  | .apply .and children => some (p.backwardNary children true parentAssignment)
  | .apply .or children => some (p.backwardNary children false parentAssignment)
  | .apply .not [a] => some (p.assignAndEnqueue a (!parentAssignment))
  | .apply .ite [c, x, y] =>
      if p.isAssignedTo c true then some (p.assignAndEnqueue x parentAssignment)
      else if p.isAssignedTo c false then some (p.assignAndEnqueue y parentAssignment)
      else if p.isAssigned x && p.isAssigned y then do
        let first ← p.getAssignment x
        let second ← p.getAssignment y
        if first = parentAssignment ∧ second ≠ parentAssignment then some (p.assignAndEnqueue c true)
        else if first ≠ parentAssignment ∧ second = parentAssignment then some (p.assignAndEnqueue c false)
        else some p
      else some p
  | .apply .equal [x, y] =>
      if x.isFormula then p.propagateOther x y (fun v => if parentAssignment then v else !v) else none
  | .apply .implies [x, y] =>
      if parentAssignment then
        let p := if p.isAssignedTo x true then p.assignAndEnqueue y true else p
        some (if p.isAssignedTo y false then p.assignAndEnqueue x false else p)
      else some ((p.assignAndEnqueue x true).assignAndEnqueue y false)
  | .apply .xor [x, y] => p.propagateOther x y (fun v => if parentAssignment then !v else v)
  | _ => none

/-- All children are neutral, or all but one and the parent is not. -/
def forwardNary (parent : Node) (children : List Node) (neutral childAssignment : Bool) (p : CircuitPropagator)
    : CircuitPropagator :=
  if childAssignment = neutral then
    match children.dropWhile (p.isAssignedTo · neutral) with
    | [] => p.assignAndEnqueue parent neutral
    | holdout :: rest =>
        if p.isAssignedTo parent (!neutral) && rest.all (p.isAssignedTo · neutral) then
          p.assignAndEnqueue holdout (!neutral)
        else p
  else p.assignAndEnqueue parent (!neutral)

/-- The parent gets the value of a branch that is assigned. -/
def iteEval (branch parent : Node) (p : CircuitPropagator) : Option CircuitPropagator :=
  if p.isAssigned branch then (p.getAssignment branch).map fun v => p.assignAndEnqueue parent v else some p

def forwardIte (child c x y parent : Node) (childAssignment : Bool) (p : CircuitPropagator) : Option CircuitPropagator :=
  (if child = c then p.iteEval (if childAssignment then x else y) parent else some p).map fun p =>
    let p := if child = x ∧ p.isAssignedTo c true then p.assignAndEnqueue parent childAssignment else p
    if child = y ∧ p.isAssignedTo c false then p.assignAndEnqueue parent childAssignment else p

def forwardEqual (child x y parent : Node) (childAssignment : Bool) (p : CircuitPropagator) : Option CircuitPropagator :=
  if p.isAssigned x && p.isAssigned y then do
    let first ← p.getAssignment x
    let second ← p.getAssignment y
    some (p.assignAndEnqueue parent (first == second))
  else if p.isAssigned parent then do
    let value ← p.getAssignment parent
    let other := if value then childAssignment else !childAssignment
    if child = x then some (p.assignAndEnqueue y other)
    else if child = y then some (p.assignAndEnqueue x other)
    else none
  else some p

def forwardImplies (child x y parent : Node) (childAssignment : Bool) (p : CircuitPropagator)
    : Option CircuitPropagator :=
  if p.isAssigned x && p.isAssigned y then do
    let first ← p.getAssignment x
    let second ← p.getAssignment y
    some (p.assignAndEnqueue parent (!first || second))
  else
    let p := if child = x ∧ childAssignment ∧ p.isAssignedTo parent true then p.assignAndEnqueue y true else p
    some (if child = y ∧ !childAssignment ∧ p.isAssignedTo parent true then p.assignAndEnqueue x false else p)

/-- The parent is assigned. -/
def xorOther (child x y parent : Node) (childAssignment : Bool) (p : CircuitPropagator) : Option CircuitPropagator :=
  if p.isAssigned parent then
    (p.getAssignment parent).bind fun value =>
      if child = x then some (p.assignAndEnqueue y (childAssignment != value))
      else if child = y then some (p.assignAndEnqueue x (childAssignment != value))
      else none
  else some p

def forwardXor (child x y parent : Node) (childAssignment : Bool) (p : CircuitPropagator) : Option CircuitPropagator :=
  (p.xorOther child x y parent childAssignment).bind fun p =>
    if p.isAssigned x && p.isAssigned y then do
      let first ← p.getAssignment x
      let second ← p.getAssignment y
      some (p.assignAndEnqueue parent (first != second))
    else some p

/-- The rules for one parent of the child. -/
def forwardParent (child : Node) (childAssignment : Bool) (parent : Node) (p : CircuitPropagator)
    : Option CircuitPropagator :=
  match parent with
  | .apply .and children => some (p.forwardNary parent children true childAssignment)
  | .apply .or children => some (p.forwardNary parent children false childAssignment)
  | .apply .not [_] => some (p.assignAndEnqueue parent (!childAssignment))
  | .apply .ite [c, x, y] => p.forwardIte child c x y parent childAssignment
  | .apply .equal [x, y] => if x.isFormula then p.forwardEqual child x y parent childAssignment else none
  | .apply .implies [x, y] => p.forwardImplies child x y parent childAssignment
  | .apply .xor [x, y] => p.forwardXor child x y parent childAssignment
  | _ => none

/-- The parents after a conflict are left out. -/
def forwardParents (child : Node) (childAssignment : Bool) : List Node → CircuitPropagator → Option CircuitPropagator
  | [], p => some p
  | parent :: rest, p =>
      if p.dConflict then some p
      else (p.forwardParent child childAssignment parent).bind (forwardParents child childAssignment rest)

/-- Undefined where the child has no entry. -/
def propagateForward (child : Node) (childAssignment : Bool) (p : CircuitPropagator) : Option CircuitPropagator :=
  (p.dBackEdges child).bind fun parents => forwardParents child childAssignment parents p

def learn (current : Node) (assignment : Bool) (p : CircuitPropagator) : CircuitPropagator :=
  if isLearned options current then
    { p with dLearnedLiterals := p.dLearnedLiterals ++ [if assignment then current else current.notNode] }
  else p

/-- To the children, except for atoms and constants. -/
def processBackward (current : Node) (assignment : Bool) (p : CircuitPropagator) : Option CircuitPropagator :=
  if options.backwardPropagation && !isAtom options current && !isConst current then
    p.propagateBackward current assignment
  else some p

def process (current : Node) (p : CircuitPropagator) : Option CircuitPropagator :=
  (p.getAssignment current).bind fun assignment =>
    ((p.learn options current assignment).processBackward options current assignment).bind fun p =>
      if options.forwardPropagation then p.propagateForward current assignment else some p

/-- The queue from position `i` on. Nothing if the fuel does not suffice. -/
def propagateFrom : Nat → Nat → CircuitPropagator → Option CircuitPropagator
  | 0, i, p => if i < p.dPropagationQueue.length ∧ p.dConflict = false then none else some p
  | fuel + 1, i, p =>
      match p.dPropagationQueue[i]? with
      | none => some p
      | some current => if p.dConflict then some p else (p.process options current).bind (propagateFrom fuel (i + 1))

def propagate (fuel : Nat) (p : CircuitPropagator) : Option CircuitPropagator := p.propagateFrom options fuel 0

end CircuitPropagator

end Ava6.Booleans

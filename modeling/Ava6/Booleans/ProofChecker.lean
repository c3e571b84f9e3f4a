import Ava6.Booleans.Node

/-! The checker of the propositional proof rules. A rule that does not apply, and one whose asserted
numbers of premises and arguments or whose pivots are missing, returns nothing.
-/

namespace Ava6.Booleans

inductive ProofRule
  | split | resolution | chainResolution | chainMResolution | factoring | reordering | eqResolve
  | modusPonens | notNotElim | contra | andElim | andIntro | notOrElim | impliesElim
  | notImpliesElim1 | notImpliesElim2 | equivElim1 | equivElim2 | notEquivElim1 | notEquivElim2
  | xorElim1 | xorElim2 | notXorElim1 | notXorElim2 | iteElim1 | iteElim2 | notIteElim1
  | notIteElim2 | notAnd | cnfAndPos | cnfAndNeg | cnfOrPos | cnfOrNeg | cnfImpliesPos
  | cnfImpliesNeg1 | cnfImpliesNeg2 | cnfEquivPos1 | cnfEquivPos2 | cnfEquivNeg1 | cnfEquivNeg2
  | cnfXorPos1 | cnfXorPos2 | cnfXorNeg1 | cnfXorNeg2 | cnfItePos1 | cnfItePos2 | cnfItePos3
  | cnfIteNeg1 | cnfIteNeg2 | cnfIteNeg3 | satRefutation | dratRefutation | satExternalProve
  deriving DecidableEq, Repr

/-- The rules whose conclusion is trusted. -/
def ProofRule.isTrusted : ProofRule → Bool
  | .satRefutation | .dratRefutation | .satExternalProve => true
  | _ => false

def trueNode : Node := .const true

def falseNode : Node := .const false

def mkOr : List Node → Node
  | [] => falseNode
  | [n] => n
  | nodes => .apply .or nodes

/-- A non-negative integer constant that fits an unsigned integer of 32 bits. -/
def getUInt32 : Node → Option Nat
  | .constInteger i => if 0 ≤ i ∧ i < 2 ^ 32 then some i.toNat else none
  | _ => none

/-- The literals of a clause: a disjunction is one literal where it is the pivot. -/
def clauseLits (pivot n : Node) : List Node :=
  if n.getKind = some .or ∧ pivot ≠ n then n.children else [n]

/-- The two pivots for a polarity. -/
def pivots (pol lit : Node) : Node × Node :=
  if pol = trueNode then (lit, lit.notNode) else (lit.notNode, lit)

/-- The first occurrence of the pivot is eliminated from each clause, if there is one. -/
def resolution (children args : List Node) : Option Node :=
  match children, args with
  | [left, right], [pol, lit] =>
      let (first, second) := pivots pol lit
      some (mkOr ((clauseLits first left).erase first ++ (clauseLits second right).erase second))
  | _, _ => none

def factoring (children args : List Node) : Option Node :=
  match children, args with
  | [clause], [] =>
      if clause.getKind = some .or then
        let disjuncts := clause.children.eraseDups
        if disjuncts.length = clause.children.length then none else some (mkOr disjuncts)
      else none
  | _, _ => none

/-- The disjuncts of a disjunction, and another node as a clause of its own. -/
def disjunctsOf (n : Node) : List Node := if n.getKind = some .or then n.children else [n]

/-- Lists with the same elements. -/
def sameSet (first second : List Node) : Bool :=
  first.all second.contains && second.all first.contains

def reordering (children args : List Node) : Option Node :=
  match children, args with
  | [clause], [conclusion] =>
      if sameSet (disjunctsOf clause) (disjunctsOf conclusion) then some conclusion else none
  | _, _ => none

/-- The literals of the first premise of a chain. -/
def firstClause (n pol lit : Node) : List Node :=
  if n.getKind ≠ some .or ∨ (pol = trueNode ∧ n = lit) ∨ (pol = falseNode ∧ n = lit.notNode) then [n]
  else n.children

/-- The literals of a further premise of a chain. -/
def rhsClause (n rhsElim : Node) : List Node :=
  if n.getKind ≠ some .or ∨ n = rhsElim then [n] else n.children

/-- The links of a chain: one occurrence of the pivot is eliminated on each side, and must be there. -/
def chainLinks : List Node → List Node → List Node → List Node → Option (List Node)
  | lhs, child :: children, pol :: pols, lit :: lits =>
      let (lhsElim, rhsElim) := pivots pol lit
      let rhs := rhsClause child rhsElim
      if lhsElim ∈ lhs ∧ rhsElim ∈ rhs then
        chainLinks (lhs.erase lhsElim ++ rhs.erase rhsElim) children pols lits
      else none
  | lhs, [], [], [] => some lhs
  | _, _, _, _ => none

def chainResolution (children args : List Node) : Option Node :=
  match children, args with
  | first :: second :: rest, [polsNode, litsNode] =>
      match polsNode.children, litsNode.children with
      | pol :: pols, lit :: lits =>
          (chainLinks (firstClause first pol lit) (second :: rest) (pol :: pols) (lit :: lits)).map mkOr
      | _, _ => none
  | _, _ => none

/-- The links of a chain that eliminates all occurrences. Premises may be left over. -/
def chainMLinks : List Node → List Node → List Node → List Node → Option (List Node)
  | lhs, child :: children, pol :: pols, lit :: lits =>
      let (lhsElim, rhsElim) := pivots pol lit
      let rhs := rhsClause child rhsElim
      chainMLinks (lhs.filter (· ≠ lhsElim) ++ rhs.filter (· ≠ rhsElim)) children pols lits
  | lhs, _, [], [] => some lhs
  | _, _, _, _ => none

/-- The given conclusion, if it has the literals of the computed clause. -/
def matchConclusion (computed : List Node) (conclusion : Node) : Option Node :=
  match computed.eraseDups with
  | [] => if conclusion = falseNode then some conclusion else none
  | [lit] => if conclusion = lit then some conclusion else none
  | lits =>
      if conclusion.getKind = some .or ∧ sameSet lits conclusion.children then some conclusion
      else none

def chainMResolution (children args : List Node) : Option Node :=
  match children, args with
  | first :: second :: rest, [conclusion, polsNode, litsNode] =>
      match polsNode.children, litsNode.children with
      | pol :: pols, lit :: lits => do
          let computed ← chainMLinks (firstClause first pol lit) (second :: rest) (pol :: pols)
            (lit :: lits)
          matchConclusion computed conclusion
      -- no pivot is read for a premise that is no disjunction, and the chain has no link
      | [], [] => if first.getKind = some .or then none else matchConclusion [first] conclusion
      | _, _ => none
  | _, _ => none

/-- From a premise of a kind, a conclusion from its children. -/
def elim (k : Kind) (conclusion : List Node → Option Node) (children args : List Node) : Option Node :=
  match children, args with
  | [n], [] => if n.getKind = some k then conclusion n.children else none
  | _, _ => none

/-- From the negation of a node of a kind, a conclusion from the children of that node. -/
def notElim (k : Kind) (conclusion : List Node → Option Node) : List Node → List Node → Option Node :=
  elim .not fun
    | [n] => if n.getKind = some k then conclusion n.children else none
    | _ => none

/-- From no premise, a disjunction with literals from an argument of a kind and its children. -/
def cnf (k : Kind) (disjuncts : Node → List Node → Option (List Node)) (children args : List Node)
    : Option Node :=
  match children, args with
  | [], [n] => if n.getKind = some k then (disjuncts n n.children).map (.apply .or) else none
  | _, _ => none

/-- The disjunction of two nodes. -/
def or2 (a b : Node) : Node := .apply .or [a, b]

/-- A conclusion from two children. -/
def ofTwo {α : Type} (f : Node → Node → α) : List Node → Option α
  | [a, b] => some (f a b)
  | _ => none

/-- A conclusion from three children. -/
def ofThree {α : Type} (f : Node → Node → Node → α) : List Node → Option α
  | [c, a, b] => some (f c a b)
  | _ => none

def split (children args : List Node) : Option Node :=
  match children, args with
  | [], [n] => some (or2 n n.notNode)
  | _, _ => none

def contra (children : List Node) : Option Node :=
  match children with
  | [n, negated] => if negated = n.notNode then some falseNode else none
  | _ => none

/-- The second child of a premise of a kind whose first child is the other premise. -/
def detach (k : Kind) (children args : List Node) : Option Node :=
  match children, args with
  | [n, .apply kind [a, b]], [] => if kind = k ∧ n = a then some b else none
  | _, _ => none

def eqResolve : List Node → List Node → Option Node := detach .equal

def modusPonens : List Node → List Node → Option Node := detach .implies

def notNotElim : List Node → List Node → Option Node := notElim .not fun
  | [n] => some n
  | _ => none

def andElim (children args : List Node) : Option Node :=
  match children, args with
  | [n], [index] => do
      let i ← getUInt32 index
      if n.getKind = some .and then n.children[i]? else none
  | _, _ => none

def andIntro (children : List Node) : Option Node :=
  match children with
  | [] => none
  | [n] => some n
  | nodes => some (.apply .and nodes)

def notOrElim (children args : List Node) : Option Node :=
  match children, args with
  | [.apply .not [n]], [index] => do
      let i ← getUInt32 index
      if n.getKind = some .or then (n.children[i]?).map Node.notNode else none
  | _, _ => none

def impliesElim : List Node → List Node → Option Node :=
  elim .implies (ofTwo fun a b => or2 a.notNode b)

def notImpliesElim1 : List Node → List Node → Option Node := notElim .implies (ofTwo fun a _ => a)

def notImpliesElim2 : List Node → List Node → Option Node :=
  notElim .implies (ofTwo fun _ b => b.notNode)

def equivElim1 : List Node → List Node → Option Node :=
  elim .equal (ofTwo fun a b => or2 a.notNode b)

def equivElim2 : List Node → List Node → Option Node :=
  elim .equal (ofTwo fun a b => or2 a b.notNode)

def notEquivElim1 : List Node → List Node → Option Node := notElim .equal (ofTwo or2)

def notEquivElim2 : List Node → List Node → Option Node :=
  notElim .equal (ofTwo fun a b => or2 a.notNode b.notNode)

def xorElim1 : List Node → List Node → Option Node := elim .xor (ofTwo or2)

def xorElim2 : List Node → List Node → Option Node :=
  elim .xor (ofTwo fun a b => or2 a.notNode b.notNode)

def notXorElim1 : List Node → List Node → Option Node :=
  notElim .xor (ofTwo fun a b => or2 a b.notNode)

def notXorElim2 : List Node → List Node → Option Node :=
  notElim .xor (ofTwo fun a b => or2 a.notNode b)

def iteElim1 : List Node → List Node → Option Node :=
  elim .ite (ofThree fun c a _ => or2 c.notNode a)

def iteElim2 : List Node → List Node → Option Node := elim .ite (ofThree fun c _ b => or2 c b)

def notIteElim1 : List Node → List Node → Option Node :=
  notElim .ite (ofThree fun c a _ => or2 c.notNode a.notNode)

def notIteElim2 : List Node → List Node → Option Node :=
  notElim .ite (ofThree fun c _ b => or2 c b.notNode)

def notAnd : List Node → List Node → Option Node :=
  notElim .and fun nodes => some (.apply .or (nodes.map Node.notNode))

/-- A rule that takes one child by its index. -/
def cnfIndexed (k : Kind) (disjuncts : Node → Node → List Node) (children args : List Node)
    : Option Node :=
  match children, args with
  | [], [n, index] => do
      let i ← getUInt32 index
      if n.getKind = some k then (n.children[i]?).map fun a => .apply .or (disjuncts n a) else none
  | _, _ => none

def cnfAndPos : List Node → List Node → Option Node := cnfIndexed .and fun n a => [n.notNode, a]

def cnfAndNeg : List Node → List Node → Option Node :=
  cnf .and fun n nodes => some (n :: nodes.map Node.notNode)

def cnfOrPos : List Node → List Node → Option Node := cnf .or fun n nodes => some (n.notNode :: nodes)

def cnfOrNeg : List Node → List Node → Option Node := cnfIndexed .or fun n a => [n, a.notNode]

def cnfImpliesPos : List Node → List Node → Option Node :=
  cnf .implies fun n => ofTwo fun a b => [n.notNode, a.notNode, b]

def cnfImpliesNeg1 : List Node → List Node → Option Node := cnf .implies fun n => ofTwo fun a _ => [n, a]

def cnfImpliesNeg2 : List Node → List Node → Option Node :=
  cnf .implies fun n => ofTwo fun _ b => [n, b.notNode]

def cnfEquivPos1 : List Node → List Node → Option Node :=
  cnf .equal fun n => ofTwo fun a b => [n.notNode, a.notNode, b]

def cnfEquivPos2 : List Node → List Node → Option Node :=
  cnf .equal fun n => ofTwo fun a b => [n.notNode, a, b.notNode]

def cnfEquivNeg1 : List Node → List Node → Option Node := cnf .equal fun n => ofTwo fun a b => [n, a, b]

def cnfEquivNeg2 : List Node → List Node → Option Node :=
  cnf .equal fun n => ofTwo fun a b => [n, a.notNode, b.notNode]

def cnfXorPos1 : List Node → List Node → Option Node :=
  cnf .xor fun n => ofTwo fun a b => [n.notNode, a, b]

def cnfXorPos2 : List Node → List Node → Option Node :=
  cnf .xor fun n => ofTwo fun a b => [n.notNode, a.notNode, b.notNode]

def cnfXorNeg1 : List Node → List Node → Option Node :=
  cnf .xor fun n => ofTwo fun a b => [n, a.notNode, b]

def cnfXorNeg2 : List Node → List Node → Option Node :=
  cnf .xor fun n => ofTwo fun a b => [n, a, b.notNode]

def cnfItePos1 : List Node → List Node → Option Node :=
  cnf .ite fun n => ofThree fun c a _ => [n.notNode, c.notNode, a]

def cnfItePos2 : List Node → List Node → Option Node :=
  cnf .ite fun n => ofThree fun c _ b => [n.notNode, c, b]

def cnfItePos3 : List Node → List Node → Option Node :=
  cnf .ite fun n => ofThree fun _ a b => [n.notNode, a, b]

def cnfIteNeg1 : List Node → List Node → Option Node :=
  cnf .ite fun n => ofThree fun c a _ => [n, c.notNode, a.notNode]

def cnfIteNeg2 : List Node → List Node → Option Node :=
  cnf .ite fun n => ofThree fun c _ b => [n, c, b.notNode]

def cnfIteNeg3 : List Node → List Node → Option Node :=
  cnf .ite fun n => ofThree fun _ a b => [n, a.notNode, b.notNode]

/-- The trusted rules conclude a contradiction from a number of arguments. -/
def refutation (arity : Nat) (args : List Node) : Option Node :=
  if args.length = arity then some falseNode else none

def checkInternal (id : ProofRule) (children args : List Node) : Option Node :=
  match id with
  | .resolution => resolution children args
  | .factoring => factoring children args
  | .reordering => reordering children args
  | .chainResolution => chainResolution children args
  | .chainMResolution => chainMResolution children args
  | .split => split children args
  | .contra => contra children
  | .eqResolve => eqResolve children args
  | .modusPonens => modusPonens children args
  | .notNotElim => notNotElim children args
  | .andElim => andElim children args
  | .andIntro => andIntro children
  | .notOrElim => notOrElim children args
  | .impliesElim => impliesElim children args
  | .notImpliesElim1 => notImpliesElim1 children args
  | .notImpliesElim2 => notImpliesElim2 children args
  | .equivElim1 => equivElim1 children args
  | .equivElim2 => equivElim2 children args
  | .notEquivElim1 => notEquivElim1 children args
  | .notEquivElim2 => notEquivElim2 children args
  | .xorElim1 => xorElim1 children args
  | .xorElim2 => xorElim2 children args
  | .notXorElim1 => notXorElim1 children args
  | .notXorElim2 => notXorElim2 children args
  | .iteElim1 => iteElim1 children args
  | .iteElim2 => iteElim2 children args
  | .notIteElim1 => notIteElim1 children args
  | .notIteElim2 => notIteElim2 children args
  | .notAnd => notAnd children args
  | .cnfAndPos => cnfAndPos children args
  | .cnfAndNeg => cnfAndNeg children args
  | .cnfOrPos => cnfOrPos children args
  | .cnfOrNeg => cnfOrNeg children args
  | .cnfImpliesPos => cnfImpliesPos children args
  | .cnfImpliesNeg1 => cnfImpliesNeg1 children args
  | .cnfImpliesNeg2 => cnfImpliesNeg2 children args
  | .cnfEquivPos1 => cnfEquivPos1 children args
  | .cnfEquivPos2 => cnfEquivPos2 children args
  | .cnfEquivNeg1 => cnfEquivNeg1 children args
  | .cnfEquivNeg2 => cnfEquivNeg2 children args
  | .cnfXorPos1 => cnfXorPos1 children args
  | .cnfXorPos2 => cnfXorPos2 children args
  | .cnfXorNeg1 => cnfXorNeg1 children args
  | .cnfXorNeg2 => cnfXorNeg2 children args
  | .cnfItePos1 => cnfItePos1 children args
  | .cnfItePos2 => cnfItePos2 children args
  | .cnfItePos3 => cnfItePos3 children args
  | .cnfIteNeg1 => cnfIteNeg1 children args
  | .cnfIteNeg2 => cnfIteNeg2 children args
  | .cnfIteNeg3 => cnfIteNeg3 children args
  | .satRefutation => refutation 0 args
  | .dratRefutation => refutation 2 args
  | .satExternalProve => refutation 1 args

end Ava6.Booleans

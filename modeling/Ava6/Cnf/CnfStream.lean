import Ava6.Cnf.Formula
import Ava6.Library.Sat

/-! The CNF stream: the map from nodes to literals, the definitional conversion by an explicit
stack, and the assertion of formulas at the top level. An operation is undefined where the
source would fail an assertion. The registrar, which is told about theory literals, does not
call back into the stream here.
-/

namespace Ava6.Cnf

open Ava6.Library.Sat

abbrev SatLiteral := Literal

/-- Whether a clause defines the literal of a node or asserts a formula. -/
inductive Origin
  | definition | assertion
  deriving DecidableEq, Repr

structure SatClause where
  literals : Clause
  removable : Bool
  origin : Origin

/-- What the converter uses of the SAT solver: variables are numbered from one on. -/
structure SatClauseSink where
  nextVarIdx : Nat
  theoryAtoms : List Nat
  clauses : List SatClause

namespace SatClauseSink

def trueVar : Nat := 1

def falseVar : Nat := 2

/-- The solver starts with a true and a false variable, fixed by unit clauses. -/
def initial : SatClauseSink where
  nextVarIdx := 3
  theoryAtoms := []
  clauses := [⟨[⟨trueVar, false⟩], false, .definition⟩, ⟨[⟨falseVar, true⟩], false, .definition⟩]

def newVar (s : SatClauseSink) (isTheoryAtom : Bool) : Nat × SatClauseSink :=
  (s.nextVarIdx,
    { s with
      nextVarIdx := s.nextVarIdx + 1
      theoryAtoms := if isTheoryAtom then s.nextVarIdx :: s.theoryAtoms else s.theoryAtoms })

def addClause (s : SatClauseSink) (c : SatClause) : SatClauseSink :=
  { s with clauses := s.clauses ++ [c] }

end SatClauseSink

/-- How literals of formulas that are no theory literals are tracked. -/
inductive FormulaLitPolicy
  | trackAndNotify | trackAndNotifyVar | track | internal
  deriving DecidableEq, Repr

structure CnfStream where
  satSolver : SatClauseSink
  booleanVariables : List Formula
  notifyFormulas : List Formula
  nodeToLiteralMap : List (Formula × SatLiteral)
  literalToNodeMap : List (SatLiteral × Formula)
  flitPolicy : FormulaLitPolicy
  removable : Bool

namespace CnfStream

def initial (flitPolicy : FormulaLitPolicy) : CnfStream :=
  ⟨.initial, [], [], [], [], flitPolicy, false⟩

/-- Adds a clause without duplicate literals. -/
def assertClause (s : CnfStream) (origin : Origin) (c : Clause) : CnfStream :=
  { s with satSolver := s.satSolver.addClause ⟨c.eraseDups, s.removable, origin⟩ }

def assertClauses (s : CnfStream) (origin : Origin) (cs : List Clause) : CnfStream :=
  cs.foldl (·.assertClause origin ·) s

def getLiteral (s : CnfStream) (node : Formula) : Option SatLiteral :=
  (s.nodeToLiteralMap.find? (·.1 = node)).map (·.2)

def hasLiteral (s : CnfStream) (node : Formula) : Bool := (s.getLiteral node).isSome

/-- Inserts into the map from literals to nodes unless the literal is mapped. -/
def insertNode (s : CnfStream) (lit : SatLiteral) (node : Formula) : CnfStream :=
  if s.literalToNodeMap.any (·.1 = lit) then s
  else { s with literalToNodeMap := s.literalToNodeMap ++ [(lit, node)] }

/-- Stores a literal and its negation for queries back. -/
def storeBack (s : CnfStream) (lit : SatLiteral) (node : Formula) : CnfStream :=
  (s.insertNode lit node).insertNode lit.neg node.notNode

def ensureMappingForLiteral (s : CnfStream) (lit : SatLiteral) (n : Formula) : CnfStream :=
  if s.literalToNodeMap.any (·.1 = lit) then s
  else { s with literalToNodeMap := s.literalToNodeMap ++ [(lit, n), (lit.neg, n.notNode)] }

/-- A literal for a node that has none. -/
def allocate (s : CnfStream) (node : Formula) (isTheoryAtom : Bool) : SatLiteral × CnfStream :=
  let (lit, sat) : SatLiteral × SatClauseSink :=
    match node with
    | .const true => (⟨SatClauseSink.trueVar, false⟩, s.satSolver)
    | .const false => (⟨SatClauseSink.falseVar, false⟩, s.satSolver)
    | _ =>
        let (var, sat) := s.satSolver.newVar isTheoryAtom
        (⟨var, false⟩, sat)
  (lit, { s with
    satSolver := sat
    nodeToLiteralMap := s.nodeToLiteralMap ++ [(node, lit), (node.notNode, lit.neg)] })

def newLiteral (s : CnfStream) (node : Formula) (isTheoryAtom : Bool)
    : Option (SatLiteral × CnfStream) :=
  if node.isNot then none
  else
    let notify := !isTheoryAtom && s.flitPolicy == .trackAndNotify
    let isTheoryAtom := isTheoryAtom || notify
    let s := if notify then { s with notifyFormulas := node :: s.notifyFormulas } else s
    let (lit, s) :=
      match s.getLiteral node with
      | some lit => (lit, s)
      | none => s.allocate node isTheoryAtom
    let track := isTheoryAtom || s.flitPolicy == .track || s.flitPolicy == .trackAndNotifyVar
    some (lit, if track then s.storeBack lit node else s)

def convertAtom (s : CnfStream) (node : Formula) : Option (SatLiteral × CnfStream) :=
  if s.hasLiteral node then none
  else
    match node with
    | .atom (.var _ false) =>
        let s := { s with booleanVariables := s.booleanVariables ++ [node] }
        s.newLiteral node (s.flitPolicy == .trackAndNotifyVar)
    | _ => s.newLiteral node true

/-- Gives a node its literal and adds the clauses that define it; removable clauses must not
contain Boolean structure. -/
def handle (s : CnfStream) (node : Formula) (clauses : List SatLiteral → SatLiteral → List Clause)
    : Option CnfStream := do
  if s.hasLiteral node || s.removable then none
  else
    let lits ← node.children.mapM s.getLiteral
    let (lit, s) ← s.newLiteral node false
    return s.assertClauses .definition (clauses lits lit)

def xorClauses : List SatLiteral → SatLiteral → List Clause
  | [a, b], lit =>
      [[a, b, lit.neg], [a.neg, b.neg, lit.neg], [a, b.neg, lit], [a.neg, b, lit]]
  | _, _ => []

def orClauses (lits : List SatLiteral) (lit : SatLiteral) : List Clause :=
  lits.map (fun a => [lit, a.neg]) ++ [lits ++ [lit.neg]]

def andClauses (lits : List SatLiteral) (lit : SatLiteral) : List Clause :=
  lits.map (fun a => [lit.neg, a.neg.neg]) ++ [lits.map Literal.neg ++ [lit]]

def impliesClauses : List SatLiteral → SatLiteral → List Clause
  | [a, b], lit => [[lit.neg, a.neg, b], [a, lit], [b.neg, lit]]
  | _, _ => []

def iffClauses : List SatLiteral → SatLiteral → List Clause
  | [a, b], lit =>
      [[a.neg, b, lit.neg], [a, b.neg, lit.neg], [a.neg, b.neg, lit], [a, b, lit]]
  | _, _ => []

def iteClauses : List SatLiteral → SatLiteral → List Clause
  | [c, t, e], lit =>
      [[lit.neg, t, e], [lit.neg, c.neg, t], [lit.neg, c, e],
        [lit, t.neg, e.neg], [lit, c.neg, t.neg], [lit, c, e.neg]]
  | _, _ => []

def handleXor (s : CnfStream) (node : Formula) : Option CnfStream := s.handle node xorClauses

def handleOr (s : CnfStream) (node : Formula) : Option CnfStream := s.handle node orClauses

def handleAnd (s : CnfStream) (node : Formula) : Option CnfStream := s.handle node andClauses

def handleImplies (s : CnfStream) (node : Formula) : Option CnfStream := s.handle node impliesClauses

def handleIff (s : CnfStream) (node : Formula) : Option CnfStream := s.handle node iffClauses

def handleIte (s : CnfStream) (node : Formula) : Option CnfStream := s.handle node iteClauses

/-- What is done with a node once its children have their literals. -/
def visitNode (s : CnfStream) (cur : Formula) : Option CnfStream :=
  match cur with
  | .node .not [child] => if s.hasLiteral child then some s else none
  | .node .xor _ => s.handleXor cur
  | .node .ite _ => s.handleIte cur
  | .node .implies _ => s.handleImplies cur
  | .node .or _ => s.handleOr cur
  | .node .and _ => s.handleAnd cur
  | .node .equal _ => s.handleIff cur
  | .node .not _ => none
  | .atom _ | .const _ => (s.convertAtom cur).map (·.2)

/-- The loop of `toCNF` over the stack of nodes to visit, the top one first. The cache says of a
node that it was seen, and whether it was handled. -/
def toCNFLoop : Nat → List Formula → List (Formula × Bool) → CnfStream → Option CnfStream
  | _, [], _, s => some s
  | 0, _ :: _, _, _ => none
  | fuel + 1, cur :: visit, cache, s =>
      if s.hasLiteral cur then toCNFLoop fuel visit cache s
      else
        match (cache.find? (·.1 = cur)).map (·.2) with
        | none => toCNFLoop fuel (cur.children ++ cur :: visit) ((cur, false) :: cache) s
        | some false => do
            let s ← s.visitNode cur
            toCNFLoop fuel visit ((cur, true) :: cache) s
        | some true => toCNFLoop fuel visit cache s

/-- Every node of the tree is on the stack at most once and is looked at twice, so the loop ends
within twice the size of the tree. -/
def toCNF (s : CnfStream) (node : Formula) (negated : Bool) : Option (SatLiteral × CnfStream) := do
  let s ← toCNFLoop (2 * node.size) [node] [] s
  let lit ← s.getLiteral node
  return (if negated then lit.neg else lit, s)

/-- The literals of several nodes, converted one after the other. -/
def toCNFs (s : CnfStream) (negated : Bool) : List Formula → Option (List SatLiteral × CnfStream)
  | [] => some ([], s)
  | node :: rest => do
      let (lit, s) ← s.toCNF node negated
      let (lits, s) ← s.toCNFs negated rest
      return (lit :: lits, s)

/-- A literal for a node that has none: an atom is converted, any other node gets a literal that
is definitionally equal to it. -/
def ensureNewLiteral (s : CnfStream) (n : Formula) : Option CnfStream :=
  match n with
  | .atom _ => (s.convertAtom n).map (·.2)
  | _ => do
      let (lit, s) ← ({ s with removable := false } : CnfStream).toCNF n false
      return s.storeBack lit n

/-- A top-level negation is removed first. -/
def ensureLiteral (s : CnfStream) (n : Formula) : Option CnfStream :=
  match s.getLiteral n, n with
  | some lit, _ => some (s.ensureMappingForLiteral lit n)
  | none, .node .not [child] => s.ensureNewLiteral child
  | none, _ => s.ensureNewLiteral n

/-- Converts the children and asserts clauses over their literals. -/
def assertOver (s : CnfStream) (negated : Bool) (children : List Formula)
    (clauses : List SatLiteral → List Clause) : Option CnfStream := do
  let (lits, s) ← s.toCNFs negated children
  return s.assertClauses .assertion (clauses lits)

/-- The clauses for `p` and `q` different. -/
def differClauses : List SatLiteral → List Clause
  | [p, q] => [[p.neg, q.neg], [p, q]]
  | _ => []

/-- The clauses for `p` and `q` equal. -/
def sameClauses : List SatLiteral → List Clause
  | [p, q] => [[p.neg, q], [p, q.neg]]
  | _ => []

def convertAndAssertXor (s : CnfStream) (children : List Formula) (negated : Bool)
    : Option CnfStream :=
  s.assertOver false children (if negated then sameClauses else differClauses)

def convertAndAssertIff (s : CnfStream) (children : List Formula) (negated : Bool)
    : Option CnfStream :=
  s.assertOver false children (if negated then differClauses else sameClauses)

def convertAndAssertIte (s : CnfStream) (children : List Formula) (negated : Bool)
    : Option CnfStream :=
  match children with
  | [c, t, e] => do
      let (p, s) ← s.toCNF c false
      let (q, s) ← s.toCNF t negated
      let (r, s) ← s.toCNF e negated
      return s.assertClauses .assertion [[p.neg, q], [p, r]]
  | _ => none

mutual
def convertAndAssert (s : CnfStream) : Formula → Bool → Option CnfStream
  | .node .and children, negated =>
      if negated then s.assertOver true children (fun lits => [lits])
      else s.convertAndAssertAll false children
  | .node .or children, negated =>
      if negated then s.convertAndAssertAll true children
      else s.assertOver false children (fun lits => [lits])
  | .node .xor children, negated => s.convertAndAssertXor children negated
  | .node .implies [p, q], negated =>
      if negated then do
        let s ← s.convertAndAssert p false
        s.convertAndAssert q true
      else do
        let (p, s) ← s.toCNF p false
        let (q, s) ← s.toCNF q false
        return s.assertClause .assertion [p.neg, q]
  | .node .implies _, _ => none
  | .node .ite children, negated => s.convertAndAssertIte children negated
  | .node .not [child], negated => s.convertAndAssert child (!negated)
  | .node .not _, _ => none
  | .node .equal children, negated => s.convertAndAssertIff children negated
  | node, negated => do
      let (lit, s) ← s.toCNF node negated
      return s.assertClause .assertion [lit]

/-- The conjuncts of a top-level conjunction, one after the other. -/
def convertAndAssertAll (s : CnfStream) (negated : Bool) : List Formula → Option CnfStream
  | [] => some s
  | node :: rest => do
      let s ← s.convertAndAssert node negated
      s.convertAndAssertAll negated rest
end

/-- The calls from outside. -/
inductive Call
  | convertAndAssert (node : Formula) (removable negated : Bool)
  | ensureLiteral (node : Formula)

def call (s : CnfStream) : Call → Option CnfStream
  | .convertAndAssert node removable negated =>
      ({ s with removable := removable } : CnfStream).convertAndAssert node negated
  | .ensureLiteral node => s.ensureLiteral node

def run : CnfStream → List Call → Option CnfStream
  | s, [] => some s
  | s, c :: rest => (s.call c).bind (run · rest)

end CnfStream

end Ava6.Cnf

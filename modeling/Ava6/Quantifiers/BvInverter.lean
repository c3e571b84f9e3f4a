import Ava6.Quantifiers.BvInverterUtils
import Ava6.Bv.Variables
import Mathlib.Data.Int.GCD

/-! The bit-vector inverter: the search for a path to a variable through invertible kinds, and the solution of a literal
for the variable at the end of a path, operator by operator.
-/

namespace Ava6.Quantifiers.BvInverter

open Ava6.Bv

/-- The nodes that the search has visited. -/
abbrev Visited := List (Σ n : Nat, Term n)

/-- The path to the variable, outermost index first, with the nodes visited on the way. -/
abbrev Search := Option (List Nat) × Visited

/-- Visits a node: its children are searched unless it was visited before or is the variable. -/
def visit (pv : Variable) {n : Nat} (lit : Term n) (visited : Visited) (children : Visited → Search) : Search :=
  if visited.any (fun other => lit.same other.2) then (none, visited)
  else
    let visited := ⟨n, lit⟩ :: visited
    if lit.isVariable pv then (some [], visited) else children visited

/-- The path through the child in position `i`, else what the search of the later children gives. -/
def orElse (i : Nat) (found : Search) (later : Visited → Search) : Search :=
  match found with
  | (some path, visited) => (some (i :: path), visited)
  | (none, visited) => later visited

def noPath (visited : Visited) : Search := (none, visited)

/-- The kinds with two children of one width that the search passes. -/
def opKind : BinaryKind → Option OpKind
  | .udiv => some .udiv
  | .urem => some .urem
  | .shl => some .shl
  | .lshr => some .lshr
  | .ashr => some .ashr
  | .xnor | .sub => none

mutual
/-- The children of a node whose kind is not invertible are not searched. -/
def getPathToPv (pv : Variable) : {n : Nat} → Term n → Visited → Search
  | _, .var positive name, visited => visit pv (.var positive name) visited noPath
  | _, .const positive value, visited => visit pv (.const positive value) visited noPath
  | _, .unary k a, visited =>
      visit pv (.unary k a) visited (fun visited => orElse 0 (getPathToPv pv a visited) noPath)
  | _, .binary k a b, visited =>
      visit pv (.binary k a b) visited (fun visited =>
        if (opKind k).isSome then
          orElse 0 (getPathToPv pv a visited) (fun visited => orElse 1 (getPathToPv pv b visited) noPath)
        else noPath visited)
  | _, .nary k first rest, visited =>
      visit pv (.nary k first rest) visited (fun visited =>
        orElse 0 (getPathToPv pv first visited) (fun visited => getPathToPvArgs pv rest 1 visited))
  | _, .flag k a b, visited =>
      visit pv (.flag k a b) visited (fun visited =>
        if k = .comp then
          orElse 0 (getPathToPv pv a visited) (fun visited => orElse 1 (getPathToPv pv b visited) noPath)
        else noPath visited)
  | _, .ite cond thenpart elsepart, visited => visit pv (.ite cond thenpart elsepart) visited noPath
  | _, .concat parts, visited =>
      visit pv (.concat parts) visited (fun visited => getPathToPvParts pv parts 0 visited)
  | _, .extract high low inside a, visited => visit pv (.extract high low inside a) visited noPath
  | _, .signExtend amount a, visited =>
      visit pv (.signExtend amount a) visited (fun visited => orElse 0 (getPathToPv pv a visited) noPath)

def getPathToPvArgs (pv : Variable) : {n : Nat} → Args n → Nat → Visited → Search
  | _, .nil, _, visited => (none, visited)
  | _, .cons head tail, i, visited =>
      orElse i (getPathToPv pv head visited) (fun visited => getPathToPvArgs pv tail (i + 1) visited)

def getPathToPvParts (pv : Variable) : {n : Nat} → Parts n → Nat → Visited → Search
  | _, .single a, i, visited => orElse i (getPathToPv pv a visited) noPath
  | _, .cons a rest, i, visited =>
      orElse i (getPathToPv pv a visited) (fun visited => getPathToPvParts pv rest (i + 1) visited)
end

/-- The path from a relation between two terms; the literal itself is not a bit-vector node. -/
def pathFromRelation (pv : Variable) {n : Nat} (a b : Term n) : Option (List Nat) :=
  (orElse 0 (getPathToPv pv a []) (fun visited => orElse 1 (getPathToPv pv b visited) noPath)).1

/-- A node of the kind over the children, or the only child. -/
def naryNode {n : Nat} (k : NaryKind) (first : Term n) : Args n → Term n
  | .nil => first
  | .cons head tail => .nary k first (.cons head tail)

/-- A child and the others. -/
def takeArg {n : Nat} : Args n → Nat → Option (Term n × Args n)
  | .nil, _ => none
  | .cons head tail, 0 => some (head, tail)
  | .cons head tail, i + 1 => (takeArg tail i).map (fun taken => (taken.1, .cons head taken.2))

/-- The child in position `index` and the node without it. -/
def dropChild {n : Nat} (k : NaryKind) (first : Term n) (rest : Args n) : Nat → Option (Term n × Term n)
  | 0 =>
      match rest with
      | .nil => none
      | .cons head tail => some (first, naryNode k head tail)
  | i + 1 => (takeArg rest i).map (fun taken => (taken.1, naryNode k first taken.2))

/-- `slv` names the solve variables, `bound` the bound variables of the query; the name of a bound variable stands for
the witness term that binds it. -/
structure Inverter where
  slv : Nat
  bound : Nat → Nat
  rewriter : Option (Formula → Formula)
  query : Bool

/-- The term `(witness x cond)`, where `cond` is over the solve variable of the width. -/
structure Witness where
  x : Variable
  cond : Formula

/-- The solve variable of a width. -/
def Inverter.solveVariable (inv : Inverter) (n : Nat) (positive : 0 < n) : Variable := ⟨n, positive, inv.slv⟩

/-- A condition `(= slv c)` or `(= c slv)` has the solution `c`. -/
def solvedForm (slv : Variable) : Formula → Option (Term slv.width)
  | @Formula.rel n .equal a b =>
      if width : n = slv.width then
        if a.isVariable slv then some (b.cast width) else if b.isVariable slv then some (a.cast width) else none
      else none
  | _ => none

/-- The inversion node, with the witness terms made so far. -/
def Inverter.getInversionNode (inv : Inverter) (cond : Formula) (n : Nat) (positive : 0 < n) (witnesses : List Witness)
    : Option (Term n × List Witness) :=
  let new_cond := (inv.rewriter.getD id) cond
  match solvedForm (inv.solveVariable n positive) new_cond with
  | some c => some (c, witnesses)
  | none =>
      if inv.query then
        let x : Variable := ⟨n, positive, inv.bound witnesses.length⟩
        some (x.term, witnesses ++ [⟨x, new_cond⟩])
      else none

/-- The multiplicative inverse modulo `m`, or `-1` if there is none. -/
def modInverse (s m : Nat) : Int := if Nat.gcd s m = 1 then Nat.gcdA s m % m else -1

/-- The value of a constant whose last bit is one. -/
def oddConstant {n : Nat} : Term n → Option (BitVec n)
  | .const _ value => if value.getLsbD 0 then some value else none
  | _ => none

/-- What one operator on the path makes of the literal. -/
inductive Step
  | null
  /-- a condition was built that is not well sorted -/
  | illSorted
  | inverted {k : Nat} (child t : Term k)
  | condition {k : Nat} (child : Term k) (ic : Formula)

/-- The condition for the variable itself, which positive equalities do not need. -/
def variableIC {n : Nat} (pol : Bool) (litk : LitKind) (x t : Term n) : Option Formula :=
  match litk, pol with
  | .ult, _ | .ugt, _ => some (getICBvUltUgt pol litk x t)
  | .slt, _ | .sgt, _ => some (getICBvSltSgt pol litk x t)
  | .equal, false => some (mkRel .distinct x t)
  | .equal, true => none

/-- The branches of operators that are inverted under equality only: the operator is not in the condition. -/
def genericStep {k n : Nat} (pol : Bool) (litk : LitKind) (x child : Term k) (t : Term n) : Step :=
  if same : n = k then
    match variableIC pol litk x (t.cast same) with
    | some ic => .condition child ic
    | none => .null
  else if litk = .equal ∧ pol then .null else .illSorted

theorem first_inside {n wx w2 : Nat} (positive : 0 < wx) (width : n = wx + w2) : w2 ≤ n - 1 ∧ n - 1 < n := by omega

theorem first_width {n wx w2 : Nat} (positive : 0 < wx) (width : n = wx + w2) : n - 1 - w2 + 1 = wx := by omega

theorem last_inside {n w1 wx : Nat} (positive : 0 < wx) (width : n = w1 + wx) : 0 ≤ n - 1 - w1 ∧ n - 1 - w1 < n := by
  omega

theorem last_width {n w1 wx : Nat} (positive : 0 < wx) (width : n = w1 + wx) : n - 1 - w1 - 0 + 1 = wx := by omega

theorem middle_inside {n w1 wx w2 : Nat} (positive : 0 < wx) (width : n = w1 + (wx + w2))
    : w2 ≤ n - 1 - w1 ∧ n - 1 - w1 < n := by
  omega

theorem middle_width {n w1 wx w2 : Nat} (positive : 0 < wx) (width : n = w1 + (wx + w2))
    : n - 1 - w1 - w2 + 1 = wx := by
  omega

/-- The slice of `t` at the position of the child. -/
def concatSlice {n : Nat} (t : Term n) : Position n → Step
  | .whole _ => .null
  | @Position.first _ _ w2 width child _ =>
      have positive := child.positive
      .inverted child (mkExtract t (n - 1) w2 (first_inside positive width) (first_width positive width))
  | @Position.last _ w1 _ width _ child =>
      have positive := child.positive
      .inverted child (mkExtract t (n - 1 - w1) 0 (last_inside positive width) (last_width positive width))
  | @Position.middle _ w1 _ w2 width _ child _ =>
      have positive := child.positive
      .inverted child (mkExtract t (n - 1 - w1) w2 (middle_inside positive width) (middle_width positive width))

/-- The child of a concatenation. -/
def Position.child {n : Nat} : Position n → Σ k : Nat, Term k
  | .whole child => ⟨_, child⟩
  | .first _ child _ => ⟨_, child⟩
  | .last _ _ child => ⟨_, child⟩
  | .middle _ _ child _ => ⟨_, child⟩

/-- One operator, with the solve variable in the place of its child. Kinds that are not invertible are on no path. -/
def step (slv : Nat) (pol : Bool) (litk : LitKind) (index : Nat) : {n : Nat} → Term n → Term n → Step
  | _, .unary k a, t =>
      if litk = .equal then .inverted a (.unary k t) else genericStep pol litk (.var a.positive slv) a t
  | n, .nary k first rest, t =>
      match dropChild k first rest index with
      | none => .null
      | some (child, s) =>
          let x := Term.var child.positive slv
          match k with
          | .add => if litk = .equal then .inverted child (.binary .sub t s) else genericStep pol litk x child t
          | .xor => if litk = .equal then .inverted child (mkNary .xor t s) else genericStep pol litk x child t
          | .mult =>
              match (if litk = .equal then oddConstant s else none) with
              | some value =>
                  let inv := Term.const s.positive (BitVec.ofInt n (modInverse value.toNat (2 ^ n)))
                  .inverted child (mkNary .mult inv t)
              | none => .condition child (getICBvMult pol litk index x s t)
          | .and => .condition child (getICBvAndOr pol litk .and index x s t)
          | .or => .condition child (getICBvAndOr pol litk .or index x s t)
  | _, .binary k a b, t =>
      let child := if index = 0 then a else b
      let s := if index = 0 then b else a
      let x := Term.var child.positive slv
      match k with
      | .shl => .condition child (getICBvShl pol litk index x s t)
      | .urem => .condition child (getICBvUrem pol litk index x s t)
      | .udiv => .condition child (getICBvUdiv pol litk index x s t)
      | .lshr => .condition child (getICBvLshr pol litk index x s t)
      | .ashr => .condition child (getICBvAshr pol litk index x s t)
      | .xnor | .sub => .null
  | _, .flag k a b, t =>
      let child := if index = 0 then a else b
      if k = .comp then genericStep pol litk (.var child.positive slv) child t else .null
  | _, .concat parts, t =>
      match position parts index with
      | none => .null
      | some p =>
          if litk = .equal then concatSlice t p
          else
            match getICBvConcat pol litk index (fun _ positive => .var positive slv) parts t with
            | none => .null
            | some ic => .condition p.child.2 ic
  | _, .signExtend _ a, t =>
      match getICBvSext pol litk (.var a.positive slv) t with
      | none => .illSorted
      | some ic => .condition a ic
  | _, .var _ _, _ | _, .const _ _, _ | _, .ite _ _ _, _ | _, .extract _ _ _ _, _ => .null

/-- What the solution of a literal returns. -/
inductive Outcome (n : Nat)
  | null
  | illSorted
  | solved (t : Term n) (witnesses : List Witness)

/-- The end of the path: `sv_t` is the variable. -/
def Inverter.solveVariableLit (inv : Inverter) (sv : Variable) (pol : Bool) (litk : LitKind) {n : Nat} (t : Term n)
    (witnesses : List Witness) : Outcome sv.width :=
  if width : n = sv.width then
    match variableIC pol litk (.var sv.positive inv.slv) (t.cast width) with
    | none => .solved (t.cast width) witnesses
    | some ic =>
        match inv.getInversionNode ic sv.width sv.positive witnesses with
        | none => .null
        | some (c, witnesses) => .solved c witnesses
  else .null

/-- The loop over the bit-vector operators on the path, outermost index first. A witness term is equal to what is on the
path below it, so the literal becomes a positive equality. -/
def Inverter.solveFrom (inv : Inverter) (sv : Variable) : List Nat → Bool → LitKind → {n : Nat} → Term n → Term n →
    List Witness → Outcome sv.width
  | [], pol, litk, _, _, t, witnesses => inv.solveVariableLit sv pol litk t witnesses
  | index :: path, pol, litk, _, sv_t, t, witnesses =>
      match step inv.slv pol litk index sv_t t with
      | .null => .null
      | .illSorted => .illSorted
      | .inverted child t => inv.solveFrom sv path pol litk child t witnesses
      | @Step.condition k child ic =>
          match inv.getInversionNode ic k child.positive witnesses with
          | none => .null
          | some (t, witnesses) => inv.solveFrom sv path true .equal child t witnesses

/-- The kind of a literal, by the side of the variable. -/
def litKind : Relation → Nat → Option LitKind
  | .equal, _ => some .equal
  | .ult, index => some (if index = 1 then .ugt else .ult)
  | .slt, index => some (if index = 1 then .sgt else .slt)
  | _, _ => none

/-- A relation of the given polarity. -/
def Inverter.solveRelation (inv : Inverter) (sv : Variable) (pol : Bool) (k : Relation) {n : Nat} (a b : Term n)
    : List Nat → Outcome sv.width
  | [] => .null
  | index :: path =>
      match litKind k index with
      | none => .null
      | some litk =>
          inv.solveFrom sv path pol litk (if index = 0 then a else b) (if index = 0 then b else a) []

def Inverter.solveBvLit (inv : Inverter) (sv : Variable) : Formula → List Nat → Outcome sv.width
  | .not (.rel k a b), 0 :: path => inv.solveRelation sv false k a b path
  | .rel k a b, path => inv.solveRelation sv true k a b path
  | _, _ => .null

/-- The child of a node in a position. -/
def childAt : {n : Nat} → Term n → Nat → Option (Σ k : Nat, Term k)
  | _, .unary _ a, 0 => some ⟨_, a⟩
  | _, .binary _ a _, 0 => some ⟨_, a⟩
  | _, .binary _ _ b, 1 => some ⟨_, b⟩
  | _, .nary _ first _, 0 => some ⟨_, first⟩
  | _, .nary _ _ rest, i + 1 => (takeArg rest i).map (fun taken => ⟨_, taken.1⟩)
  | _, .flag _ a _, 0 => some ⟨_, a⟩
  | _, .flag _ _ b, 1 => some ⟨_, b⟩
  | _, .concat parts, index => (position parts index).map Position.child
  | _, .signExtend _ a, 0 => some ⟨_, a⟩
  | _, _, _ => none

def isConcat : {n : Nat} → Term n → Bool
  | _, .concat _ => true
  | _, _ => false

/-- No node on the path is a concatenation. -/
def pathAllowed : {n : Nat} → Term n → List Nat → Bool
  | _, _, [] => true
  | _, curr, p :: path =>
      !isConcat curr
        && match childAt curr p with
          | some child => pathAllowed child.2 path
          | none => true

/-- The solution of an equality without an inverter query, a rewriter, or concatenations on the path. -/
def getBvInvertSolve {n : Nat} (slv : Nat) (var : Variable) (a b : Term n) : Outcome var.width :=
  match pathFromRelation var a b with
  | none => .null
  | some [] => .null
  | some (p :: path) =>
      if pathAllowed (if p = 0 then a else b) path then
        Inverter.solveBvLit { slv, bound := id, rewriter := none, query := false } var (.rel .equal a b) (p :: path)
      else .null

end Ava6.Quantifiers.BvInverter

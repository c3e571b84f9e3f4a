import Mathlib

/-! A trie of patterns with variables for single arguments and for runs of arguments of n-ary operators,
and the search in it, which is a stack of frames that bind variables and undo it.
-/

namespace Ava6.Expr.Nary

structure TypeNode where
  name : Nat
deriving DecidableEq

/-- Variables of any kind, bound ones or not, whether they are marked as list variables, and how many
arguments those of function types take.
-/
structure Variable where
  name : Nat
  isBound : Bool
  isList : Bool
  arity : Nat
deriving DecidableEq

/-- Nodes without operator that are no variables. -/
inductive Constant
  | sortToTerm (tn : TypeNode)
  | emptySet (tn : TypeNode)
  | emptyWord (tn : TypeNode)
  | other (name : Nat)
deriving DecidableEq

/-- Operators of a fixed arity, function symbols, which are terms as well, operators of n-ary kinds with at
least two or any number of children, and the macros of one argument.
-/
inductive Operator
  | fixed (name arity : Nat)
  | symbol (f : Variable)
  | nary (name : Nat)
  | variadic (name : Nat)
  | sexpr
  | typeOf | setEmptyOfType | seqEmptyOfType
deriving DecidableEq

def isNAryKind : Operator → Bool
  | .nary _ | .variadic _ | .sexpr => true
  | .fixed _ _ | .symbol _ | .typeOf | .setEmptyOfType | .seqEmptyOfType => false

inductive Node
  | var (v : Variable)
  | const (c : Constant)
  | apply (op : Operator) (children : List Node)

mutual

def Node.decEq : (a b : Node) → Decidable (a = b)
  | .var v, .var w => decidable_of_iff (v = w) (by simp)
  | .const c, .const d => decidable_of_iff (c = d) (by simp)
  | .apply f a, .apply g b =>
      have := Node.decEqs a b
      decidable_of_iff (f = g ∧ a = b) (by simp)
  | .var _, .const _ | .var _, .apply _ _ | .const _, .var _ | .const _, .apply _ _
  | .apply _ _, .var _ | .apply _ _, .const _ => isFalse nofun

def Node.decEqs : (a b : List Node) → Decidable (a = b)
  | [], [] => isTrue rfl
  | a :: as, b :: bs =>
      have := Node.decEq a b
      have := Node.decEqs as bs
      decidable_of_iff (a = b ∧ as = bs) (by simp)
  | [], _ :: _ | _ :: _, [] => isFalse nofun

end

instance : DecidableEq Node := Node.decEq

/-- Types of nodes and what the rest of the program does with them. -/
structure Types where
  getType : Node → TypeNode
  isComparableTo : TypeNode → TypeNode → Bool
  getNullTerminator : Operator → TypeNode → Option Node

/-- Nodes to process with their top first, where null marks the end of an n-ary application. -/
abbrev Stack := List (Option Node)

/-- The children of an application and their end, in front of a stack. -/
def expand (op : Operator) (children : List Node) (rest : Stack) : Stack :=
  children.map some ++ if isNAryKind op then none :: rest else rest

namespace Node

mutual

def size : Node → Nat
  | .var _ | .const _ => 1
  | .apply _ children => 2 + sizes children

def sizes : List Node → Nat
  | [] => 0
  | node :: rest => size node + sizes rest

end

end Node

def stackSize : Stack → Nat
  | [] => 0
  | none :: rest => 1 + stackSize rest
  | some n :: rest => n.size + stackSize rest

theorem stackSize_append (front rest : Stack)
    : stackSize (front ++ rest) = stackSize front + stackSize rest := by
  induction front with
  | nil => simp [stackSize]
  | cons sym front ih =>
      cases sym with
      | none => rw [List.cons_append, stackSize, stackSize, ih, Nat.add_assoc]
      | some n => rw [List.cons_append, stackSize, stackSize, ih, Nat.add_assoc]

theorem stackSize_map_some (nodes : List Node) : stackSize (nodes.map some) = Node.sizes nodes := by
  induction nodes with
  | nil => rfl
  | cons node rest ih => rw [List.map_cons, stackSize, ih, Node.sizes]

theorem stackSize_expand_lt (op : Operator) (children : List Node) (rest : Stack)
    : stackSize (expand op children rest) < stackSize (some (.apply op children) :: rest) := by
  rw [expand, stackSize_append, stackSize_map_some, stackSize, Node.size]
  split
  · rw [stackSize]
    omega
  · omega

/-- What the edges of a trie are labelled with: the null node, nodes without operator, and operators that are
none of these.
-/
inductive Key
  | null
  | op (f : Operator)
  | const (c : Constant)
  | var (v : Variable)
deriving DecidableEq

/-- A function symbol is the same node where it is applied and where it is an argument. -/
def operatorKey : Operator → Key
  | .symbol f => .var f
  | op => .op op

def keyOf : Option Node → Key
  | none => .null
  | some (.var v) => .var v
  | some (.const c) => .const c
  | some (.apply op _) => operatorKey op

inductive Trie
  | node (children : Key → Option Trie) (vars : List Variable) (data : Option Node)

namespace Trie

def children : Trie → Key → Option Trie
  | .node children _ _ => children

def vars : Trie → List Variable
  | .node _ vars _ => vars

def data : Trie → Option Node
  | .node _ _ data => data

def empty : Trie := .node (fun _ => none) [] none

def setData (t : Trie) (n : Node) : Trie := .node t.children t.vars (some n)

def setChild (t : Trie) (k : Key) (child : Trie) : Trie :=
  .node (Function.update t.children k (some child)) t.vars t.data

def child (t : Trie) (k : Key) : Trie := (t.children k).getD empty

def addVar (t : Trie) (v : Variable) : Trie :=
  .node t.children (if t.vars.contains v then t.vars else t.vars ++ [v]) t.data

/-- The loop that follows the edges of a pattern and makes those that are missing. -/
def addLoop (n : Node) (visit : Stack) (t : Trie) : Trie :=
  match visit with
  | [] => t.setData n
  | none :: visit => t.setChild .null (addLoop n visit (t.child .null))
  | some (.apply op children) :: visit =>
      t.setChild (operatorKey op) (addLoop n (expand op children visit) (t.child (operatorKey op)))
  | some (.const c) :: visit => t.setChild (.const c) (addLoop n visit (t.child (.const c)))
  | some (.var v) :: visit =>
      (t.addVar v).setChild (.var v) (addLoop n visit (t.child (.var v)))
termination_by stackSize visit
decreasing_by
  · simp [stackSize]
  · exact stackSize_expand_lt ..
  · simp [stackSize, Node.size]
  · simp [stackSize, Node.size]

def addTerm (t : Trie) (n : Node) : Trie := addLoop n [some n] t

end Trie

/-- The variables bound and their values, with the last one first, and the map of both. -/
structure Bindings where
  vars : List Variable
  subs : List Node
  smap : Variable → Option Node

namespace Bindings

def empty : Bindings := ⟨[], [], fun _ => none⟩

def bind (b : Bindings) (v : Variable) (next : Node) : Bindings :=
  ⟨v :: b.vars, next :: b.subs, Function.update b.smap v (some next)⟩

def unbind (b : Bindings) : Bindings :=
  match b.vars with
  | [] => b
  | v :: vars => ⟨vars, b.subs.tail, Function.update b.smap v none⟩

end Bindings

structure Frame where
  syms : Stack
  trie : Trie
  index : Nat
  variant : Nat
  boundVar : Bool

/-- The variable, value and remaining symbols of a match of one variable, and where to go on. -/
structure Attempt where
  var : Variable
  next : Node
  syms : Stack
  index : Nat
  variant : Nat

section Search

variable (types : Types)

/-- The next so many children for a list variable, if there are that many of comparable type. -/
def takeRun (var : Variable) : Nat → Stack → Option (List Node × Stack)
  | 0, syms => some ([], syms)
  | l + 1, some s :: syms =>
      if types.isComparableTo (types.getType s) (types.getType (.var var)) then
        (takeRun var l syms).map (fun (children, rest) => (s :: children, rest))
      else none
  | _ + 1, _ => none

theorem length_takeRun {var : Variable} {l : Nat} {syms rest : Stack} {children : List Node}
    (taken : takeRun types var l syms = some (children, rest))
    : l ≤ syms.length := by
  induction l generalizing syms children rest with
  | zero => exact Nat.zero_le _
  | succ l ih =>
      cases syms with
      | nil => cases taken
      | cons s syms =>
          cases s with
          | none => cases taken
          | some s =>
              rw [takeRun] at taken
              split at taken
              · obtain ⟨run, isRun, _⟩ := Option.map_eq_some_iff.mp taken
                exact Nat.succ_le_succ (ih isRun)
              · cases taken

/-- A variable that is bound already is matched again only with its value. -/
def accepts (smap : Variable → Option Node) (var : Variable) (next : Node) : Bool :=
  match smap var with
  | some bound => decide (bound = next)
  | none => true

/-- The loop that tries the variables of a trie that are left from an index on. -/
def tryVars (syms : Stack) (smap : Variable → Option Node)
    : List Variable → (index variant : Nat) → Option Attempt
  | [], _, _ => none
  | var :: vars, index, variant =>
      if var.isList then
        match taken : takeRun types var variant syms with
        | some (children, rest) =>
            let next := Node.apply .sexpr children
            if accepts smap var next then some ⟨var, next, rest, index, variant + 1⟩
            else tryVars syms smap (var :: vars) index (variant + 1)
        | none => tryVars syms smap vars (index + 1) 0
      else
        match syms with
        | some next :: rest =>
            if types.isComparableTo (types.getType (.var var)) (types.getType next)
                && accepts smap var next then
              some ⟨var, next, rest, index + 1, variant⟩
            else tryVars (some next :: rest) smap vars (index + 1) variant
        | syms => tryVars syms smap vars (index + 1) variant
termination_by vars _ variant => (vars.length, syms.length + 1 - variant)
decreasing_by
  · have enough : variant ≤ syms.length := length_takeRun types taken
    exact Prod.Lex.right _ (by omega)
  · exact Prod.Lex.left _ _ (Nat.lt_succ_self _)
  · exact Prod.Lex.left _ _ (Nat.lt_succ_self _)
  · exact Prod.Lex.left _ _ (Nat.lt_succ_self _)

/-- A call of the callback: the pattern that matches, and the variables with their values. -/
abbrev Notification := Option Node × List Variable × List Node

structure Search where
  visit : List Frame
  bindings : Bindings
  notified : List Notification

inductive Outcome
  | running (search : Search)
  | finished (result : Bool) (notified : List Notification)
  /-- There is no edge for a variable that is listed. -/
  | undefined

namespace Search

variable (notify : List Notification → Bool)

def start (t : Trie) (n : Node) : Search := ⟨[⟨[some n], t, 0, 0, false⟩], .empty, []⟩

/-- The symbols after matching an operator. -/
def pushChildren (next : Option Node) (rest : Stack) : Stack :=
  match next with
  | some (.apply op children) => expand op children rest
  | _ => rest

/-- One round of the loop. -/
def step (s : Search) : Outcome :=
  match s.visit with
  | [] => .finished true s.notified
  | curr :: visit =>
      match curr.syms with
      | [] =>
          let call := (curr.trie.data, s.bindings.vars.reverse, s.bindings.subs.reverse)
          let notified := s.notified ++ [call]
          if notify notified then .running ⟨visit, s.bindings, notified⟩ else .finished false notified
      | next :: rest =>
          let bindings := if curr.boundVar then s.bindings.unbind else s.bindings
          let curr := { curr with boundVar := false }
          if curr.index = 0 then
            let curr := { curr with index := 1 }
            match curr.trie.children (keyOf next) with
            | some child =>
                .running ⟨⟨pushChildren next rest, child, 0, 0, false⟩ :: curr :: visit, bindings,
                  s.notified⟩
            | none => .running ⟨curr :: visit, bindings, s.notified⟩
          else
            match tryVars types curr.syms bindings.smap (curr.trie.vars.drop (curr.index - 1))
                curr.index curr.variant with
            | none => .running ⟨visit, bindings, s.notified⟩
            | some attempt =>
                let isNew := (bindings.smap attempt.var).isNone
                let curr :=
                  { curr with index := attempt.index, variant := attempt.variant, boundVar := isNew }
                let bindings := if isNew then bindings.bind attempt.var attempt.next else bindings
                match curr.trie.children (.var attempt.var) with
                | some child =>
                    .running ⟨⟨attempt.syms, child, 0, 0, false⟩ :: curr :: visit, bindings, s.notified⟩
                | none => .undefined

def run : Nat → Search → Outcome
  | 0, s => .running s
  | rounds + 1, s =>
      match s.step types notify with
      | .running s => run rounds s
      | outcome => outcome

end Search

end Search

end Ava6.Expr.Nary

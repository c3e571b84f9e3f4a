import Ava6.Library.Snapshot

/-! The symbol table: terms bound to names in scopes, and several symbols under one name told apart
by the sorts of their arguments. The trie of argument sorts outlives the scopes; the set of overloaded
symbols says which of its entries are active.
-/

namespace Ava6.Parser

open Library.Snapshot

/-- What a sort is made of, as far as arguments go. -/
inductive SortShape (S : Type)
  | function (domain : List S) (codomain : S)
  | datatypeConstructor (domain : List S) (codomain : S)
  | datatypeSelector (domain codomain : S)
  | other

/-- The sorts of terms and the shapes of sorts. -/
structure Api (T S : Type) where
  getSort : T → S
  shape : S → SortShape S

variable {T S : Type}

namespace Api

variable (api : Api T S)

def argTypes (obj : T) : List S :=
  match api.shape (api.getSort obj) with
  | .function domain _ => domain
  | .datatypeConstructor domain _ => domain
  | .datatypeSelector domain _ => [domain]
  | .other => []

def rangeType (obj : T) : S :=
  match api.shape (api.getSort obj) with
  | .function _ codomain => codomain
  | .datatypeConstructor _ codomain => codomain
  | .datatypeSelector _ codomain => codomain
  | .other => api.getSort obj

end Api

/-- Sets the value of a key. -/
def insertEntry {K V : Type} [DecidableEq K] (key : K) (value : V) (entries : List (K × V))
    : List (K × V) :=
  (key, value) :: entries.filter (·.1 ≠ key)

/-- Symbols by their range, at the end of a path of argument sorts. -/
inductive TypeArgTrie (S T : Type)
  | node (children : List (S × TypeArgTrie S T)) (symbols : List (S × T))

namespace TypeArgTrie

variable [DecidableEq S]

def empty : TypeArgTrie S T := .node [] []

def children : TypeArgTrie S T → List (S × TypeArgTrie S T)
  | .node children _ => children

def symbols : TypeArgTrie S T → List (S × T)
  | .node _ symbols => symbols

/-- The node that the argument sorts lead to. -/
def find : List S → TypeArgTrie S T → Option (TypeArgTrie S T)
  | [], tat => some tat
  | sort :: rest, tat =>
      match tat.children.lookup sort with
      | some child => child.find rest
      | none => none

/-- The symbols after argument sorts, none if no node is there. -/
def symbolsAt (path : List S) (tat : TypeArgTrie S T) : List (S × T) :=
  ((tat.find path).map symbols).getD []

/-- Changes the symbols after argument sorts. Missing nodes are created. -/
def update (change : List (S × T) → List (S × T)) : List S → TypeArgTrie S T → TypeArgTrie S T
  | [], .node children symbols => .node children (change symbols)
  | sort :: rest, .node children symbols =>
      .node (insertEntry sort (((children.lookup sort).getD empty).update change rest) children)
        symbols

end TypeArgTrie

/-- What depends on the context. -/
structure Scoped (T : Type) where
  exprMap : List (String × T)
  dummySortTerms : List T
  overloadedSymbols : List T

structure SymbolTable (T S : Type) where
  context : Copies (Scoped T)
  overloadTypeArgTrie : List (String × TypeArgTrie S T)
  allowFunctionVariants : Bool

namespace SymbolTable

variable [DecidableEq T] [DecidableEq S]

def create : SymbolTable T S := ⟨⟨⟨[], [], []⟩, []⟩, [], false⟩

/-- The content of the current scope. -/
def current (table : SymbolTable T S) : Scoped T := table.context.current

def setCurrent (table : SymbolTable T S) (content : Scoped T) : SymbolTable T S :=
  { table with context := { table.context with current := content } }

def getLevel (table : SymbolTable T S) : Nat := table.context.copies.length

def pushScope (table : SymbolTable T S) : SymbolTable T S :=
  { table with context := ⟨table.current, table.current :: table.context.copies⟩ }

/-- Undefined at level zero, where the code throws. -/
def popScope (table : SymbolTable T S) : Option (SymbolTable T S) :=
  match table.context.copies with
  | [] => none
  | content :: rest => some { table with context := ⟨content, rest⟩ }

def isOverloadedFunction (table : SymbolTable T S) (fun' : T) : Bool :=
  table.current.overloadedSymbols.contains fun'

/-- The loop over the symbols of a node, with the active one found so far. -/
def overloadedFunctionLoop (table : SymbolTable T S) (reqUnique : Bool)
    : Option T → List (S × T) → Option T
  | retExpr, [] => retExpr
  | retExpr, (_, expr) :: rest =>
      if table.isOverloadedFunction expr then
        match retExpr with
        | none => if reqUnique then overloadedFunctionLoop table reqUnique (some expr) rest else some expr
        | some _ => none
      else overloadedFunctionLoop table reqUnique retExpr rest

def getOverloadedFunctionAt (table : SymbolTable T S) (symbols : List (S × T)) (reqUnique : Bool)
    : Option T :=
  table.overloadedFunctionLoop reqUnique none symbols

def getOverloadedConstantForType (table : SymbolTable T S) (name : String) (t : S) : Option T :=
  match table.overloadTypeArgTrie.lookup name with
  | none => none
  | some tat =>
      match tat.symbols.lookup t with
      | none => none
      | some expr => if table.isOverloadedFunction expr then some expr else none

def getOverloadedFunctionForTypes (table : SymbolTable T S) (name : String) (argTypes : List S)
    : Option T :=
  match table.overloadTypeArgTrie.lookup name with
  | none => none
  | some tat =>
      match tat.find argTypes with
      | none => none
      | some node => table.getOverloadedFunctionAt node.symbols true

variable (api : Api T S)

/-- The trie of a name, with the symbols at the arguments of a term changed. -/
def changeTrie (table : SymbolTable T S) (name : String) (obj : T)
    (change : List (S × T) → List (S × T)) : SymbolTable T S :=
  let tat := (table.overloadTypeArgTrie.lookup name).getD .empty
  { table with
    overloadTypeArgTrie :=
      insertEntry name (tat.update change (api.argTypes obj)) table.overloadTypeArgTrie }

/-- The symbols that stand where a term would. -/
def symbolsFor (table : SymbolTable T S) (name : String) (obj : T) : List (S × T) :=
  ((table.overloadTypeArgTrie.lookup name).getD .empty).symbolsAt (api.argTypes obj)

/-- Whether an active symbol is in the way of a term. -/
def existingOverload (table : SymbolTable T S) (name : String) (obj : T) : Bool :=
  if table.allowFunctionVariants || (api.argTypes obj).isEmpty then
    match (table.symbolsFor api name obj).lookup (api.rangeType obj) with
    | some prev => table.isOverloadedFunction prev
    | none => false
  else (table.getOverloadedFunctionAt (table.symbolsFor api name obj) false).isSome

/-- A rejected term leaves the nodes of its arguments behind. -/
def markOverloaded (table : SymbolTable T S) (name : String) (obj : T) : Bool × SymbolTable T S :=
  if table.existingOverload api name obj then (false, table.changeTrie api name obj id)
  else
    let marked := table.changeTrie api name obj (insertEntry (api.rangeType obj) obj)
    let overloaded := obj :: table.current.overloadedSymbols
    (true, marked.setCurrent { marked.current with overloadedSymbols := overloaded })

/-- The previous symbol is marked before the new one is looked at. -/
def overloadBind (table : SymbolTable T S) (name : String) (prevBoundObj obj : T)
    : Bool × SymbolTable T S :=
  let (retprev, table) :=
    if table.isOverloadedFunction prevBoundObj then (true, table)
    else table.markOverloaded api name prevBoundObj
  let (retobj, table) := table.markOverloaded api name obj
  (retprev && retobj, table)

def bindWithOverloading (table : SymbolTable T S) (name : String) (obj : T)
    : Bool × SymbolTable T S :=
  match table.current.exprMap.lookup name with
  | none => (true, table)
  | some prevBoundObj =>
      if prevBoundObj ≠ obj then
        if table.current.dummySortTerms.contains prevBoundObj then (false, table)
        else table.overloadBind api name prevBoundObj obj
      else (true, table)

def insertExpr (table : SymbolTable T S) (name : String) (obj : T) : SymbolTable T S :=
  table.setCurrent
    { table.current with exprMap := insertEntry name obj table.current.exprMap }

def bind (table : SymbolTable T S) (name : String) (obj : T) (doOverload : Bool)
    : Bool × SymbolTable T S :=
  if doOverload then
    match table.bindWithOverloading api name obj with
    | (false, table) => (false, table)
    | (true, table) => (true, table.insertExpr name obj)
  else (true, table.insertExpr name obj)

def bindDummySortTerm (table : SymbolTable T S) (name : String) (t : T) : Bool × SymbolTable T S :=
  match table.bind api name t false with
  | (false, table) => (false, table)
  | (true, table) =>
      (true, table.setCurrent
        { table.current with dummySortTerms := t :: table.current.dummySortTerms })

def isBound (table : SymbolTable T S) (name : String) : Bool :=
  (table.current.exprMap.lookup name).isSome

def lookup (table : SymbolTable T S) (name : String) : Option T :=
  match table.current.exprMap.lookup name with
  | none => none
  | some expr => if table.isOverloadedFunction expr then none else some expr

end SymbolTable

end Ava6.Parser

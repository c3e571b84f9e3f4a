import Ava6.Parser.SymbolScopes

/-! What a call of `bind` changes: a rejected declaration, and a local name over the life of its
scope. Terms may be bound to several names here, with or without overloading.
-/

namespace Ava6.Parser

open Library.Snapshot

variable {T S : Type} [DecidableEq T] [DecidableEq S]

-- Calls

inductive TableCall (T : Type)
  | pushScope
  | popScope
  | bind (name : String) (obj : T) (doOverload : Bool)
  | bindDummySortTerm (name : String) (t : T)
  | resetAssertions
  | reset

namespace SymbolTable

/-- The content below all scopes. -/
def bottom (context : Copies (Scoped T)) : Scoped T := context.copies.getLastD context.current

/-- Pop all contexts, then push one. -/
def resetAssertions (table : SymbolTable T S) : SymbolTable T S :=
  { table with context := ⟨bottom table.context, [bottom table.context]⟩ }

variable (api : Api T S)

/-- A pop that throws changes nothing. -/
def call (table : SymbolTable T S) : TableCall T → SymbolTable T S
  | .pushScope => table.pushScope
  | .popScope => table.popScope.getD table
  | .bind name obj doOverload => (table.bind api name obj doOverload).2
  | .bindDummySortTerm name t => (table.bindDummySortTerm api name t).2
  | .resetAssertions => table.resetAssertions
  | .reset => create

def calls (table : SymbolTable T S) (steps : List (TableCall T)) : SymbolTable T S :=
  steps.foldl (call api) table

/-- Symbol tables that calls lead to. -/
def Reachable (table : SymbolTable T S) : Prop := ∃ steps, table = calls api create steps

/-- All questions about terms are answered alike. -/
structure SameAnswers (table table' : SymbolTable T S) : Prop where
  isBound (name : String) : table'.isBound name = table.isBound name
  lookup (name : String) : table'.lookup name = table.lookup name
  isOverloadedFunction (fun' : T) : table'.isOverloadedFunction fun' = table.isOverloadedFunction fun'
  constant (name : String) (t : S)
    : table'.getOverloadedConstantForType name t = table.getOverloadedConstantForType name t
  function (name : String) (argTypes : List S)
    : table'.getOverloadedFunctionForTypes name argTypes
      = table.getOverloadedFunctionForTypes name argTypes

variable {api} {table table' : SymbolTable T S} {name : String} {obj prev : T}

/-- The answers depend on the current scope and on the symbols of the trie. -/
theorem SameAnswers.of_symbols (sameScope : table'.current = table.current)
    (sameSymbols : ∀ name path, table'.symbolsOf name path = table.symbolsOf name path)
    : SameAnswers table table' := by
  have overloaded (x : T) : table'.isOverloadedFunction x = table.isOverloadedFunction x := by
    rw [SymbolTable.isOverloadedFunction, SymbolTable.isOverloadedFunction, sameScope]
  refine ⟨fun name => ?_, fun name => ?_, overloaded, fun name t => ?_, fun name argTypes => ?_⟩
  · rw [SymbolTable.isBound, SymbolTable.isBound, sameScope]
  · rw [SymbolTable.lookup, SymbolTable.lookup, sameScope]
    simp only [overloaded]
  · rw [getOverloadedConstantForType_eq, getOverloadedConstantForType_eq, sameSymbols,
      funext overloaded]
  · rw [getOverloadedFunctionForTypes_eq, getOverloadedFunctionForTypes_eq, sameSymbols,
      getOverloadedFunctionAt, getOverloadedFunctionAt, overloadedFunctionLoop_unique,
      overloadedFunctionLoop_unique]
    simp only [overloaded]

omit [DecidableEq T] in
/-- Looking for a place in the trie changes no symbols. -/
theorem symbolsOf_changeTrie_id (name name' : String) (obj : T) (path : List S)
    : (table.changeTrie api name obj id).symbolsOf name' path = table.symbolsOf name' path := by
  rw [symbolsOf_changeTrie]
  split
  · next here => rw [id, here.1]
  · rfl

theorem sameAnswers_changeTrie_id (table : SymbolTable T S) (name : String) (obj : T)
    : SameAnswers table (table.changeTrie api name obj id) :=
  .of_symbols rfl (fun name' path => symbolsOf_changeTrie_id name name' obj path)

theorem SameAnswers.trans {table'' : SymbolTable T S} (first : SameAnswers table table')
    (second : SameAnswers table' table'')
    : SameAnswers table table'' :=
  ⟨fun name => (second.isBound name).trans (first.isBound name),
    fun name => (second.lookup name).trans (first.lookup name),
    fun x => (second.isOverloadedFunction x).trans (first.isOverloadedFunction x),
    fun name t => (second.constant name t).trans (first.constant name t),
    fun name argTypes => (second.function name argTypes).trans (first.function name argTypes)⟩

/-- Whether a symbol is in the way depends on the symbols of the trie and on which are active. -/
theorem existingOverload_congr
    (sameVariants : table'.allowFunctionVariants = table.allowFunctionVariants)
    (sameSymbols : table'.symbolsFor api name obj = table.symbolsFor api name obj)
    (overloaded : ∀ x, table'.isOverloadedFunction x = table.isOverloadedFunction x)
    : table'.existingOverload api name obj = table.existingOverload api name obj := by
  have sameFound : (table'.getOverloadedFunctionAt (table.symbolsFor api name obj) false).isSome
      = (table.getOverloadedFunctionAt (table.symbolsFor api name obj) false).isSome := by
    rw [Bool.eq_iff_iff, getOverloadedFunctionAt, getOverloadedFunctionAt,
      overloadedFunctionLoop_any, overloadedFunctionLoop_any]
    simp only [overloaded]
  rw [existingOverload, existingOverload, sameSymbols, sameVariants, sameFound]
  simp only [overloaded]

theorem existingOverload_changeTrie_id (other : T)
    : (table.changeTrie api name other id).existingOverload api name obj
      = table.existingOverload api name obj :=
  existingOverload_congr rfl (symbolsOf_changeTrie_id name name other (api.argTypes obj))
    (fun _ => rfl)

/-- The table after a symbol is marked as overloaded. -/
def marked (api : Api T S) (table : SymbolTable T S) (name : String) (obj : T) : SymbolTable T S :=
  (table.changeTrie api name obj (insertEntry (api.rangeType obj) obj)).setCurrent
    { table.current with overloadedSymbols := obj :: table.current.overloadedSymbols }

theorem markOverloaded_eq (table : SymbolTable T S) (name : String) (obj : T)
    : table.markOverloaded api name obj
      = if table.existingOverload api name obj then (false, table.changeTrie api name obj id)
        else (true, table.marked api name obj) := rfl

omit [DecidableEq S] in
theorem isOverloadedFunction_marked (x : T) [DecidableEq S]
    : (table.marked api name obj).isOverloadedFunction x = true
      ↔ x = obj ∨ table.isOverloadedFunction x = true := by
  simp [isOverloadedFunction, marked, setCurrent, current]

omit [DecidableEq T] in
theorem symbolsOf_marked (name name' : String) (obj : T) (path : List S)
    : (table.marked api name obj).symbolsOf name' path
      = if name' = name ∧ path = api.argTypes obj then
          insertEntry (api.rangeType obj) obj (table.symbolsOf name path)
        else table.symbolsOf name' path :=
  symbolsOf_changeTrie name name' obj path _

/-- The active symbols of a node after a symbol is marked that none is in the way of. -/
theorem not_sameAnswers_marked (noVariants : table.allowFunctionVariants = false)
    (free : table.existingOverload api name obj = false)
    : ¬SameAnswers table (table.marked api name obj) := by
  intro same
  have sameActive := same.isOverloadedFunction
  have active : (table.marked api name obj).isOverloadedFunction obj = true :=
    (isOverloadedFunction_marked obj).mpr (Or.inl rfl)
  have here : table.symbolsFor api name obj = table.symbolsOf name (api.argTypes obj) := rfl
  rw [existingOverload, noVariants, Bool.false_or, here] at free
  cases args : api.argTypes obj with
  | nil =>
      have constants := same.constant name (api.rangeType obj)
      rw [getOverloadedConstantForType_eq, getOverloadedConstantForType_eq, symbolsOf_marked,
        if_pos ⟨rfl, args.symm⟩, lookup_insertEntry, if_pos rfl, Option.filter_some, if_pos active]
        at constants
      rw [args] at free
      simp only [List.isEmpty_nil, if_true] at free
      cases found : (table.symbolsOf name []).lookup (api.rangeType obj) with
      | none =>
          rw [found] at constants
          simp at constants
      | some prev =>
          rw [found] at constants free
          simp only at free
          rw [Option.filter_some, if_neg (by simp [free])] at constants
          simp at constants
  | cons first rest =>
      have functions := same.function name (api.argTypes obj)
      rw [args, List.isEmpty_cons, if_neg (by simp), ← args] at free
      have inactive (entry : S × T) (member : entry ∈ table.symbolsOf name (api.argTypes obj))
          : table.isOverloadedFunction entry.2 = false := by
        by_contra isActive
        have found : (table.overloadedFunctionLoop false none
            (table.symbolsOf name (api.argTypes obj))).isSome = true :=
          (overloadedFunctionLoop_any _).mpr ⟨entry, member, by simpa using isActive⟩
        rw [getOverloadedFunctionAt] at free
        rw [free] at found
        exact absurd found (by simp)
      have none : (table.symbolsOf name (api.argTypes obj)).filter
          (table.isOverloadedFunction ·.2) = [] :=
        List.filter_eq_nil_iff.mpr (fun entry member => by simp [inactive entry member])
      have none' : ((table.symbolsOf name (api.argTypes obj)).filter (·.1 ≠ api.rangeType obj)).filter
          (table.isOverloadedFunction ·.2) = [] :=
        List.filter_eq_nil_iff.mpr (fun entry member => by
          simp [inactive entry (List.mem_of_mem_filter member)])
      rw [getOverloadedFunctionForTypes_eq, getOverloadedFunctionForTypes_eq, symbolsOf_marked,
        if_pos ⟨rfl, rfl⟩, getOverloadedFunctionAt, getOverloadedFunctionAt,
        overloadedFunctionLoop_unique, overloadedFunctionLoop_unique, insertEntry] at functions
      rw [sameActive obj] at active
      simp only [sameActive, none, List.filter_cons, active, if_true, none'] at functions
      simp at functions

-- Rejected declarations

/-- The table with other overloaded symbols and another trie. -/
def withSymbols (table : SymbolTable T S) (overloaded : List T)
    (trie : List (String × TypeArgTrie S T)) : SymbolTable T S :=
  { table with
    context := ⟨{ table.current with overloadedSymbols := overloaded }, table.context.copies⟩
    overloadTypeArgTrie := trie }

theorem markOverloaded_frame (api : Api T S) (table : SymbolTable T S) (name : String) (obj : T)
    : ∃ overloaded trie, (table.markOverloaded api name obj).2 = table.withSymbols overloaded trie := by
  rw [markOverloaded_eq]
  split
  · exact ⟨_, _, rfl⟩
  · exact ⟨_, _, rfl⟩

theorem bindWithOverloading_frame (api : Api T S) (table : SymbolTable T S) (name : String) (obj : T)
    : ∃ overloaded trie,
      (table.bindWithOverloading api name obj).2 = table.withSymbols overloaded trie := by
  rw [bindWithOverloading]
  split
  · exact ⟨_, _, rfl⟩
  · next prev bound =>
      split
      · split
        · exact ⟨_, _, rfl⟩
        · simp only [overloadBind]
          split
          · exact markOverloaded_frame api table name obj
          · obtain ⟨overloaded, trie, marked⟩ := markOverloaded_frame api table name prev
            obtain ⟨overloaded', trie', marked'⟩ := markOverloaded_frame api
              (table.withSymbols overloaded trie) name obj
            exact ⟨overloaded', trie', by rw [marked, marked']; rfl⟩
      · exact ⟨_, _, rfl⟩

/-- A call of `bind` inserts its term if it is accepted, and changes what is overloaded. -/
theorem bind_frame (api : Api T S) (table : SymbolTable T S) (name : String) (obj : T) (doOverload : Bool)
    : ∃ overloaded trie, (table.bind api name obj doOverload).2
      = if (table.bind api name obj doOverload).1
        then (table.withSymbols overloaded trie).insertExpr name obj
        else table.withSymbols overloaded trie := by
  cases doOverload with
  | false => exact ⟨table.current.overloadedSymbols, table.overloadTypeArgTrie, rfl⟩
  | true =>
      obtain ⟨overloaded, trie, overloading⟩ := bindWithOverloading_frame api table name obj
      refine ⟨overloaded, trie, ?_⟩
      rw [bind, if_pos rfl, ← overloading]
      rcases table.bindWithOverloading api name obj with ⟨_ | _, _⟩ <;> rfl

theorem allowFunctionVariants_bind (table : SymbolTable T S) (name : String) (obj : T)
    (doOverload : Bool)
    : (table.bind api name obj doOverload).2.allowFunctionVariants = table.allowFunctionVariants := by
  obtain ⟨overloaded, trie, result⟩ := bind_frame api table name obj doOverload
  rw [result]
  split <;> rfl

theorem allowFunctionVariants_call (step : TableCall T)
    (noVariants : table.allowFunctionVariants = false)
    : (table.call api step).allowFunctionVariants = false := by
  cases step with
  | pushScope => exact noVariants
  | popScope =>
      rw [call, popScope]
      split <;> exact noVariants
  | bind name obj doOverload => exact (allowFunctionVariants_bind table name obj doOverload).trans noVariants
  | bindDummySortTerm name t => exact noVariants
  | resetAssertions => exact noVariants
  | reset => rfl

theorem Reachable.noVariants (reachable : Reachable api table)
    : table.allowFunctionVariants = false := by
  obtain ⟨steps, rfl⟩ := reachable
  suffices every : ∀ start : SymbolTable T S, start.allowFunctionVariants = false →
      (calls api start steps).allowFunctionVariants = false from every create rfl
  induction steps with
  | nil => exact fun _ noVariants => noVariants
  | cons step rest ih =>
      exact fun start noVariants => ih (call api start step) (allowFunctionVariants_call step noVariants)

/-- A rejected term finds a different term under its name, one that a sort reserves or one that it
cannot overload. -/
theorem bind_rejected (rejected : (table.bind api name obj true).1 = false)
    : ∃ prev, table.current.exprMap.lookup name = some prev ∧ prev ≠ obj
      ∧ table.bind api name obj true
        = (if table.current.dummySortTerms.contains prev then (false, table)
          else (false, (table.overloadBind api name prev obj).2))
      ∧ (table.current.dummySortTerms.contains prev = false →
        (table.overloadBind api name prev obj).1 = false) := by
  rw [bind, if_pos rfl] at rejected ⊢
  cases bound : table.current.exprMap.lookup name with
  | none => simp [bindWithOverloading, bound] at rejected
  | some prev =>
      by_cases different : prev ≠ obj
      · refine ⟨prev, rfl, different, ?_⟩
        rw [bindWithOverloading, bound] at rejected ⊢
        simp only [if_pos different] at rejected ⊢
        by_cases isDummy : table.current.dummySortTerms.contains prev = true
        · simp only [isDummy, if_true, true_and]
          exact fun isFalse => by cases isFalse
        · rw [if_neg isDummy] at rejected
          simp only [if_neg isDummy]
          rcases result : table.overloadBind api name prev obj with ⟨accepted, table'⟩
          rw [result] at rejected
          cases accepted with
          | false => exact ⟨rfl, fun _ => rfl⟩
          | true => simp at rejected
      · simp [bindWithOverloading, bound, different] at rejected

/-- The declaration finds a term that a sort reserves, one that is overloaded already, or one that
some other symbol of the same name is in the way of, as it is in the way of the declared term. -/
def KeptOnRejection (api : Api T S) (table : SymbolTable T S) (name : String) (obj : T) : Prop :=
  ∃ prev, table.current.exprMap.lookup name = some prev
    ∧ (table.current.dummySortTerms.contains prev = true
      ∨ table.isOverloadedFunction prev = true
      ∨ (table.existingOverload api name prev = true ∧ table.existingOverload api name obj = true))

/-- A rejected declaration changes no answer exactly if it does not mark the previous symbol. -/
theorem sameAnswers_overloadBind_iff (noVariants : table.allowFunctionVariants = false)
    (rejected : (table.overloadBind api name prev obj).1 = false)
    : SameAnswers table (table.overloadBind api name prev obj).2
      ↔ table.isOverloadedFunction prev = true
        ∨ (table.existingOverload api name prev = true
          ∧ table.existingOverload api name obj = true) := by
  by_cases overloaded : table.isOverloadedFunction prev = true
  · have objRejected : table.existingOverload api name obj = true := by
      by_contra free
      simp [overloadBind, overloaded, markOverloaded_eq, free] at rejected
    simp only [overloadBind, overloaded, if_true, markOverloaded_eq, objRejected, true_or, iff_true]
    exact sameAnswers_changeTrie_id table name obj
  · by_cases prevRejected : table.existingOverload api name prev = true
    · by_cases objRejected : table.existingOverload api name obj = true
      · simp only [overloadBind, overloaded, if_false, markOverloaded_eq, prevRejected, if_true,
          existingOverload_changeTrie_id, objRejected, and_self, or_true, iff_true,
          Bool.false_eq_true]
        exact (sameAnswers_changeTrie_id table name prev).trans
          (sameAnswers_changeTrie_id (table.changeTrie api name prev id) name obj)
      · simp only [overloadBind, overloaded, if_false, markOverloaded_eq, prevRejected, if_true,
          existingOverload_changeTrie_id, objRejected, Bool.false_eq_true, and_false, or_self,
          iff_false]
        intro same
        have back : SameAnswers (table.changeTrie api name prev id) table := by
          refine .of_symbols rfl (fun name' path => ?_)
          exact (symbolsOf_changeTrie_id name name' prev path).symm
        have free : (table.changeTrie api name prev id).existingOverload api name obj = false := by
          rw [existingOverload_changeTrie_id]
          simpa using objRejected
        have stillNoVariants : (table.changeTrie api name prev id).allowFunctionVariants = false :=
          noVariants
        exact not_sameAnswers_marked stillNoVariants free (back.trans same)
    · simp only [overloaded, prevRejected, false_and, or_self, iff_false, Bool.false_eq_true]
      intro same
      have kept := same.isOverloadedFunction prev
      have nowActive : (table.overloadBind api name prev obj).2.isOverloadedFunction prev = true := by
        simp only [overloadBind, overloaded, if_false, markOverloaded_eq, prevRejected,
          Bool.false_eq_true]
        split
        · exact (isOverloadedFunction_marked prev).mpr (Or.inl rfl)
        · exact (isOverloadedFunction_marked prev).mpr
            (Or.inr ((isOverloadedFunction_marked prev).mpr (Or.inl rfl)))
      exact overloaded (kept.symm.trans nowActive)

/-- A rejected declaration changes no answer exactly where the symbol before is not marked as overloaded by it. What is
bound is read off the rejection, and only the mark is left to compare.
-/
theorem rejected_bind_sameAnswers_iff (api : Api T S) (table : SymbolTable T S)
    (reachable : Reachable api table) (name : String) (obj : T)
    (rejected : (table.bind api name obj true).1 = false)
    : SameAnswers table (table.bind api name obj true).2 ↔ KeptOnRejection api table name obj := by
  obtain ⟨prev, bound, -, result, notOverloaded⟩ := bind_rejected rejected
  rw [result]
  have prevIs (other : T) : table.current.exprMap.lookup name = some other ↔ other = prev := by
    rw [bound, Option.some_inj, eq_comm]
  simp only [KeptOnRejection, prevIs, exists_eq_left]
  by_cases isDummy : table.current.dummySortTerms.contains prev = true
  · simp only [isDummy, if_true, true_or, iff_true]
    exact .of_symbols rfl (fun _ _ => rfl)
  · simp only [isDummy, if_false, false_or, Bool.false_eq_true]
    exact sameAnswers_overloadBind_iff reachable.noVariants (notOverloaded (by simpa using isDummy))

/-- Two constants of different sorts share a name, a third one has the sort of the first. -/
theorem rejected_third_constant_keeps_answers
    : Reachable Session.parityApi
        (calls Session.parityApi create [.bind "c" 0 true, .bind "c" 1 true])
      ∧ ((calls Session.parityApi create [.bind "c" 0 true, .bind "c" 1 true]).bind
          Session.parityApi "c" 2 true).1 = false
      ∧ SameAnswers (calls Session.parityApi create [.bind "c" 0 true, .bind "c" 1 true])
        ((calls Session.parityApi create [.bind "c" 0 true, .bind "c" 1 true]).bind
          Session.parityApi "c" 2 true).2 :=
  ⟨⟨_, rfl⟩, by decide,
    (rejected_bind_sameAnswers_iff Session.parityApi _ ⟨_, rfl⟩ "c" 2 (by decide)).mpr
      ⟨1, by decide, Or.inr (Or.inl (by decide))⟩⟩

/-- A second constant of the same sort is rejected, and the first one is not found any more. -/
theorem rejected_second_constant_changes_lookup
    : ∃ table : SymbolTable Nat Nat, Reachable Session.parityApi table
      ∧ (table.bind Session.parityApi "c" 2 true).1 = false
      ∧ table.lookup "c" = some 0
      ∧ (table.bind Session.parityApi "c" 2 true).2.lookup "c" = none
      ∧ ¬SameAnswers table (table.bind Session.parityApi "c" 2 true).2 := by
  refine ⟨calls Session.parityApi create [.bind "c" 0 true], ⟨_, rfl⟩, by decide, by decide,
    by decide, fun same => ?_⟩
  have kept := same.lookup "c"
  exact absurd kept (by decide)

-- Local names

/-- The table after a scope is opened for a local name. -/
def openLocal (api : Api T S) (table : SymbolTable T S) (x : String) (t : T) : SymbolTable T S :=
  (table.pushScope.bind api x t false).2

/-- The number of scopes inside the one of the local name, undefined if that one is closed. -/
def innerDepth : Nat → TableCall T → Option Nat
  | depth, .pushScope => some (depth + 1)
  | 0, .popScope => none
  | depth + 1, .popScope => some depth
  | _, .resetAssertions => none
  | _, .reset => none
  | depth, .bind _ _ _ => some depth
  | depth, .bindDummySortTerm _ _ => some depth

/-- The calls leave the scope of the local name open and end with `final` scopes inside it. -/
def StaysInside : Nat → List (TableCall T) → Nat → Prop
  | depth, [], final => depth = final
  | depth, step :: rest, final =>
      ∃ next, innerDepth depth step = some next ∧ StaysInside next rest final

def BindsAgain (api : Api T S) (table : SymbolTable T S) (x : String) : TableCall T → Prop
  | .bind name obj doOverload => name = x ∧ (table.bind api name obj doOverload).1 = true
  | .bindDummySortTerm name _ => name = x
  | _ => False

def NeverBindsAgain (api : Api T S) (x : String) : SymbolTable T S → List (TableCall T) → Prop
  | _, [] => True
  | table, step :: rest =>
      ¬BindsAgain api table x step ∧ NeverBindsAgain api x (table.call api step) rest

/-- The name resolves to the term before and after each of the calls. -/
def AlwaysResolves (api : Api T S) (x : String) (t : T) : SymbolTable T S → List (TableCall T) → Prop
  | table, [] => table.lookup x = some t
  | table, step :: rest =>
      table.lookup x = some t ∧ AlwaysResolves api x t (table.call api step) rest

/-- The table in which a declaration that overloads a previous symbol is checked. -/
def withPrevious (api : Api T S) (table : SymbolTable T S) (name : String) (prev : T)
    : SymbolTable T S :=
  if table.isOverloadedFunction prev then table else (table.markOverloaded api name prev).2

/-- The call overloads the term: as the symbol that its name is bound to, or as the declared one. -/
def Overloads (api : Api T S) (table : SymbolTable T S) (t : T) : TableCall T → Prop
  | .bind name obj true =>
      ∃ prev, table.current.exprMap.lookup name = some prev ∧ prev ≠ obj
        ∧ table.current.dummySortTerms.contains prev = false
        ∧ ((prev = t ∧ table.existingOverload api name prev = false)
          ∨ (obj = t ∧ (table.withPrevious api name prev).existingOverload api name obj = false))
  | _ => False

def NeverOverloads (api : Api T S) (t : T) : SymbolTable T S → List (TableCall T) → Prop
  | _, [] => True
  | table, step :: rest =>
      ¬Overloads api table t step ∧ NeverOverloads api t (table.call api step) rest

theorem isOverloadedFunction_markOverloaded (x : T)
    : (table.markOverloaded api name obj).2.isOverloadedFunction x = true
      ↔ table.isOverloadedFunction x = true
        ∨ (obj = x ∧ table.existingOverload api name obj = false) := by
  rw [markOverloaded_eq]
  by_cases existing : table.existingOverload api name obj = true
  · simp only [existing, if_true, Bool.true_eq_false, and_false, or_false]
    exact Iff.rfl
  · simp only [existing, if_false, isOverloadedFunction_marked, and_true, Bool.false_eq_true]
    rw [or_comm, @eq_comm _ x]

theorem isOverloadedFunction_withPrevious (x : T)
    : (table.withPrevious api name prev).isOverloadedFunction x = true
      ↔ table.isOverloadedFunction x = true
        ∨ (prev = x ∧ table.existingOverload api name prev = false) := by
  rw [withPrevious]
  split
  · next overloaded =>
      refine ⟨Or.inl, fun either => either.elim id (fun same => ?_)⟩
      rw [← same.1]
      exact overloaded
  · exact isOverloadedFunction_markOverloaded x

theorem isOverloadedFunction_overloadBind (x : T)
    : (table.overloadBind api name prev obj).2.isOverloadedFunction x = true
      ↔ table.isOverloadedFunction x = true
        ∨ (prev = x ∧ table.existingOverload api name prev = false)
        ∨ (obj = x ∧ (table.withPrevious api name prev).existingOverload api name obj = false) := by
  have inTwoSteps : (table.overloadBind api name prev obj).2
      = ((table.withPrevious api name prev).markOverloaded api name obj).2 := by
    simp only [overloadBind, withPrevious]
    split <;> rfl
  rw [inTwoSteps, isOverloadedFunction_markOverloaded, isOverloadedFunction_withPrevious, or_assoc]

/-- Binding a name changes what terms are overloaded as the overloading declaration does. -/
theorem isOverloadedFunction_bind (x : T) (doOverload : Bool)
    : (table.bind api name obj doOverload).2.isOverloadedFunction x = true
      ↔ table.isOverloadedFunction x = true ∨ Overloads api table x (.bind name obj doOverload) := by
  cases doOverload with
  | false => exact ⟨Or.inl, fun either => either.elim id False.elim⟩
  | true =>
      have inserted : (table.bind api name obj true).2.isOverloadedFunction x
          = (table.bindWithOverloading api name obj).2.isOverloadedFunction x := by
        rw [bind, if_pos rfl]
        split
        · next rejected => rw [rejected]
        · next accepted => rw [accepted]; rfl
      rw [inserted]
      cases bound : table.current.exprMap.lookup name with
      | none => simp [bindWithOverloading, Overloads, bound]
      | some prev =>
          by_cases same : prev = obj
          · simp [bindWithOverloading, Overloads, bound, same]
          · by_cases isDummy : table.current.dummySortTerms.contains prev = true
            · simp only [bindWithOverloading, Overloads, bound, ne_eq, same, not_false_eq_true,
                if_true, isDummy, Option.some.injEq, exists_eq_left', Bool.true_eq_false, false_and,
                and_false, or_false]
            · have notDummy : table.current.dummySortTerms.contains prev = false := by
                simpa using isDummy
              simp only [bindWithOverloading, bound, ne_eq, same, not_false_eq_true, if_true,
                notDummy, if_false, Bool.false_eq_true, isOverloadedFunction_overloadBind, Overloads,
                Option.some.injEq, exists_eq_left', true_and]

/-- A name keeps its term in a call of `bind` that does not bind it. -/
theorem exprMap_bind (x : String) (doOverload : Bool)
    (notAgain : ¬BindsAgain api table x (.bind name obj doOverload))
    : (table.bind api name obj doOverload).2.current.exprMap.lookup x
      = table.current.exprMap.lookup x := by
  obtain ⟨overloaded, trie, result⟩ := bind_frame api table name obj doOverload
  rw [result]
  split
  · next accepted =>
      have different : x ≠ name := fun same => notAgain ⟨same.symm, accepted⟩
      rw [insertExpr, current, setCurrent, lookup_insertEntry, if_neg different]
      rfl
  · rfl

theorem copies_bind (api : Api T S) (table : SymbolTable T S) (name : String) (obj : T) (doOverload : Bool)
    : (table.bind api name obj doOverload).2.context.copies = table.context.copies := by
  obtain ⟨overloaded, trie, result⟩ := bind_frame api table name obj doOverload
  rw [result]
  split <;> rfl

/-- Above the contents of the base stand as many as scopes are open inside, all with a property. -/
def Above (base : List (Scoped T)) (good : Scoped T → Prop) (depth : Nat) (table : SymbolTable T S)
    : Prop :=
  ∃ inner, table.context.copies = inner ++ base ∧ inner.length = depth
    ∧ ∀ content ∈ table.current :: inner, good content

variable {base : List (Scoped T)} {depth : Nat}

/-- Calls inside a scope keep what is below it. Scopes need to be looked at only for calls that
change the current one. -/
theorem Above.call {good : Scoped T → Prop} {next : Nat}
    {step : TableCall T} (above : Above base good depth table)
    (inside : innerDepth depth step = some next)
    (keeps : (table.call api step).context.copies = table.context.copies →
      good (table.call api step).current)
    : Above base good next (table.call api step) := by
  obtain ⟨inner, copies, length, allGood⟩ := above
  cases step with
  | pushScope =>
      cases inside
      refine ⟨table.current :: inner, by simp [SymbolTable.call, pushScope, copies], by simp [length],
        ?_⟩
      intro content member
      rcases List.mem_cons.mp member with rfl | older
      · exact allGood _ (List.mem_cons_self ..)
      · exact allGood _ older
  | popScope =>
      cases inner with
      | nil =>
          subst length
          cases inside
      | cons content rest =>
          subst length
          cases inside
          have popped : table.call api .popScope = { table with context := ⟨content, rest ++ base⟩ } := by
            rw [SymbolTable.call, popScope, copies]
            rfl
          rw [popped]
          exact ⟨rest, rfl, rfl, fun content' member => allGood content' (List.mem_cons_of_mem _ member)⟩
  | bind name obj doOverload =>
      cases inside
      have sameCopies := copies_bind api table name obj doOverload
      exact ⟨inner, sameCopies.trans copies, length,
        List.forall_mem_cons.mpr ⟨keeps sameCopies, (List.forall_mem_cons.mp allGood).2⟩⟩
  | bindDummySortTerm name t =>
      cases inside
      exact ⟨inner, copies, length,
        List.forall_mem_cons.mpr ⟨keeps rfl, (List.forall_mem_cons.mp allGood).2⟩⟩
  | resetAssertions => cases inside
  | reset => cases inside

/-- The name is bound to the term and the term is not overloaded. -/
def ResolvesTo (x : String) (t : T) (content : Scoped T) : Prop :=
  content.exprMap.lookup x = some t ∧ content.overloadedSymbols.contains t = false

variable {x : String} {t : T}

omit [DecidableEq S] in
theorem lookup_eq_some_of_resolvesTo [DecidableEq S]
    (resolves : ResolvesTo x t table.current)
    : table.lookup x = some t := by
  have notOverloaded : table.isOverloadedFunction t = false := resolves.2
  rw [lookup, resolves.1]
  simp only [notOverloaded, if_false, Bool.false_eq_true]

omit [DecidableEq S] in
/-- A term that a lookup returns is not marked as overloaded. -/
theorem not_overloaded_of_lookup [DecidableEq S] (found : table.lookup x = some t)
    : table.isOverloadedFunction t = false := by
  rw [lookup] at found
  split at found
  · cases found
  · split at found
    · cases found
    · next notOverloaded =>
        cases found
        simpa using notOverloaded

/-- A call inside the scope keeps what a name resolves to, by cases on the call. -/
theorem resolvesTo_call {step : TableCall T}
    (resolves : ResolvesTo x t table.current) (notAgain : ¬BindsAgain api table x step)
    (notOverloads : ¬Overloads api table t step)
    (sameCopies : (table.call api step).context.copies = table.context.copies)
    (inside : ∃ depth, (innerDepth depth step).isSome)
    : ResolvesTo x t (table.call api step).current := by
  obtain ⟨depth, inside⟩ := inside
  cases step with
  | pushScope => exact resolves
  | popScope =>
      rw [call, popScope] at sameCopies ⊢
      cases copies : table.context.copies with
      | nil => simpa [copies] using resolves
      | cons content rest => simp [copies] at sameCopies
  | bind name obj doOverload =>
      refine ⟨(exprMap_bind x doOverload notAgain).trans resolves.1, ?_⟩
      by_contra overloaded
      have nowOverloaded : (table.bind api name obj doOverload).2.isOverloadedFunction t = true :=
        (Bool.not_eq_false _).mp overloaded
      rcases (isOverloadedFunction_bind t doOverload).mp nowOverloaded with before | byCall
      · have notBefore : table.isOverloadedFunction t = false := resolves.2
        simp [notBefore] at before
      · exact notOverloads byCall
  | bindDummySortTerm name t' =>
      refine ⟨?_, resolves.2⟩
      have different : x ≠ name := fun same => notAgain same.symm
      simp only [call, bindDummySortTerm, bind, insertExpr, current, setCurrent, if_false,
        Bool.false_eq_true, lookup_insertEntry, if_neg different]
      exact resolves.1
  | resetAssertions => simp [innerDepth] at inside
  | reset => simp [innerDepth] at inside

variable {steps : List (TableCall T)}

/-- While no call overloads the term, the local name resolves to it. -/
theorem Above.alwaysResolves {final : Nat}
    (above : Above base (ResolvesTo x t) depth table)
    (inside : StaysInside depth steps final) (notAgain : NeverBindsAgain api x table steps)
    (notOverloads : NeverOverloads api t table steps)
    : AlwaysResolves api x t table steps := by
  have here : table.lookup x = some t := by
    obtain ⟨inner, -, -, allGood⟩ := above
    exact lookup_eq_some_of_resolvesTo (allGood _ (List.mem_cons_self ..))
  induction steps generalizing table depth with
  | nil => exact here
  | cons step rest ih =>
      obtain ⟨next, isNext, insideRest⟩ := inside
      have after : Above base (ResolvesTo x t) next (table.call api step) := by
        refine above.call isNext (fun sameCopies => ?_)
        obtain ⟨inner, -, -, allGood⟩ := above
        exact resolvesTo_call (allGood _ (List.mem_cons_self ..)) notAgain.1 notOverloads.1
          sameCopies ⟨depth, by simp [isNext]⟩
      refine ⟨here, ih after insideRest notAgain.2 notOverloads.2 ?_⟩
      obtain ⟨inner, -, -, allGood⟩ := after
      exact lookup_eq_some_of_resolvesTo (allGood _ (List.mem_cons_self ..))

theorem AlwaysResolves.here
    (resolves : AlwaysResolves api x t table steps)
    : table.lookup x = some t := by
  cases steps with
  | nil => exact resolves
  | cons step rest => exact resolves.1

theorem AlwaysResolves.neverOverloads
    (resolves : AlwaysResolves api x t table steps)
    : NeverOverloads api t table steps := by
  induction steps generalizing table with
  | nil => trivial
  | cons step rest ih =>
      refine ⟨fun byCall => ?_, ih resolves.2⟩
      have notAfter := not_overloaded_of_lookup resolves.2.here
      cases step with
      | bind name obj doOverload =>
          have after : (table.bind api name obj doOverload).2.isOverloadedFunction t = true :=
            (isOverloadedFunction_bind t doOverload).mpr (Or.inr byCall)
          rw [call, after] at notAfter
          cases notAfter
      | pushScope | popScope | bindDummySortTerm | resetAssertions | reset => exact byCall

/-- Calls that stay inside a scope keep what is below it. -/
theorem Above.calls (api : Api T S) {final : Nat}
    (above : Above base (fun _ => True) depth table) (inside : StaysInside depth steps final)
    : Above base (fun _ => True) final (calls api table steps) := by
  induction steps generalizing table depth with
  | nil =>
      cases inside
      exact above
  | cons step rest ih =>
      obtain ⟨next, isNext, insideRest⟩ := inside
      exact ih (above.call isNext (fun _ => trivial)) insideRest

/-- Closing the scope brings back the content from before it was opened. -/
theorem popScope_calls_openLocal (api : Api T S) (table : SymbolTable T S) (x : String) (t : T)
    (inside : StaysInside 0 steps 0)
    : ∃ after, (calls api (openLocal api table x t) steps).popScope = some after
      ∧ after.current = table.current := by
  have opened : Above (table.current :: table.context.copies) (fun _ => True) 0
      (openLocal api table x t) := ⟨[], rfl, rfl, fun _ _ => trivial⟩
  obtain ⟨inner, copies, noInner, -⟩ := opened.calls api inside
  rw [List.length_eq_zero_iff.mp noInner, List.nil_append] at copies
  rw [popScope, copies]
  exact ⟨_, rfl, rfl⟩

/-- A local name stands for its term exactly while the term is not overloaded, and popping the scope gives the answers
from before. By what each call keeps of the scopes above the one that was opened.
-/
theorem local_name_resolves_iff (api : Api T S) (table : SymbolTable T S) (x : String) (t : T)
    : (∀ (steps : List (TableCall T)) (final : Nat), StaysInside 0 steps final →
        NeverBindsAgain api x (openLocal api table x t) steps →
        (AlwaysResolves api x t (openLocal api table x t) steps
          ↔ table.isOverloadedFunction t = false
            ∧ NeverOverloads api t (openLocal api table x t) steps))
      ∧ ∀ steps : List (TableCall T), StaysInside 0 steps 0 →
        ∃ after, (calls api (openLocal api table x t) steps).popScope = some after
          ∧ ∀ name, after.lookup name = table.lookup name := by
  refine ⟨fun steps final inside notAgain => ⟨fun resolves => ?_, fun ⟨notOverloaded, never⟩ => ?_⟩,
    fun steps inside => ?_⟩
  · have notOverloaded : (openLocal api table x t).isOverloadedFunction t = false :=
      not_overloaded_of_lookup resolves.here
    exact ⟨notOverloaded, resolves.neverOverloads⟩
  · have opened : Above (table.current :: table.context.copies) (ResolvesTo x t) 0
        (openLocal api table x t) := by
      refine ⟨[], rfl, rfl, fun content member => ?_⟩
      cases List.mem_singleton.mp member
      exact ⟨by simp [openLocal, bind, insertExpr, current, setCurrent, lookup_insertEntry],
        notOverloaded⟩
    exact opened.alwaysResolves inside notAgain never
  · obtain ⟨after, popped, sameContent⟩ := popScope_calls_openLocal api table x t inside
    refine ⟨after, popped, fun name => ?_⟩
    simp only [lookup, isOverloadedFunction, sameContent]
    rfl

/-- A local name for a number that is overloaded in an inner scope only. -/
theorem local_name_resolves_among_constants
    : StaysInside 0 [.pushScope, .bind "c" 0 true, .bind "c" 1 true, .popScope] 0
      ∧ AlwaysResolves Session.parityApi "x" 3 (openLocal Session.parityApi create "x" 3)
        [.pushScope, .bind "c" 0 true, .bind "c" 1 true, .popScope]
      ∧ ∃ after, (calls Session.parityApi (openLocal Session.parityApi create "x" 3)
          [.pushScope, .bind "c" 0 true, .bind "c" 1 true, .popScope]).popScope = some after
        ∧ ∀ name, after.lookup name = (create : SymbolTable Nat Nat).lookup name := by
  have inside : StaysInside (T := Nat) 0
      [.pushScope, .bind "c" 0 true, .bind "c" 1 true, .popScope] 0 :=
    ⟨1, rfl, 1, rfl, 1, rfl, 0, rfl, rfl⟩
  have result := local_name_resolves_iff Session.parityApi create "x" 3
  refine ⟨inside, (result.1 _ 0 inside ?_).mpr ⟨by decide, ?_⟩, result.2 _ inside⟩
  · exact ⟨nofun, by simp [BindsAgain], by simp [BindsAgain], nofun, trivial⟩
  · refine ⟨nofun, ?_, ?_, nofun, trivial⟩
    · rintro ⟨prev, bound, -⟩
      cases bound
    · rintro ⟨prev, bound, -, -, ⟨isThree, -⟩ | ⟨isThree, -⟩⟩
      · subst isThree
        exact absurd bound (by decide)
      · cases isThree

/-- A local name is not found if the symbol it stands for shares its own name with another one. -/
theorem local_name_of_overloaded_constant
    : ∃ table : SymbolTable Nat Nat, Reachable Session.parityApi table
      ∧ (openLocal Session.parityApi table "x" 0).lookup "x" = none := by
  refine ⟨calls Session.parityApi create [.bind "c" 0 true, .bind "c" 1 true], ⟨_, rfl⟩, by decide⟩

end SymbolTable

end Ava6.Parser

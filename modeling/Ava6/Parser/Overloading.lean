import Ava6.Parser.SymbolTable

/-! The trie of the symbol table: what marking a symbol as overloaded does to it, and when a symbol is
in the way of another.
-/

namespace Ava6.Parser

open Library.Snapshot

variable {T S : Type} [DecidableEq S]

section Entries

variable {K V : Type} [DecidableEq K] {entries : List (K × V)} {key other : K} {value : V}

theorem lookup_filter_other (different : other ≠ key)
    : (entries.filter (·.1 ≠ key)).lookup other = entries.lookup other := by
  induction entries with
  | nil => rfl
  | cons entry rest ih =>
    obtain ⟨first, found⟩ := entry
    by_cases removed : first = key
    · subst removed
      simp only [List.filter_cons, ne_eq, not_true_eq_false, decide_false, Bool.false_eq_true,
        if_false, ih, List.lookup_cons, beq_eq_false_iff_ne.mpr different]
    · simp only [List.filter_cons, ne_eq, removed, not_false_eq_true, decide_true, if_true,
        List.lookup_cons, ih]

theorem lookup_insertEntry
    : (insertEntry key value entries).lookup other
      = if other = key then some value else entries.lookup other := by
  by_cases same : other = key
  · simp [insertEntry, same]
  · rw [insertEntry, List.lookup_cons, beq_eq_false_iff_ne.mpr same, if_neg same]
    exact lookup_filter_other same

theorem mem_insertEntry {entry : K × V}
    : entry ∈ insertEntry key value entries
      ↔ entry = (key, value) ∨ (entry ∈ entries ∧ entry.1 ≠ key) := by
  simp [insertEntry]

theorem keys_insertEntry (unique : (entries.map Prod.fst).Nodup)
    : ((insertEntry key value entries).map Prod.fst).Nodup := by
  rw [insertEntry, List.map_cons, List.nodup_cons]
  refine ⟨by simp, ?_⟩
  exact unique.sublist ((List.filter_sublist).map Prod.fst)

/-- With unique keys the value of a key is its entry. -/
theorem lookup_eq_some_iff_mem (unique : (entries.map Prod.fst).Nodup)
    : entries.lookup key = some value ↔ (key, value) ∈ entries := by
  induction entries with
  | nil => simp
  | cons entry rest ih =>
    obtain ⟨first, found⟩ := entry
    simp only [List.map_cons, List.nodup_cons] at unique
    by_cases same : key = first
    · subst same
      have absent : (key, value) ∉ rest := fun member => unique.1 (List.mem_map.mpr ⟨_, member, rfl⟩)
      simp [absent, eq_comm]
    · simp [List.lookup_cons, beq_eq_false_iff_ne.mpr same, ih unique.2, same]

end Entries

namespace TypeArgTrie

variable {change : List (S × T) → List (S × T)}

theorem symbolsAt_empty (path : List S) : (empty : TypeArgTrie S T).symbolsAt path = [] := by
  cases path <;> rfl

theorem symbolsAt_cons (sort : S) (rest : List S) (children : List (S × TypeArgTrie S T))
    (symbols : List (S × T))
    : (node children symbols).symbolsAt (sort :: rest)
      = ((children.lookup sort).getD empty).symbolsAt rest := by
  simp only [symbolsAt, find, TypeArgTrie.children]
  cases children.lookup sort with
  | some child => rfl
  | none => exact (symbolsAt_empty rest).symm

/-- An update is seen at its own path only, by induction on the path. -/
theorem symbolsAt_update (path other : List S) (tat : TypeArgTrie S T)
    : (tat.update change path).symbolsAt other
      = if other = path then change (tat.symbolsAt path) else tat.symbolsAt other := by
  induction path generalizing other tat with
  | nil =>
    obtain ⟨children, symbols⟩ := tat
    cases other with
    | nil => rfl
    | cons sort rest => simp only [update, symbolsAt_cons, reduceCtorEq, if_false]
  | cons sort rest ih =>
    obtain ⟨children, symbols⟩ := tat
    cases other with
    | nil => rfl
    | cons sort' rest' =>
      simp only [update, symbolsAt_cons, lookup_insertEntry, List.cons.injEq]
      by_cases same : sort' = sort
      · subst same
        simp only [if_true, Option.getD_some, true_and, ih]
      · simp only [same, if_false, false_and]

end TypeArgTrie

namespace SymbolTable

variable [DecidableEq T] {api : Api T S} {table : SymbolTable T S}

/-- The symbols under a name after argument sorts. -/
def symbolsOf (table : SymbolTable T S) (name : String) (path : List S) : List (S × T) :=
  ((table.overloadTypeArgTrie.lookup name).getD .empty).symbolsAt path

omit [DecidableEq T] in
theorem symbolsOf_changeTrie (name name' : String) (obj : T) (path : List S)
    (change : List (S × T) → List (S × T))
    : (table.changeTrie api name obj change).symbolsOf name' path
      = if name' = name ∧ path = api.argTypes obj then change (table.symbolsOf name path)
        else table.symbolsOf name' path := by
  simp only [symbolsOf, changeTrie, lookup_insertEntry]
  by_cases same : name' = name
  · subst same
    simp only [if_true, Option.getD_some, TypeArgTrie.symbolsAt_update, true_and]
    by_cases here : path = api.argTypes obj
    · simp only [here, if_true]
    · simp only [here, if_false]
  · simp only [same, if_false, false_and]

omit [DecidableEq S] in
/-- The loop counts the active symbols: none, one, or too many. -/
theorem overloadedFunctionLoop_unique (found : Option T) (symbols : List (S × T))
    : table.overloadedFunctionLoop true found symbols
      = match found, symbols.filter (table.isOverloadedFunction ·.2) with
        | none, [] => none
        | none, [entry] => some entry.2
        | some expr, [] => some expr
        | _, _ => none := by
  induction symbols generalizing found with
  | nil => cases found <;> rfl
  | cons entry rest ih =>
    obtain ⟨range, expr⟩ := entry
    cases active : table.isOverloadedFunction expr with
    | false => simp [overloadedFunctionLoop, active, ih]
    | true =>
      cases found with
      | some first => simp [overloadedFunctionLoop, active]
      | none =>
        simp only [overloadedFunctionLoop, active, if_true, ih, List.filter_cons]
        cases rest.filter (table.isOverloadedFunction ·.2) <;> rfl

omit [DecidableEq S] in
theorem overloadedFunctionLoop_any (symbols : List (S × T))
    : (table.overloadedFunctionLoop false none symbols).isSome = true
      ↔ ∃ entry ∈ symbols, table.isOverloadedFunction entry.2 = true := by
  induction symbols with
  | nil => simp [overloadedFunctionLoop]
  | cons entry rest ih =>
    obtain ⟨range, expr⟩ := entry
    cases active : table.isOverloadedFunction expr with
    | false => simp [overloadedFunctionLoop, active, ih]
    | true => simp [overloadedFunctionLoop, active]

theorem getOverloadedFunctionForTypes_eq (name : String) (path : List S)
    : table.getOverloadedFunctionForTypes name path
      = table.getOverloadedFunctionAt (table.symbolsOf name path) true := by
  unfold getOverloadedFunctionForTypes symbolsOf TypeArgTrie.symbolsAt
  cases table.overloadTypeArgTrie.lookup name with
  | none =>
    cases path <;> rfl
  | some tat =>
    simp only [Option.getD_some]
    cases tat.find path <;> rfl

theorem getOverloadedConstantForType_eq (name : String) (t : S)
    : table.getOverloadedConstantForType name t
      = ((table.symbolsOf name []).lookup t).filter table.isOverloadedFunction := by
  unfold getOverloadedConstantForType symbolsOf
  cases table.overloadTypeArgTrie.lookup name with
  | none => rfl
  | some tat =>
    have root : tat.symbolsAt [] = tat.symbols := rfl
    simp only [Option.getD_some, root]
    cases tat.symbols.lookup t <;> rfl

/-- Two symbols that one name cannot have: they expect the same arguments, and where they expect
none they have the same range. -/
def Conflict (api : Api T S) (x y : T) : Prop :=
  api.argTypes x = api.argTypes y ∧ (api.argTypes x = [] → api.rangeType x = api.rangeType y)

omit [DecidableEq T] [DecidableEq S] in
theorem Conflict.symm {x y : T} (conflict : Conflict api x y) : Conflict api y x :=
  ⟨conflict.1.symm, fun empty => (conflict.2 (conflict.1.trans empty)).symm⟩

/-- Every symbol stands under the name it was used for and at its own sorts, and the active ones are
still there. -/
structure Stores (api : Api T S) (table : SymbolTable T S) (used : List (String × T)) : Prop where
  noVariants : table.allowFunctionVariants = false
  unique (name : String) (path : List S) : ((table.symbolsOf name path).map Prod.fst).Nodup
  origin {name : String} {path : List S} {range : S} {x : T}
    : (range, x) ∈ table.symbolsOf name path
      → api.argTypes x = path ∧ api.rangeType x = range ∧ (name, x) ∈ used
  stored {name : String} {x : T} : (name, x) ∈ used → table.isOverloadedFunction x = true
    → (api.rangeType x, x) ∈ table.symbolsOf name (api.argTypes x)

variable {used : List (String × T)}

/-- A symbol is rejected exactly when an active one of its name conflicts with it. -/
theorem Stores.existingOverload_iff (stores : Stores api table used) (name : String) (obj : T)
    : table.existingOverload api name obj = true
      ↔ ∃ x, (name, x) ∈ used ∧ table.isOverloadedFunction x = true ∧ Conflict api x obj := by
  have here : table.symbolsFor api name obj = table.symbolsOf name (api.argTypes obj) := rfl
  unfold existingOverload
  rw [stores.noVariants, Bool.false_or, here]
  cases args : api.argTypes obj with
  | nil =>
    simp only [List.isEmpty_nil, if_true]
    constructor
    · intro active
      split at active
      · next prev found =>
        have member := (lookup_eq_some_iff_mem (stores.unique name [])).mp found
        obtain ⟨sameArgs, sameRange, isUsed⟩ := stores.origin member
        exact ⟨prev, isUsed, active, by rw [sameArgs, args], fun _ => sameRange⟩
      · contradiction
    · intro ⟨x, isUsed, active, sameArgs, sameRange⟩
      rw [args] at sameArgs
      have member := stores.stored isUsed active
      rw [sameArgs, sameRange sameArgs] at member
      rw [(lookup_eq_some_iff_mem (stores.unique name [])).mpr member]
      exact active
  | cons first rest =>
    simp only [List.isEmpty_cons, Bool.false_eq_true, if_false]
    rw [getOverloadedFunctionAt, overloadedFunctionLoop_any]
    constructor
    · intro ⟨⟨range, x⟩, member, active⟩
      obtain ⟨sameArgs, _, isUsed⟩ := stores.origin member
      exact ⟨x, isUsed, active, by rw [sameArgs, args], fun empty => by simp [sameArgs] at empty⟩
    · intro ⟨x, isUsed, active, sameArgs, _⟩
      have member := stores.stored isUsed active
      rw [sameArgs, args] at member
      exact ⟨_, member, active⟩

/-- Fewer active symbols ask for less. -/
theorem Stores.restrict {table' : SymbolTable T S} (stores : Stores api table used)
    (sameSymbols : ∀ name path, table'.symbolsOf name path = table.symbolsOf name path)
    (sameVariants : table'.allowFunctionVariants = table.allowFunctionVariants)
    (fewer : ∀ x, table'.isOverloadedFunction x = true → table.isOverloadedFunction x = true)
    : Stores api table' used := by
  refine ⟨sameVariants.trans stores.noVariants, ?_, ?_, ?_⟩
  · intro name path
    rw [sameSymbols]
    exact stores.unique name path
  · intro name path range x member
    rw [sameSymbols] at member
    exact stores.origin member
  · intro name x isUsed active
    rw [sameSymbols]
    exact stores.stored isUsed (fewer x active)

/-- Another symbol may be used as long as it is not active. -/
theorem Stores.use {name : String} {obj : T} (stores : Stores api table used)
    (inactive : table.isOverloadedFunction obj = false) : Stores api table ((name, obj) :: used) := by
  refine ⟨stores.noVariants, stores.unique, fun member => ?_, fun isUsed active => ?_⟩
  · obtain ⟨sameArgs, sameRange, isUsed⟩ := stores.origin member
    exact ⟨sameArgs, sameRange, List.mem_cons_of_mem _ isUsed⟩
  · rcases List.mem_cons.mp isUsed with same | older
    · cases same
      rw [inactive] at active
      contradiction
    · exact stores.stored older active

/-- A symbol that nothing conflicts with takes its place: what it replaces is not active. -/
theorem Stores.insert {table' : SymbolTable T S} {name : String} {obj : T}
    (stores : Stores api table used) (isUsed : (name, obj) ∈ used)
    (once : ∀ name', (name', obj) ∈ used → name' = name)
    (free : table.existingOverload api name obj = false)
    (newSymbols : ∀ name' path, table'.symbolsOf name' path
      = if name' = name ∧ path = api.argTypes obj then
          insertEntry (api.rangeType obj) obj (table.symbolsOf name path)
        else table.symbolsOf name' path)
    (sameVariants : table'.allowFunctionVariants = table.allowFunctionVariants)
    (active_iff : ∀ x, table'.isOverloadedFunction x = true
      ↔ x = obj ∨ table.isOverloadedFunction x = true)
    : Stores api table' used := by
  refine ⟨sameVariants.trans stores.noVariants, ?_, ?_, ?_⟩
  · intro name' path
    rw [newSymbols]
    split
    · exact keys_insertEntry (stores.unique name path)
    · exact stores.unique name' path
  · intro name' path range x member
    rw [newSymbols] at member
    split at member
    · next here =>
      rcases mem_insertEntry.mp member with same | ⟨older, _⟩
      · cases same
        exact ⟨here.2.symm, rfl, here.1 ▸ isUsed⟩
      · exact here.1 ▸ stores.origin older
    · exact stores.origin member
  · intro name' x isUsed' active
    rw [newSymbols]
    by_cases isObj : x = obj
    · subst isObj
      rw [if_pos ⟨once name' isUsed', rfl⟩]
      exact mem_insertEntry.mpr (.inl rfl)
    · have wasActive := ((active_iff x).mp active).resolve_left isObj
      have member := stores.stored isUsed' wasActive
      split
      · next here =>
        refine mem_insertEntry.mpr (.inr ⟨here.1 ▸ member, fun sameRange => ?_⟩)
        have conflict : Conflict api x obj := ⟨here.2, fun _ => sameRange⟩
        have taken := (stores.existingOverload_iff name obj).mpr
          ⟨x, here.1 ▸ isUsed', wasActive, conflict⟩
        rw [free] at taken
        contradiction
      · exact member

/-- Marking a symbol that nothing conflicts with makes it active. -/
theorem Stores.mark {name : String} {obj : T} (stores : Stores api table used)
    (isUsed : (name, obj) ∈ used) (once : ∀ name', (name', obj) ∈ used → name' = name)
    (free : table.existingOverload api name obj = false)
    : ∃ table', table.markOverloaded api name obj = (true, table') ∧ Stores api table' used
      ∧ table'.context = ⟨⟨table.current.exprMap, table.current.dummySortTerms,
          obj :: table.current.overloadedSymbols⟩, table.context.copies⟩ := by
  refine ⟨_, if_neg (by simp [free]), stores.insert isUsed once free (fun name' path => ?_) rfl fun x => ?_, rfl⟩
  · exact symbolsOf_changeTrie name name' obj path _
  · simp [isOverloadedFunction, setCurrent, current, changeTrie]

/-- A rejected symbol changes no symbols of the trie. -/
theorem Stores.reject {name : String} {obj : T} (stores : Stores api table used)
    (taken : table.existingOverload api name obj = true)
    : ∃ table', table.markOverloaded api name obj = (false, table') ∧ Stores api table' used
      ∧ table'.context = table.context := by
  refine ⟨_, if_pos taken, stores.restrict (fun name' path => ?_) rfl fun x active => active, rfl⟩
  rw [symbolsOf_changeTrie]
  split
  · next here => rw [id, here.1]
  · rfl

end SymbolTable

end Ava6.Parser

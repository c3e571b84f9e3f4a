import Mathlib.Data.List.Nodup
import Mathlib.Data.List.Pairwise
import Ava6.Parser.Overloading

/-! Runs of the symbol table over scopes. The open scopes decide what a name stands for, as long as
no second symbol of a name is rejected.
-/

namespace Ava6.Parser

open Library.Snapshot SymbolTable

variable {T S : Type}

-- Runs

inductive TableOp (T : Type)
  | pushScope
  | popScope
  | bind (name : String) (obj : T)

def TableOp.terms : List (TableOp T) → List T
  | [] => []
  | .bind _ obj :: ops => obj :: terms ops
  | _ :: ops => terms ops

/-- The table, and the symbols bound in each open scope, innermost and latest first. -/
structure Session (T S : Type) where
  table : SymbolTable T S
  scopes : List (List (String × T))

namespace Session

def start : Session T S := ⟨SymbolTable.create, [[]]⟩

/-- The symbols bound to a name, latest first. -/
def symbolsOf (bound : List (String × T)) (name : String) : List T :=
  (bound.filter (·.1 = name)).map Prod.snd

/-- The symbols bound to a name in the open scopes. -/
def symbols (s : Session T S) (name : String) : List T := symbolsOf s.scopes.flatten name

def addToScope (entry : String × T) : List (List (String × T)) → List (List (String × T))
  | [] => []
  | scope :: rest => (entry :: scope) :: rest

section Execution

variable [DecidableEq T] [DecidableEq S]

/-- Whether a call succeeds, and what follows. A pop that throws changes nothing. -/
def exec (api : Api T S) (s : Session T S) : TableOp T → Bool × Session T S
  | .pushScope => (true, ⟨s.table.pushScope, [] :: s.scopes⟩)
  | .popScope =>
      match s.table.popScope with
      | none => (true, s)
      | some table => (true, ⟨table, s.scopes.tail⟩)
  | .bind name obj =>
      match s.table.bind api name obj true with
      | (true, table) => (true, ⟨table, addToScope (name, obj) s.scopes⟩)
      | (false, table) => (false, ⟨table, s.scopes⟩)

def run (api : Api T S) : Session T S → List (TableOp T) → Session T S
  | s, [] => s
  | s, op :: ops => run api (s.exec api op).2 ops

/-- After a bind that fails there is none. -/
def SucceedButLast (api : Api T S) : Session T S → List (TableOp T) → Prop
  | _, [] => True
  | s, op :: ops =>
      ((s.exec api op).1 = false → TableOp.terms ops = []) ∧ SucceedButLast api (s.exec api op).2 ops

/-- Each bind succeeds exactly when it conflicts with no symbol of its name. -/
def BindsRight (api : Api T S) : Session T S → List (TableOp T) → Prop
  | _, [] => True
  | s, op :: ops =>
      (∀ name obj, op = .bind name obj
        → ((s.exec api op).1 = true ↔ ∀ x ∈ s.symbols name, x ≠ obj → ¬ Conflict api x obj))
      ∧ BindsRight api (s.exec api op).2 ops

/-- No bind conflicts with the only symbol of its name. -/
def SecondsDiffer (api : Api T S) : Session T S → List (TableOp T) → Prop
  | _, [] => True
  | s, op :: ops =>
      (∀ name obj x, op = .bind name obj → s.symbols name = [x] → ¬ Conflict api x obj)
      ∧ SecondsDiffer api (s.exec api op).2 ops

/-- An answer that is the one term with a property, and null if there is none. -/
def IsThe (answer : Option T) (property : T → Prop) : Prop := ∀ x, answer = some x ↔ property x

/-- What the table says about the symbols in the open scopes. -/
structure Answers (api : Api T S) (s : Session T S) : Prop where
  lookup (name : String)
    : s.table.lookup name = match s.symbols name with
      | [x] => some x
      | _ => none
  function (name : String) (argTypes : List S) : 2 ≤ (s.symbols name).length → argTypes ≠ []
    → IsThe (s.table.getOverloadedFunctionForTypes name argTypes)
        fun x => x ∈ s.symbols name ∧ api.argTypes x = argTypes
  constant (name : String) (t : S) : 2 ≤ (s.symbols name).length
    → IsThe (s.table.getOverloadedConstantForType name t)
        fun x => x ∈ s.symbols name ∧ api.argTypes x = [] ∧ api.rangeType x = t

end Execution

-- Levels

theorem symbolsOf_cons (name other : String) (obj : T) (bound : List (String × T))
    : symbolsOf ((name, obj) :: bound) other
      = if name = other then obj :: symbolsOf bound other else symbolsOf bound other := by
  by_cases same : name = other <;> simp [symbolsOf, same]

theorem mem_symbolsOf {bound : List (String × T)} {name : String} {x : T}
    : x ∈ symbolsOf bound name ↔ (name, x) ∈ bound := by
  simp [symbolsOf]

theorem symbolsOf_append (front bound : List (String × T)) (name : String)
    : symbolsOf (front ++ bound) name = symbolsOf front name ++ symbolsOf bound name := by
  simp [symbolsOf]

theorem lookup_eq_head (bound : List (String × T)) (name : String)
    : bound.lookup name = (symbolsOf bound name).head? := by
  induction bound with
  | nil => rfl
  | cons entry rest ih =>
    obtain ⟨other, obj⟩ := entry
    rw [symbolsOf_cons, List.lookup_cons]
    by_cases same : other = name
    · simp [same]
    · simp [same, beq_eq_false_iff_ne.mpr (Ne.symm same), ih]

/-- The content of a scope stands for the symbols bound up to it. -/
structure Matches (api : Api T S) (content : Scoped T) (bound : List (String × T)) : Prop where
  exprs (name : String) : content.exprMap.lookup name = bound.lookup name
  noDummies : content.dummySortTerms = []
  overloaded (x : T) : x ∈ content.overloadedSymbols
    ↔ ∃ name, x ∈ symbolsOf bound name ∧ 2 ≤ (symbolsOf bound name).length
  apart (name : String) : (symbolsOf bound name).Pairwise fun x y => ¬ Conflict api x y
  distinct : (bound.map Prod.snd).Nodup

/-- The content of every open scope matches. -/
inductive Layers (api : Api T S) : Copies (Scoped T) → List (List (String × T)) → Prop
  | bottom {content : Scoped T} {scope : List (String × T)} : Matches api content scope
    → Layers api ⟨content, []⟩ [scope]
  | above {content below : Scoped T} {copies : List (Scoped T)} {scope : List (String × T)}
    {rest : List (List (String × T))} : Matches api content (scope ++ rest.flatten)
    → Layers api ⟨below, copies⟩ rest → Layers api ⟨content, below :: copies⟩ (scope :: rest)

section Levels

variable {api : Api T S} {content content' : Scoped T} {context : Copies (Scoped T)}
  {bound : List (String × T)} {scopes : List (List (String × T))} {name : String} {obj x : T}

theorem Layers.top (layers : Layers api context scopes) : Matches api context.current scopes.flatten := by
  cases layers with
  | bottom top => simpa using top
  | above top _ => exact top

theorem Layers.push (layers : Layers api context scopes)
    : Layers api ⟨context.current, context.current :: context.copies⟩ ([] :: scopes) :=
  .above layers.top layers

/-- The innermost scope may get another symbol and another content. -/
theorem Layers.add {entry : String × T} (layers : Layers api context scopes)
    (top : Matches api content (entry :: scopes.flatten))
    : Layers api ⟨content, context.copies⟩ (addToScope entry scopes) := by
  cases layers with
  | bottom _ => exact .bottom (by simpa using top)
  | above _ below => exact .above top below

/-- A symbol without conflicts joins its name. From the second one on all of them are overloaded. -/
theorem Matches.add (matching : Matches api content bound) (fresh : obj ∉ bound.map Prod.snd)
    (free : ∀ x ∈ symbolsOf bound name, ¬ Conflict api x obj)
    (exprs : content'.exprMap = insertEntry name obj content.exprMap)
    (noDummies : content'.dummySortTerms = content.dummySortTerms)
    (overloaded : ∀ x, x ∈ content'.overloadedSymbols ↔ x ∈ content.overloadedSymbols
      ∨ (symbolsOf bound name ≠ [] ∧ (x = obj ∨ x ∈ symbolsOf bound name)))
    : Matches api content' ((name, obj) :: bound) := by
  refine ⟨fun other => ?_, noDummies.trans matching.noDummies, fun x => ?_, fun other => ?_, ?_⟩
  · rw [exprs, lookup_insertEntry, List.lookup_cons]
    by_cases same : other = name
    · simp [same]
    · simp [same, beq_eq_false_iff_ne.mpr same, matching.exprs]
  · rw [overloaded, matching.overloaded]
    constructor
    · rintro (⟨other, member, two⟩ | ⟨nonempty, isMember⟩)
      · refine ⟨other, ?_⟩
        rw [symbolsOf_cons]
        split
        · exact ⟨List.mem_cons_of_mem _ member, by rw [List.length_cons]; omega⟩
        · exact ⟨member, two⟩
      · refine ⟨name, ?_⟩
        rw [symbolsOf_cons, if_pos rfl]
        have positive := List.length_pos_iff.mpr nonempty
        exact ⟨List.mem_cons.mpr isMember, by rw [List.length_cons]; omega⟩
    · rintro ⟨other, member, two⟩
      rw [symbolsOf_cons] at member two
      split at member
      · next same =>
        subst same
        rw [if_pos rfl, List.length_cons] at two
        exact .inr ⟨List.length_pos_iff.mp (by omega), List.mem_cons.mp member⟩
      · next different =>
        rw [if_neg different] at two
        exact .inl ⟨other, member, two⟩
  · rw [symbolsOf_cons]
    split
    · next same =>
      subst same
      exact List.pairwise_cons.mpr
        ⟨fun y member conflict => free y member conflict.symm, matching.apart name⟩
    · exact matching.apart other
  · exact List.nodup_cons.mpr ⟨fresh, matching.distinct⟩

theorem name_eq {used : List (String × T)} {other : String} (distinct : (used.map Prod.snd).Nodup)
    (first : (name, x) ∈ used) (second : (other, x) ∈ used)
    : name = other := by
  have same := List.inj_on_of_nodup_map distinct first second rfl
  exact congrArg Prod.fst same

theorem mem_addToScope {entry added : String × T} (member : entry ∈ (addToScope added scopes).flatten)
    : entry = added ∨ entry ∈ scopes.flatten := by
  cases scopes with
  | nil => contradiction
  | cons scope rest => simpa [addToScope, or_assoc] using member

end Levels

-- Steps

variable [DecidableEq T] [DecidableEq S]

/-- The table agrees with the scopes; all terms used so far are different. -/
structure Inv (api : Api T S) (s : Session T S) (used : List (String × T)) : Prop where
  stores : Stores api s.table used
  layers : Layers api s.table.context s.scopes
  within : ∀ entry ∈ s.scopes.flatten, entry ∈ used
  distinct : (used.map Prod.snd).Nodup

namespace Inv

variable {api : Api T S} {s : Session T S} {used : List (String × T)} {name : String} {obj x : T}

theorem used_of_mem (inv : Inv api s used) (member : x ∈ s.symbols name) : (name, x) ∈ used :=
  inv.within _ (mem_symbolsOf.mp member)

/-- A symbol of a name is active exactly when the name has another one. -/
theorem active_iff (inv : Inv api s used) (isUsed : (name, x) ∈ used)
    : s.table.isOverloadedFunction x = true
      ↔ x ∈ s.symbols name ∧ 2 ≤ (s.symbols name).length := by
  rw [isOverloadedFunction, List.contains_iff_mem, SymbolTable.current,
    inv.layers.top.overloaded]
  constructor
  · rintro ⟨other, member, two⟩
    rw [name_eq inv.distinct isUsed (inv.used_of_mem member)]
    exact ⟨member, two⟩
  · rintro ⟨member, two⟩
    exact ⟨name, member, two⟩

theorem inactive_of_fresh (inv : Inv api s used) (fresh : obj ∉ used.map Prod.snd)
    : s.table.isOverloadedFunction obj = false := by
  rw [Bool.eq_false_iff, isOverloadedFunction, Ne, List.contains_iff_mem, SymbolTable.current,
    inv.layers.top.overloaded]
  rintro ⟨other, member, -⟩
  exact fresh (List.mem_map.mpr ⟨_, inv.used_of_mem member, rfl⟩)

/-- The symbol that is bound so far is the latest one. -/
theorem bindWithOverloading_eq (inv : Inv api s used) (fresh : obj ∉ used.map Prod.snd)
    : s.table.bindWithOverloading api name obj = match s.symbols name with
      | [] => (true, s.table)
      | prev :: _ => s.table.overloadBind api name prev obj := by
  unfold bindWithOverloading
  have found : s.table.current.exprMap.lookup name = (s.symbols name).head? :=
    (inv.layers.top.exprs name).trans (lookup_eq_head _ _)
  have noDummies : s.table.current.dummySortTerms = [] := inv.layers.top.noDummies
  rw [found]
  cases isSymbols : s.symbols name with
  | nil => rfl
  | cons prev rest =>
    have isUsed : (name, prev) ∈ used := inv.used_of_mem (by rw [isSymbols]; exact List.mem_cons_self)
    have different : prev ≠ obj := by
      rintro rfl
      exact fresh (List.mem_map.mpr ⟨_, isUsed, rfl⟩)
    simp [different, noDummies]

/-- What a successful bind leaves, from what it does to the symbols and the trie. -/
theorem add {table' : SymbolTable T S} (inv : Inv api s used) (fresh : obj ∉ used.map Prod.snd)
    (free : ∀ x ∈ s.symbols name, ¬ Conflict api x obj)
    (stores : Stores api table' ((name, obj) :: used))
    (copies : table'.context.copies = s.table.context.copies)
    (exprs : table'.current.exprMap = s.table.current.exprMap)
    (dummies : table'.current.dummySortTerms = s.table.current.dummySortTerms)
    (overloaded : ∀ x, x ∈ table'.current.overloadedSymbols ↔ x ∈ s.table.current.overloadedSymbols
      ∨ (s.symbols name ≠ [] ∧ (x = obj ∨ x ∈ s.symbols name)))
    : Inv api ⟨table'.insertExpr name obj, addToScope (name, obj) s.scopes⟩
        ((name, obj) :: used) := by
  have outside : obj ∉ s.scopes.flatten.map Prod.snd := by
    intro member
    obtain ⟨entry, isBound, rfl⟩ := List.mem_map.mp member
    exact fresh (List.mem_map.mpr ⟨entry, inv.within entry isBound, rfl⟩)
  have top : Matches api (table'.insertExpr name obj).current ((name, obj) :: s.scopes.flatten) :=
    inv.layers.top.add outside free (congrArg (insertEntry name obj) exprs) dummies overloaded
  refine ⟨⟨stores.noVariants, stores.unique, stores.origin, stores.stored⟩, ?_, ?_, ?_⟩
  · have added := inv.layers.add top
    rw [← copies] at added
    exact added
  · intro entry member
    rcases mem_addToScope member with rfl | older
    · exact List.mem_cons_self
    · exact List.mem_cons_of_mem _ (inv.within entry older)
  · exact List.nodup_cons.mpr ⟨fresh, inv.distinct⟩

/-- After the previous symbol is marked exactly the symbols of the name are active for it. -/
theorem mark_previous {prev : T} {rest : List T} (inv : Inv api s used)
    (fresh : obj ∉ used.map Prod.snd) (isSymbols : s.symbols name = prev :: rest)
    : ∃ table', (if s.table.isOverloadedFunction prev then (true, s.table)
          else s.table.markOverloaded api name prev) = (true, table')
      ∧ Stores api table' ((name, obj) :: used)
      ∧ table'.context.copies = s.table.context.copies
      ∧ table'.current.exprMap = s.table.current.exprMap
      ∧ table'.current.dummySortTerms = s.table.current.dummySortTerms
      ∧ (∀ x, x ∈ table'.current.overloadedSymbols
        ↔ x ∈ s.table.current.overloadedSymbols ∨ x ∈ s.symbols name)
      ∧ (rest ≠ [] → table' = s.table) := by
  have prevUsed : (name, prev) ∈ used := inv.used_of_mem (by rw [isSymbols]; exact List.mem_cons_self)
  have stores : Stores api s.table ((name, obj) :: used) := inv.stores.use (inv.inactive_of_fresh fresh)
  cases rest with
  | cons second others =>
    have all (x : T) (member : x ∈ s.symbols name) : x ∈ s.table.current.overloadedSymbols :=
      List.contains_iff_mem.mp ((inv.active_iff (inv.used_of_mem member)).mpr
        ⟨member, by simp [isSymbols]⟩)
    have active : s.table.isOverloadedFunction prev = true :=
      List.contains_iff_mem.mpr (all prev (by rw [isSymbols]; exact List.mem_cons_self))
    refine ⟨s.table, if_pos active, stores, rfl, rfl, rfl, fun x => ?_, fun _ => rfl⟩
    exact ⟨.inl, fun either => either.elim id (all x)⟩
  | nil =>
    have single : ∀ x, (name, x) ∈ used → s.table.isOverloadedFunction x ≠ true := by
      intro x isUsed active
      have two := ((inv.active_iff isUsed).mp active).2
      simp [isSymbols] at two
    have distinct : (((name, obj) :: used).map Prod.snd).Nodup :=
      List.nodup_cons.mpr ⟨fresh, inv.distinct⟩
    have prevUsed' := List.mem_cons_of_mem (name, obj) prevUsed
    have free : s.table.existingOverload api name prev = false := by
      rw [Bool.eq_false_iff, Ne, inv.stores.existingOverload_iff]
      exact fun ⟨x, isUsed, active, _⟩ => single x isUsed active
    obtain ⟨table', marked, stores', context⟩ := stores.mark prevUsed'
      (fun other isUsed => name_eq distinct isUsed prevUsed') free
    refine ⟨table', ?_, stores', by rw [context], ?_, ?_, fun x => ?_, nofun⟩
    · rw [if_neg (single prev prevUsed), marked]
    · rw [SymbolTable.current, context]
    · rw [SymbolTable.current, context]
    · rw [SymbolTable.current, context, isSymbols]
      simp [or_comm]

/-- The name has a symbol in the way of the new one exactly when one of its symbols conflicts. -/
theorem existing_iff {table' : SymbolTable T S} (inv : Inv api s used)
    (fresh : obj ∉ used.map Prod.snd) (stores : Stores api table' ((name, obj) :: used))
    (overloaded : ∀ x, x ∈ table'.current.overloadedSymbols
      ↔ x ∈ s.table.current.overloadedSymbols ∨ x ∈ s.symbols name)
    : table'.existingOverload api name obj = true ↔ ∃ x ∈ s.symbols name, Conflict api x obj := by
  rw [stores.existingOverload_iff]
  simp only [isOverloadedFunction, List.contains_iff_mem, overloaded]
  constructor
  · rintro ⟨x, isUsed, active, conflict⟩
    refine ⟨x, active.elim (fun older => ?_) id, conflict⟩
    have wasActive : s.table.isOverloadedFunction x = true := List.contains_iff_mem.mpr older
    rcases List.mem_cons.mp isUsed with same | isUsed
    · cases same
      rw [inv.inactive_of_fresh fresh] at wasActive
      contradiction
    · exact ((inv.active_iff isUsed).mp wasActive).1
  · rintro ⟨x, member, conflict⟩
    exact ⟨x, List.mem_cons_of_mem _ (inv.used_of_mem member), .inr member, conflict⟩

/-- A symbol that conflicts with none of its name is bound. -/
theorem bind_free (inv : Inv api s used) (fresh : obj ∉ used.map Prod.snd)
    (free : ∀ x ∈ s.symbols name, ¬ Conflict api x obj)
    : ∃ table', s.table.bind api name obj true = (true, table')
      ∧ Inv api ⟨table', addToScope (name, obj) s.scopes⟩ ((name, obj) :: used) := by
  simp only [SymbolTable.bind, if_true]
  rw [inv.bindWithOverloading_eq fresh]
  cases isSymbols : s.symbols name with
  | nil =>
    refine ⟨_, rfl, inv.add fresh free (inv.stores.use (inv.inactive_of_fresh fresh)) rfl rfl rfl ?_⟩
    simp [isSymbols]
  | cons prev rest =>
    obtain ⟨first, marked, stores, copies, exprs, dummies, overloaded, _⟩ :=
      inv.mark_previous fresh isSymbols
    have open_ : first.existingOverload api name obj = false := by
      rw [Bool.eq_false_iff, Ne, inv.existing_iff fresh stores overloaded]
      exact fun ⟨x, member, conflict⟩ => free x member conflict
    have distinct : (((name, obj) :: used).map Prod.snd).Nodup :=
      List.nodup_cons.mpr ⟨fresh, inv.distinct⟩
    obtain ⟨second, marked', stores', context⟩ := stores.mark List.mem_cons_self
      (fun other isUsed => name_eq distinct isUsed List.mem_cons_self) open_
    have result : s.table.overloadBind api name prev obj = (true, second) := by
      simp only [overloadBind, marked, marked', Bool.and_self]
    refine ⟨_, by simp only [result], inv.add fresh free stores' ?_ ?_ ?_ ?_⟩
    · rw [context]
      exact copies
    · rw [SymbolTable.current, context]
      exact exprs
    · rw [SymbolTable.current, context]
      exact dummies
    · intro x
      have nonempty : s.symbols name ≠ [] := by simp [isSymbols]
      rw [SymbolTable.current, context, List.mem_cons, overloaded]
      grind

/-- A symbol that conflicts with one of its name is rejected. -/
theorem bind_conflict (inv : Inv api s used) (fresh : obj ∉ used.map Prod.snd)
    (conflict : ∃ x ∈ s.symbols name, Conflict api x obj)
    : ∃ table', s.table.bind api name obj true = (false, table')
      ∧ ((s.symbols name).length ≠ 1 → Inv api ⟨table', s.scopes⟩ ((name, obj) :: used)) := by
  simp only [SymbolTable.bind, if_true]
  rw [inv.bindWithOverloading_eq fresh]
  cases isSymbols : s.symbols name with
  | nil =>
    obtain ⟨x, member, _⟩ := conflict
    rw [isSymbols] at member
    contradiction
  | cons prev rest =>
    obtain ⟨first, marked, stores, copies, exprs, dummies, overloaded, same⟩ :=
      inv.mark_previous fresh isSymbols
    have taken := (inv.existing_iff fresh stores overloaded).mpr conflict
    obtain ⟨second, marked', stores', context⟩ := stores.reject taken
    have result : s.table.overloadBind api name prev obj = (false, second) := by
      simp only [overloadBind, marked, marked', Bool.and_false]
    refine ⟨second, by simp only [result], fun more => ?_⟩
    have unchanged : first = s.table := same (by rintro rfl; simp at more)
    subst unchanged
    refine ⟨stores', context ▸ inv.layers, fun entry member => ?_,
      List.nodup_cons.mpr ⟨fresh, inv.distinct⟩⟩
    exact List.mem_cons_of_mem _ (inv.within entry member)

theorem push (inv : Inv api s used) : Inv api ⟨s.table.pushScope, [] :: s.scopes⟩ used :=
  ⟨⟨inv.stores.noVariants, inv.stores.unique, inv.stores.origin, inv.stores.stored⟩,
    inv.layers.push, inv.within, inv.distinct⟩

/-- A pop makes fewer symbols active: those of the outer scopes are among those of all. -/
theorem pop {table' : SymbolTable T S} (inv : Inv api s used)
    (popped : s.table.popScope = some table') : Inv api ⟨table', s.scopes.tail⟩ used := by
  obtain ⟨⟨⟨content, copies⟩, trie, variants⟩, scopes⟩ := s
  obtain ⟨stores, layers, within, distinct⟩ := inv
  cases layers with
  | bottom _ => contradiction
  | @above _ below copies scope rest top layers =>
    cases popped
    refine ⟨stores.restrict (fun _ _ => rfl) rfl fun x active => ?_, layers, ?_, distinct⟩
    · simp only [isOverloadedFunction, SymbolTable.current, List.contains_iff_mem] at active ⊢
      obtain ⟨name, member, two⟩ := (layers.top.overloaded x).mp active
      refine (top.overloaded x).mpr ⟨name, ?_⟩
      rw [symbolsOf_append, List.length_append]
      exact ⟨List.mem_append_right _ member, by omega⟩
    · intro entry member
      exact within entry (List.mem_append_right scope member)

-- Answers

theorem lookup_eq (inv : Inv api s used) (name : String)
    : s.table.lookup name = match s.symbols name with
      | [x] => some x
      | _ => none := by
  unfold SymbolTable.lookup
  have found : s.table.current.exprMap.lookup name = (s.symbols name).head? :=
    (inv.layers.top.exprs name).trans (lookup_eq_head _ _)
  rw [found]
  cases isSymbols : s.symbols name with
  | nil => rfl
  | cons x rest =>
    have member : x ∈ s.symbols name := by rw [isSymbols]; exact List.mem_cons_self
    have active := inv.active_iff (inv.used_of_mem member)
    rw [isSymbols] at active
    cases rest with
    | nil =>
      have inactive : s.table.isOverloadedFunction x = false :=
        Bool.eq_false_iff.mpr fun isActive => absurd (active.mp isActive).2 (by simp)
      simp [inactive]
    | cons y others =>
      have isActive : s.table.isOverloadedFunction x = true := active.mpr ⟨by simp, by simp⟩
      simp [isActive]

/-- The entries of the trie that are active for a name with two symbols. -/
theorem mem_active_iff (inv : Inv api s used) (two : 2 ≤ (s.symbols name).length) {path : List S}
    {range : S}
    : ((range, x) ∈ s.table.symbolsOf name path ∧ s.table.isOverloadedFunction x = true)
      ↔ x ∈ s.symbols name ∧ api.argTypes x = path ∧ api.rangeType x = range := by
  constructor
  · intro ⟨member, active⟩
    obtain ⟨sameArgs, sameRange, isUsed⟩ := inv.stores.origin member
    exact ⟨((inv.active_iff isUsed).mp active).1, sameArgs, sameRange⟩
  · rintro ⟨member, rfl, rfl⟩
    have isUsed := inv.used_of_mem member
    have active := (inv.active_iff isUsed).mpr ⟨member, two⟩
    exact ⟨inv.stores.stored isUsed active, active⟩

theorem constant_is (inv : Inv api s used) (two : 2 ≤ (s.symbols name).length) (t : S)
    : IsThe (s.table.getOverloadedConstantForType name t)
        fun x => x ∈ s.symbols name ∧ api.argTypes x = [] ∧ api.rangeType x = t := by
  intro x
  rw [getOverloadedConstantForType_eq, Option.filter_eq_some_iff,
    lookup_eq_some_iff_mem (inv.stores.unique name []), inv.mem_active_iff two]

/-- Symbols of a name with the same arguments are the same. -/
theorem same_of_argTypes {y : T} (inv : Inv api s used) (first : x ∈ s.symbols name)
    (second : y ∈ s.symbols name) (sameArgs : api.argTypes x = api.argTypes y)
    (nonempty : api.argTypes x ≠ []) : x = y := by
  by_contra different
  have symmetric : Std.Symm fun x y => ¬ Conflict api x y :=
    ⟨fun _ _ apart conflict => apart conflict.symm⟩
  have apart := (inv.layers.top.apart name).forall first second different
  exact apart ⟨sameArgs, fun empty => absurd empty nonempty⟩

theorem function_is (inv : Inv api s used) (two : 2 ≤ (s.symbols name).length) {path : List S}
    (nonempty : path ≠ [])
    : IsThe (s.table.getOverloadedFunctionForTypes name path)
        fun x => x ∈ s.symbols name ∧ api.argTypes x = path := by
  intro x
  rw [getOverloadedFunctionForTypes_eq, getOverloadedFunctionAt, overloadedFunctionLoop_unique]
  have member_iff (entry : S × T)
      : entry ∈ (s.table.symbolsOf name path).filter (s.table.isOverloadedFunction ·.2)
        ↔ entry.2 ∈ s.symbols name ∧ api.argTypes entry.2 = path
          ∧ api.rangeType entry.2 = entry.1 := by
    rw [List.mem_filter]
    exact inv.mem_active_iff two
  have unique : ((s.table.symbolsOf name path).filter (s.table.isOverloadedFunction ·.2)).Nodup :=
    ((inv.stores.unique name path).of_map _).sublist List.filter_sublist
  cases active : (s.table.symbolsOf name path).filter (s.table.isOverloadedFunction ·.2) with
  | nil =>
    rw [active] at member_iff
    simp only [reduceCtorEq, false_iff]
    rintro ⟨member, sameArgs⟩
    exact absurd ((member_iff (api.rangeType x, x)).mpr ⟨member, sameArgs, rfl⟩) List.not_mem_nil
  | cons entry rest =>
    rw [active] at member_iff unique
    have first := (member_iff entry).mp List.mem_cons_self
    have same (y : T) (member : y ∈ s.symbols name) (sameArgs : api.argTypes y = path) : entry.2 = y :=
      inv.same_of_argTypes first.1 member (first.2.1.trans sameArgs.symm)
        (by rw [first.2.1]; exact nonempty)
    cases rest with
    | nil =>
      simp only [Option.some.injEq]
      exact ⟨fun isX => isX ▸ ⟨first.1, first.2.1⟩, fun facts => same x facts.1 facts.2⟩
    | cons other rest =>
      have second := (member_iff other).mp (List.mem_cons_of_mem _ List.mem_cons_self)
      have equal : entry = other := by
        have sameTerm := same other.2 second.1 second.2.1
        exact Prod.ext (by rw [← first.2.2, ← second.2.2, sameTerm]) sameTerm
      simp [equal] at unique

theorem answers (inv : Inv api s used) : Answers api s :=
  ⟨inv.lookup_eq, fun _ _ two nonempty => inv.function_is two nonempty, fun _ t two => inv.constant_is two t⟩

end Inv

-- Whole runs

variable {api : Api T S}

theorem start_inv : Inv api (start : Session T S) [] := by
  refine ⟨⟨rfl, fun _ path => ?_, fun {name path} _ _ member => ?_, nofun⟩, .bottom ?_, nofun, .nil⟩
  · cases path <;> exact .nil
  · cases path <;> contradiction
  · exact ⟨fun _ => rfl, rfl, fun x => by simp [symbolsOf], fun _ => .nil, .nil⟩

/-- One bind: whether it succeeds, and the invariant after it. -/
theorem Inv.exec_bind {s : Session T S} {used : List (String × T)} {name : String} {obj : T}
    (inv : Inv api s used) (fresh : obj ∉ used.map Prod.snd)
    : ((s.exec api (.bind name obj)).1 = true ↔ ∀ x ∈ s.symbols name, ¬ Conflict api x obj)
      ∧ ((∀ x, s.symbols name = [x] → ¬ Conflict api x obj)
        → Inv api (s.exec api (.bind name obj)).2 ((name, obj) :: used)) := by
  by_cases free : ∀ x ∈ s.symbols name, ¬ Conflict api x obj
  · obtain ⟨table', bound, inv'⟩ := inv.bind_free fresh free
    simp only [exec, bound, true_iff]
    exact ⟨free, fun _ => inv'⟩
  · obtain ⟨table', rejected, inv'⟩ := inv.bind_conflict fresh (by simpa using free)
    simp only [exec, rejected, Bool.false_eq_true, false_iff]
    refine ⟨free, fun second => inv' fun single => ?_⟩
    obtain ⟨x, isSymbols⟩ := List.length_eq_one_iff.mp single
    exact free fun y member => by
      rw [isSymbols, List.mem_singleton] at member
      exact member ▸ second x isSymbols

/-- Runs without binds. -/
theorem bindsRight_of_no_terms {s : Session T S} {ops : List (TableOp T)}
    (noTerms : TableOp.terms ops = []) : BindsRight api s ops := by
  induction ops generalizing s with
  | nil => trivial
  | cons op ops ih =>
    cases op with
    | pushScope => exact ⟨nofun, ih noTerms⟩
    | popScope => exact ⟨nofun, ih noTerms⟩
    | bind name obj => contradiction

/-- The run keeps the invariant, by induction on the calls. -/
theorem Inv.run {s : Session T S} {used : List (String × T)} {ops : List (TableOp T)}
    (inv : Inv api s used) (different : (TableOp.terms ops).Nodup)
    (fresh : ∀ obj ∈ TableOp.terms ops, obj ∉ used.map Prod.snd)
    (succeed : SucceedButLast api s ops)
    : BindsRight api s ops ∧ (SecondsDiffer api s ops → Answers api (s.run api ops)) := by
  induction ops generalizing s used with
  | nil => exact ⟨trivial, fun _ => inv.answers⟩
  | cons op ops ih =>
    cases op with
    | pushScope =>
      obtain ⟨binds, answers⟩ := ih inv.push different fresh succeed.2
      exact ⟨⟨nofun, binds⟩, fun seconds => answers seconds.2⟩
    | popScope =>
      have inv' : Inv api (s.exec api .popScope).2 used := by
        simp only [exec]
        split
        · exact inv
        · next popped => exact inv.pop popped
      obtain ⟨binds, answers⟩ := ih inv' different fresh succeed.2
      exact ⟨⟨nofun, binds⟩, fun seconds => answers seconds.2⟩
    | bind name obj =>
      simp only [TableOp.terms, List.nodup_cons, List.mem_cons, forall_eq_or_imp] at different fresh
      obtain ⟨succeeds_iff, keeps⟩ := inv.exec_bind fresh.1
      have others : ∀ later ∈ TableOp.terms ops, later ∉ ((name, obj) :: used).map Prod.snd := by
        intro later member
        simp only [List.map_cons, List.mem_cons, not_or]
        exact ⟨fun same => different.1 (same ▸ member), fresh.2 later member⟩
      have right : ∀ name' obj', TableOp.bind name obj = .bind name' obj'
          → ((s.exec api (.bind name obj)).1 = true
            ↔ ∀ x ∈ s.symbols name', x ≠ obj' → ¬ Conflict api x obj') := by
        intro name' obj' same
        cases same
        rw [succeeds_iff]
        refine ⟨fun free x member _ => free x member, fun free x member => free x member ?_⟩
        rintro rfl
        exact fresh.1 (List.mem_map.mpr ⟨_, inv.used_of_mem member, rfl⟩)
      refine ⟨⟨right, ?_⟩, fun seconds => ?_⟩
      · cases succeeds : (s.exec api (.bind name obj)).1 with
        | false => exact bindsRight_of_no_terms (succeed.1 succeeds)
        | true =>
          have inv' := keeps fun x isSymbols =>
            succeeds_iff.mp succeeds x (by rw [isSymbols]; exact List.mem_singleton_self x)
          exact (ih inv' different.2 others succeed.2).1
      · exact (ih (keeps fun x => seconds.1 name obj x rfl) different.2 others succeed.2).2 seconds.2

/-- The symbols bound to a name in the open scopes decide what the table says about it, in every run
with different terms whose binds all succeed but for the last: a bind succeeds exactly when it
conflicts with no symbol of its name, and unless one conflicts with the only symbol of its name, every
lookup is right. -/
theorem run_answers (api : Api T S) (ops : List (TableOp T)) (different : (TableOp.terms ops).Nodup)
    (succeed : SucceedButLast api start ops)
    : BindsRight api start ops ∧ (SecondsDiffer api start ops → Answers api (start.run api ops)) :=
  start_inv.run different (fun _ _ => List.not_mem_nil) succeed

/-- Constants of the sorts zero and one, by parity. -/
def parityApi : Api Nat Nat := ⟨(· % 2), fun _ => .other⟩

theorem run_answers_two_constants
    : (BindsRight parityApi start [.bind "c" 0, .pushScope, .bind "c" 1])
      ∧ Answers parityApi (start.run parityApi [.bind "c" 0, .pushScope, .bind "c" 1])
      ∧ (start.run parityApi [.bind "c" 0, .pushScope, .bind "c" 1]).symbols "c" = [1, 0] := by
  have result := run_answers parityApi [.bind "c" 0, .pushScope, .bind "c" 1] (by decide)
    ⟨by decide, by decide, by decide, trivial⟩
  refine ⟨result.1, result.2 ⟨?_, nofun, ?_, trivial⟩, by decide⟩
  · intro name obj x same isSymbols
    cases same
    have isEmpty : [] = [x] := isSymbols
    contradiction
  · intro name obj x same isSymbols conflict
    cases same
    have isZero : [0] = [x] := isSymbols
    cases isZero
    exact absurd (conflict.2 rfl) (by decide)

/-- After a second constant of the same sort is rejected the first one is not found. -/
theorem rejected_second_hides_first
    : ∃ ops : List (TableOp Nat), (TableOp.terms ops).Nodup
      ∧ SucceedButLast parityApi start ops
      ∧ (start.run parityApi ops).symbols "c" = [0]
      ∧ (start.run parityApi ops).table.lookup "c" = none
      ∧ ¬ Answers parityApi (start.run parityApi ops) := by
  refine ⟨[.bind "c" 0, .bind "c" 2], by decide, ⟨by decide, by decide, trivial⟩, by decide,
    by decide, fun answers => ?_⟩
  have found := answers.lookup "c"
  exact absurd found (by decide)

end Session

end Ava6.Parser

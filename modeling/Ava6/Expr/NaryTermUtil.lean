import Ava6.Expr.NaryMatches

/-! Substitution in patterns, where list variables are replaced by any number of arguments, and macros are
evaluated. For the matches of a pattern it gives the node that is matched.
-/

namespace Ava6.Expr.Nary

/-- The value of the first occurrence of a variable. -/
def findVar : List Variable → List Node → Variable → Option Node
  | w :: vars, sd :: subs, v => if w = v then some sd else findVar vars subs v
  | _, _, _ => none

def findSub (vars : List Variable) (subs : List Node) : Node → Option Node
  | .var v => findVar vars subs v
  | _ => none

def isListVar : Node → Bool
  | .var v => v.isList
  | _ => false

section Substitute

-- Operators can be terms themselves, those of applied functions.
variable (operatorHasBoundVar : Operator → Bool)

mutual

def hasBoundVar : Node → Bool
  | .var v => v.isBound
  | .const _ => false
  | .apply op children => anyHasBoundVar children || operatorHasBoundVar op

def anyHasBoundVar : List Node → Bool
  | [] => false
  | node :: rest => hasBoundVar node || anyHasBoundVar rest

end

abbrev Visited := Node → Option Node

variable (types : Types) (vars : List Variable) (subs : List Node)

/-- The new children of a node and whether any of them changed. -/
def collect (visited : Visited) : List Node → List Node × Bool
  | [] => ([], false)
  | cn :: rest =>
      let later := collect visited rest
      match findSub vars subs cn with
      | some sd => ((if isListVar cn then sd.children else [sd]) ++ later.1, true)
      | none =>
          let x := (visited cn).getD cn
          (x :: later.1, later.2 || decide (cn ≠ x))

/-- A node with new children, or null if none are left and its null terminator is not known. -/
def rebuild (op : Operator) (children new : List Node) : Option Node :=
  if new.length ≠ children.length then
    match new with
    | [] => types.getNullTerminator op (types.getType (.apply op children))
    | [x] => some x
    | _ => some (.apply op new)
  else
    match op, new with
    | .setEmptyOfType, .const (.sortToTerm tn) :: _ => some (.const (.emptySet tn))
    | .seqEmptyOfType, .const (.sortToTerm tn) :: _ => some (.const (.emptyWord tn))
    | .typeOf, x :: _ => some (.const (.sortToTerm (types.getType x)))
    | op, _ => some (.apply op new)

/-- The result for a node after those for its children. -/
def resultOf (visited : Visited) (op : Operator) (children : List Node) : Option Node :=
  let new := collect vars subs visited children
  if new.2 then rebuild types op children new.1 else some (.apply op children)

/-- Nodes are visited once, and those without bound variables are their own results. -/
def unlessVisited (visited : Visited) (cur : Node) (visit : Option Visited) : Option Visited :=
  if (visited cur).isSome then some visited
  else if hasBoundVar operatorHasBoundVar cur then visit
  else some (Function.update visited cur (some cur))

mutual

/-- Visits a node after its children, the last of these first, and stores its result. -/
def visitNode (visited : Visited) : Node → Option Visited
  | .var v =>
      unlessVisited operatorHasBoundVar visited (.var v)
        (match findVar vars subs v with
        | some sd => some (Function.update visited (.var v) (some (if v.isList then .var v else sd)))
        | none => some (Function.update visited (.var v) (some (.var v))))
  | .const c =>
      unlessVisited operatorHasBoundVar visited (.const c)
        (some (Function.update visited (.const c) (some (.const c))))
  | .apply op children =>
      unlessVisited operatorHasBoundVar visited (.apply op children) do
        let visited ← visitNodes visited children
        let ret ← resultOf types vars subs visited op children
        some (Function.update visited (.apply op children) (some ret))

def visitNodes (visited : Visited) : List Node → Option Visited
  | [] => some visited
  | node :: rest => do
      let visited ← visitNodes visited rest
      visitNode visited node

end

end Substitute

-- Instances

mutual

/-- All variables are replaced, as below an application that has a bound variable or where they are bound
ones, and no macro is evaluated: types are not taken of arguments with variables, and no empty set or word is
of a type that is put for a variable.
-/
def Restored (operatorHasBoundVar : Operator → Bool) (smap : Variable → Option Node) : Node → Prop
  | .var v => v.isBound = true
  | .const _ => True
  | .apply op children =>
      (hasBoundVar operatorHasBoundVar (.apply op children) = true ∨ Node.varsIn children = [])
      ∧ (op = .typeOf → Node.varsIn children = [])
      ∧ (op = .setEmptyOfType ∨ op = .seqEmptyOfType
        → ∀ v tn, .var v ∈ children → smap v ≠ some (.const (.sortToTerm tn)))
      ∧ AllRestored operatorHasBoundVar smap children

def AllRestored (operatorHasBoundVar : Operator → Bool) (smap : Variable → Option Node) : List Node → Prop
  | [] => True
  | .var _ :: rest => AllRestored operatorHasBoundVar smap rest
  | node :: rest => Restored operatorHasBoundVar smap node ∧ AllRestored operatorHasBoundVar smap rest

end

/-- Patterns whose instances are nodes. -/
structure Substitutable (smap : Variable → Option Node) (q : Node) : Prop where
  bound : ∀ v ∈ q.vars, (smap v).isSome
  listsUnderNary : ListsUnderNary q
  wellFormed : ∀ x ∈ inst smap q, WellFormed x

variable {smap : Variable → Option Node}

theorem insts_eq_flatMap (nodes : List Node) : insts smap nodes = nodes.flatMap (inst smap) := by
  induction nodes with
  | nil => rfl
  | cons node rest ih => rw [insts, ih, List.flatMap_cons]

theorem Substitutable.child {op : Operator} {children : List Node} {q : Node}
    (substitutable : Substitutable smap (.apply op children)) (isChild : q ∈ children)
    : Substitutable smap q := by
  obtain ⟨bound, lists, wellFormed⟩ := substitutable
  rw [ListsUnderNary, allListsUnderNary_iff] at lists
  refine ⟨fun v member => bound v ?_, lists.2 q isChild, fun x member => ?_⟩
  · rw [Node.vars, Node.varsIn_eq_flatMap]
    exact List.mem_flatMap.mpr ⟨q, isChild, member⟩
  · rw [inst, List.forall_mem_singleton, WellFormed, allWellFormed_iff] at wellFormed
    refine wellFormed.2 x ?_
    rw [insts_eq_flatMap]
    exact List.mem_flatMap.mpr ⟨q, isChild, member⟩

mutual

theorem inst_of_no_vars (n : Node) (noVars : n.vars = []) : inst smap n = [n] := by
  match n with
  | .var v => cases noVars
  | .const c => rw [inst]
  | .apply op children =>
      rw [Node.vars] at noVars
      rw [inst, insts_of_no_vars children noVars]

theorem insts_of_no_vars (nodes : List Node) (noVars : Node.varsIn nodes = [])
    : insts smap nodes = nodes := by
  match nodes with
  | [] => rw [insts]
  | node :: rest =>
      rw [Node.varsIn, List.append_eq_nil_iff] at noVars
      rw [insts, inst_of_no_vars node noVars.1, insts_of_no_vars rest noVars.2, List.singleton_append]

end

theorem allRestored_cons {operatorHasBoundVar : Operator → Bool} {node : Node} {rest : List Node}
    (notVar : ∀ v, node ≠ .var v)
    : AllRestored operatorHasBoundVar smap (node :: rest)
      ↔ Restored operatorHasBoundVar smap node ∧ AllRestored operatorHasBoundVar smap rest := by
  rw [AllRestored]
  exact notVar

mutual

theorem restored_of_no_vars (operatorHasBoundVar : Operator → Bool) (n : Node) (noVars : n.vars = [])
    : Restored operatorHasBoundVar smap n := by
  match n with
  | .var v => cases noVars
  | .const c =>
      rw [Restored]
      trivial
  | .apply op children =>
      rw [Node.vars] at noVars
      rw [Restored]
      refine ⟨Or.inr noVars, fun _ => noVars, fun _ v tn member => ?_,
        allRestored_of_no_vars operatorHasBoundVar children noVars⟩
      rw [Node.varsIn_eq_flatMap, List.flatMap_eq_nil_iff] at noVars
      cases noVars _ member

theorem allRestored_of_no_vars (operatorHasBoundVar : Operator → Bool) (nodes : List Node)
    (noVars : Node.varsIn nodes = [])
    : AllRestored operatorHasBoundVar smap nodes := by
  match nodes with
  | [] =>
      rw [AllRestored]
      trivial
  | node :: rest =>
      rw [Node.varsIn, List.append_eq_nil_iff] at noVars
      have notVar (v : Variable) : node ≠ .var v := by
        rintro rfl
        cases noVars.1
      exact (allRestored_cons notVar).mpr ⟨restored_of_no_vars operatorHasBoundVar node noVars.1,
        allRestored_of_no_vars operatorHasBoundVar rest noVars.2⟩

end

theorem varsIn_append (nodes nodes' : List Node)
    : Node.varsIn (nodes ++ nodes') = Node.varsIn nodes ++ Node.varsIn nodes' := by
  rw [Node.varsIn_eq_flatMap, List.flatMap_append, Node.varsIn_eq_flatMap, Node.varsIn_eq_flatMap]

/-- No variable that has a value occurs in one. -/
def Closed (smap : Variable → Option Node) : Prop :=
  ∀ v x, smap v = some x → ∀ w, (smap w).isSome → w ∉ x.vars

mutual

theorem not_mem_inst (closed : Closed smap) {w : Variable} (hasValue : (smap w).isSome) (q : Node)
    (bound : ∀ v ∈ q.vars, (smap v).isSome)
    : w ∉ Node.varsIn (inst smap q) := by
  match q with
  | .var v =>
      obtain ⟨x, isValue⟩ := Option.isSome_iff_exists.mp (bound v (List.mem_singleton_self v))
      have notIn := closed v x isValue w hasValue
      rw [inst, valueOf, isValue]
      cases v.isList with
      | false => simpa [Node.varsIn] using notIn
      | true =>
          cases x with
          | var u | const c => exact List.not_mem_nil
          | apply op children => exact notIn
  | .const c =>
      rw [inst]
      exact List.not_mem_nil
  | .apply op children =>
      rw [inst, Node.varsIn, Node.varsIn, List.append_nil]
      exact not_mem_insts closed hasValue children bound

theorem not_mem_insts (closed : Closed smap) {w : Variable} (hasValue : (smap w).isSome) (nodes : List Node)
    (bound : ∀ v ∈ Node.varsIn nodes, (smap v).isSome)
    : w ∉ Node.varsIn (insts smap nodes) := by
  match nodes with
  | [] =>
      rw [insts]
      exact List.not_mem_nil
  | node :: rest =>
      rw [Node.varsIn, List.forall_mem_append] at bound
      rw [insts, varsIn_append, List.mem_append, not_or]
      exact ⟨not_mem_inst closed hasValue node bound.1, not_mem_insts closed hasValue rest bound.2⟩

end

/-- An instance differs from a pattern with variables. -/
theorem no_vars_of_insts_eq (closed : Closed smap) {nodes : List Node}
    (bound : ∀ v ∈ Node.varsIn nodes, (smap v).isSome) (same : insts smap nodes = nodes)
    : Node.varsIn nodes = [] := by
  refine List.eq_nil_iff_forall_not_mem.mpr (fun w member => ?_)
  refine not_mem_insts closed (bound w member) nodes bound ?_
  rwa [same]

theorem inst_eq_self_iff (closed : Closed smap) {q : Node} (bound : ∀ v ∈ q.vars, (smap v).isSome)
    : inst smap q = [q] ↔ q.vars = [] := by
  have isSingleton : Node.varsIn [q] = q.vars := List.append_nil _
  refine ⟨fun same => ?_, inst_of_no_vars q⟩
  rw [← isSingleton] at bound ⊢
  refine no_vars_of_insts_eq closed bound ?_
  rw [insts, insts, List.append_nil, same]

section Visits

variable {operatorHasBoundVar : Operator → Bool} {types : Types} {vars : List Variable} {subs : List Node}
  {visited : Visited}

/-- The results stored, except for list variables, are the instances exactly for what is restored. -/
def Correct (operatorHasBoundVar : Operator → Bool) (smap : Variable → Option Node) (visited : Visited) : Prop :=
  ∀ q x, visited q = some x → isListVar q = false → (inst smap q = [x] ↔ Restored operatorHasBoundVar smap q)

theorem Correct.update (correct : Correct operatorHasBoundVar smap visited) {q x : Node}
    (isResult : isListVar q = false → (inst smap q = [x] ↔ Restored operatorHasBoundVar smap q))
    : Correct operatorHasBoundVar smap (Function.update visited q (some x)) := by
  intro q' x' isVisited notList
  by_cases same : q' = q
  · subst same
    rw [Function.update_self] at isVisited
    rw [← isResult notList, Option.some.inj isVisited]
  · rw [Function.update_of_ne same] at isVisited
    exact correct q' x' isVisited notList

/-- A node without bound variables is restored if it has no others. -/
theorem restored_iff_no_vars {q : Node} (notBound : ¬hasBoundVar operatorHasBoundVar q = true)
    : Restored operatorHasBoundVar smap q ↔ q.vars = [] := by
  refine ⟨fun restored => ?_, restored_of_no_vars operatorHasBoundVar q⟩
  cases q with
  | var v =>
      rw [Restored] at restored
      rw [hasBoundVar] at notBound
      exact absurd restored notBound
  | const c => rfl
  | apply op children =>
      rw [Restored] at restored
      exact restored.1.resolve_left notBound

theorem findSub_cases (agrees : ∀ v, findVar vars subs v = smap v) {cn : Node}
    (bound : ∀ v ∈ cn.vars, (smap v).isSome)
    : (∃ v sd, cn = .var v ∧ findSub vars subs cn = some sd
        ∧ inst smap cn = if isListVar cn then sd.children else [sd])
      ∨ (∀ v, cn ≠ .var v) ∧ findSub vars subs cn = none ∧ isListVar cn = false ∧ (inst smap cn).length = 1 := by
  cases cn with
  | var v =>
      obtain ⟨x, isValue⟩ := Option.isSome_iff_exists.mp (bound v (List.mem_singleton_self v))
      refine Or.inl ⟨v, x, rfl, (agrees v).trans isValue, ?_⟩
      rw [inst, valueOf, isValue, isListVar]
  | const c => exact Or.inr ⟨nofun, rfl, rfl, by rw [inst, List.length_singleton]⟩
  | apply op children => exact Or.inr ⟨nofun, rfl, rfl, by rw [inst, List.length_singleton]⟩

/-- The new children are as many as those of the instance, and these if the children are restored. They are
the same if nothing changed.
-/
theorem collect_spec (agrees : ∀ v, findVar vars subs v = smap v)
    (correct : Correct operatorHasBoundVar smap visited) (children : List Node)
    (bound : ∀ v ∈ Node.varsIn children, (smap v).isSome) (areVisited : ∀ cn ∈ children, (visited cn).isSome)
    : (collect vars subs visited children).1.length = (insts smap children).length
      ∧ (insts smap children = (collect vars subs visited children).1
        ↔ AllRestored operatorHasBoundVar smap children)
      ∧ ((collect vars subs visited children).2 = false
        → (collect vars subs visited children).1 = children ∧ ∀ v, .var v ∉ children)
      ∧ (Node.varsIn children = [] → (collect vars subs visited children).2 = false) := by
  induction children with
  | nil => exact ⟨rfl, iff_of_true rfl trivial, fun _ => ⟨rfl, fun _ => List.not_mem_nil⟩, fun _ => rfl⟩
  | cons cn rest ih =>
      rw [Node.varsIn, List.forall_mem_append] at bound
      obtain ⟨isVisited, restVisited⟩ := List.forall_mem_cons.mp areVisited
      obtain ⟨lengths, isRest, sameRest, unchangedRest⟩ := ih bound.2 restVisited
      rw [collect, insts]
      rcases findSub_cases agrees bound.1 with ⟨v, sd, rfl, isFound, isInst⟩ | ⟨notVar, notFound, notList, one⟩
      · rw [isInst, AllRestored]
        simp only [isFound, List.length_append, lengths, List.append_cancel_left_eq]
        refine ⟨trivial, isRest, nofun, fun noVars => ?_⟩
        cases noVars
      · obtain ⟨x, isResult⟩ := Option.isSome_iff_exists.mp isVisited
        obtain ⟨y, isInst⟩ := List.length_eq_one_iff.mp one
        have isCorrect := correct cn x isResult notList
        rw [isInst, List.singleton_inj] at isCorrect
        rw [allRestored_cons notVar]
        simp only [notFound, isResult, Option.getD_some, isInst, List.singleton_append, List.length_cons, lengths,
          List.cons.injEq, isCorrect, isRest, Bool.or_eq_false_iff, decide_eq_false_iff_not, not_not, true_and]
        refine ⟨fun ⟨unchanged, same⟩ => ?_, fun noVars => ?_⟩
        · obtain ⟨isRest, notIn⟩ := sameRest unchanged
          refine ⟨⟨same.symm, isRest⟩, fun v member => ?_⟩
          exact (List.mem_cons.mp member).elim (fun isVar => notVar v isVar.symm) (notIn v)
        · rw [Node.varsIn, List.append_eq_nil_iff] at noVars
          rw [inst_of_no_vars cn noVars.1, List.singleton_inj] at isInst
          exact ⟨unchangedRest noVars.2, isInst.trans (isCorrect.mpr (restored_of_no_vars _ cn noVars.1))⟩

/-- The argument of a macro for an empty set or word becomes a type exactly where a variable does. -/
theorem insts_eq_sort_iff {op : Operator} {children : List Node} (lists : ListsUnderNary (.apply op children))
    (fits : ArityFits op children.length) (bound : ∀ v ∈ Node.varsIn children, (smap v).isSome)
    (hasVars : Node.varsIn children ≠ []) (isMacro : op = .setEmptyOfType ∨ op = .seqEmptyOfType)
    : (∃ tn rest, insts smap children = .const (.sortToTerm tn) :: rest)
      ↔ ∃ v tn, .var v ∈ children ∧ smap v = some (.const (.sortToTerm tn)) := by
  rw [ListsUnderNary] at lists
  have notNary (name : Nat) : op ≠ .nary name := by rcases isMacro with rfl | rfl <;> rintro ⟨⟩
  have one : children.length = 1 := by
    rcases isMacro with rfl | rfl
    · exact fits
    · exact fits
  obtain ⟨child, rfl⟩ := List.length_eq_one_iff.mp one
  rw [insts, insts, List.append_nil]
  cases child with
  | const c => exact absurd rfl hasVars
  | apply op' children' =>
      rw [inst]
      refine iff_of_false (by rintro ⟨tn, rest, ⟨⟩⟩) ?_
      rintro ⟨v, tn, member, -⟩
      cases List.mem_singleton.mp member
  | var v =>
      have notList : v.isList = false := by
        by_contra isList
        obtain ⟨name, isNary⟩ := lists.1 v (List.mem_singleton_self _) (by simpa using isList)
        exact notNary name isNary
      obtain ⟨x, isValue⟩ := Option.isSome_iff_exists.mp (bound v (List.mem_singleton_self _))
      rw [inst, valueOf, isValue, notList]
      constructor
      · rintro ⟨tn, rest, same⟩
        exact ⟨v, tn, List.mem_singleton_self _, isValue.trans (congrArg some (List.cons.inj same).1)⟩
      · rintro ⟨w, tn, member, isSort⟩
        obtain rfl : w = v := Node.var.inj (List.mem_singleton.mp member)
        exact ⟨tn, [], by rw [Option.some.inj (isValue.symm.trans isSort)]; rfl⟩

/-- A node with new children is its instance exactly if these are restored and it is no macro that is evaluated. -/
theorem rebuild_spec {op : Operator} {children new : List Node}
    (substitutable : Substitutable smap (.apply op children)) (fits : ArityFits op children.length)
    (hasVars : Node.varsIn children ≠ []) (lengths : new.length = (insts smap children).length)
    (isNew : insts smap children = new ↔ AllRestored operatorHasBoundVar smap children)
    (hasBound : hasBoundVar operatorHasBoundVar (.apply op children) = true)
    : ∃ x, rebuild types op children new = some x
      ∧ (inst smap (.apply op children) = [x] ↔ Restored operatorHasBoundVar smap (.apply op children)) := by
  obtain ⟨bound, lists, wellFormed⟩ := substitutable
  have isSort := insts_eq_sort_iff lists fits bound hasVars
  rw [inst, List.forall_mem_singleton, WellFormed] at wellFormed
  rw [inst, Restored]
  simp only [List.singleton_inj, hasBound, true_or, true_and]
  have ofApply (noMacro : op ≠ .typeOf)
      (noEmpty : op = .setEmptyOfType ∨ op = .seqEmptyOfType → insts smap children = new
        → ∀ v tn, .var v ∈ children → smap v ≠ some (.const (.sortToTerm tn)))
      : Node.apply op (insts smap children) = .apply op new
        ↔ (op = .typeOf → Node.varsIn children = [])
          ∧ (op = .setEmptyOfType ∨ op = .seqEmptyOfType
            → ∀ v tn, .var v ∈ children → smap v ≠ some (.const (.sortToTerm tn)))
          ∧ AllRestored operatorHasBoundVar smap children := by
    rw [Node.apply.injEq, isNew]
    refine ⟨fun both => ⟨fun isTypeOf => absurd isTypeOf noMacro, fun isEmpty => ?_, both.2⟩, fun restored => ⟨rfl, restored.2.2⟩⟩
    exact noEmpty isEmpty (isNew.mpr both.2)
  have ofEmpty {tn : TypeNode} {rest : List Node} {c : Constant} (isMacro : op = .setEmptyOfType ∨ op = .seqEmptyOfType)
      (isFirst : new = .const (.sortToTerm tn) :: rest)
      : Node.apply op (insts smap children) = .const c
        ↔ (op = .typeOf → Node.varsIn children = [])
          ∧ (op = .setEmptyOfType ∨ op = .seqEmptyOfType
            → ∀ v tn, .var v ∈ children → smap v ≠ some (.const (.sortToTerm tn)))
          ∧ AllRestored operatorHasBoundVar smap children := by
    refine iff_of_false (by rintro ⟨⟩) ?_
    rintro ⟨-, noSort, restored⟩
    obtain ⟨v, tn', member, isValue⟩ := (isSort isMacro).mp ⟨tn, rest, (isNew.mpr restored).trans isFirst⟩
    exact noSort isMacro v tn' member isValue
  unfold rebuild
  split
  · next different =>
      obtain ⟨name, rfl⟩ : ∃ name, op = .nary name := by
        by_contra notNary
        rw [ListsUnderNary] at lists
        refine different (lengths.trans (length_insts (fun v member => ?_)))
        by_contra isList
        exact notNary (lists.1 v member (by simpa using isList))
      have atLeastTwo : 2 ≤ new.length := by
        rw [lengths]
        exact wellFormed.1
      rcases new with _ | ⟨first, _ | ⟨second, others⟩⟩
      · exact absurd atLeastTwo (by simp)
      · exact absurd atLeastTwo (by simp)
      · refine ⟨_, rfl, ofApply (by rintro ⟨⟩) ?_⟩
        rintro (⟨⟨⟩⟩ | ⟨⟨⟩⟩)
  · split
    · next isFirst => exact ⟨_, rfl, ofEmpty (Or.inl rfl) rfl⟩
    · next isFirst => exact ⟨_, rfl, ofEmpty (Or.inr rfl) rfl⟩
    · exact ⟨_, rfl, iff_of_false (by rintro ⟨⟩) (fun restored => hasVars (restored.1 rfl))⟩
    · next notSet notWord notType =>
        have isOne (isTypeOf : op = .typeOf) : False := by
          subst isTypeOf
          rw [← lengths] at wellFormed
          obtain ⟨x, rfl⟩ := List.length_eq_one_iff.mp (show new.length = 1 from wellFormed.1)
          exact notType x [] rfl rfl
        refine ⟨_, rfl, ofApply isOne (fun isMacro isInst v tn member isValue => ?_)⟩
        obtain ⟨tn', rest, isFirst⟩ := (isSort isMacro).mpr ⟨v, tn, member, isValue⟩
        rw [isInst] at isFirst
        exact isMacro.elim (fun isSet => notSet tn' rest isSet isFirst) (fun isSeq => notWord tn' rest isSeq isFirst)

/-- Visiting nodes succeeds, keeps the results there are and adds theirs. -/
def Visits (operatorHasBoundVar : Operator → Bool) (smap : Variable → Option Node) (visited : Visited)
    (nodes : List Node) : Option Visited → Prop
  | none => False
  | some visited' =>
      Correct operatorHasBoundVar smap visited' ∧ (∀ x, (visited x).isSome → (visited' x).isSome)
      ∧ ∀ q ∈ nodes, (visited' q).isSome

theorem visits_update (correct : Correct operatorHasBoundVar smap visited) {q x : Node}
    (isResult : isListVar q = false → (inst smap q = [x] ↔ Restored operatorHasBoundVar smap q))
    : Visits operatorHasBoundVar smap visited [q] (some (Function.update visited q (some x))) := by
  refine ⟨correct.update isResult, fun y isSome => ?_, ?_⟩
  · by_cases same : y = q
    · rw [same, Function.update_self, Option.isSome_some]
    · rwa [Function.update_of_ne same]
  · rw [List.forall_mem_singleton, Function.update_self, Option.isSome_some]

theorem visits_unlessVisited (closed : Closed smap) (correct : Correct operatorHasBoundVar smap visited) {q : Node}
    (bound : ∀ v ∈ q.vars, (smap v).isSome) {visit : Option Visited}
    (visits : hasBoundVar operatorHasBoundVar q = true → Visits operatorHasBoundVar smap visited [q] visit)
    : Visits operatorHasBoundVar smap visited [q] (unlessVisited operatorHasBoundVar visited q visit) := by
  rw [unlessVisited]
  split
  · next known => exact ⟨correct, fun _ => id, List.forall_mem_singleton.mpr known⟩
  · split
    · next hasBound => exact visits hasBound
    · next notBound =>
        exact visits_update correct (fun _ => (inst_eq_self_iff closed bound).trans (restored_iff_no_vars notBound).symm)

mutual

/-- By induction on the node: what is collected for its children decides what it becomes. -/
theorem visitNode_spec (agrees : ∀ v, findVar vars subs v = smap v) (closed : Closed smap) (q : Node)
    (wellFormed : WellFormed q) (substitutable : Substitutable smap q) (visited : Visited)
    (correct : Correct operatorHasBoundVar smap visited)
    : Visits operatorHasBoundVar smap visited [q] (visitNode operatorHasBoundVar types vars subs visited q) := by
  match q with
  | .var v =>
      rw [visitNode]
      refine visits_unlessVisited closed correct substitutable.bound (fun isBound => ?_)
      obtain ⟨x, isValue⟩ := Option.isSome_iff_exists.mp (substitutable.bound v (by simp [Node.vars]))
      rw [agrees, isValue]
      refine visits_update correct (fun notList => ?_)
      rw [isListVar] at notList
      rw [inst, valueOf, isValue, notList, Restored]
      exact iff_of_true rfl isBound
  | .const c =>
      rw [visitNode]
      refine visits_unlessVisited closed correct substitutable.bound (fun _ => visits_update correct (fun _ => ?_))
      rw [inst, Restored]
      exact iff_of_true rfl trivial
  | .apply op children =>
      rw [visitNode]
      refine visits_unlessVisited closed correct substitutable.bound (fun hasBound => ?_)
      rw [WellFormed] at wellFormed
      have below := visitNodes_spec agrees closed children wellFormed.2
        (fun q isChild => substitutable.child isChild) visited correct
      cases isBelow : visitNodes operatorHasBoundVar types vars subs visited children with
      | none =>
          rw [isBelow] at below
          exact below.elim
      | some visited' =>
          rw [isBelow] at below
          obtain ⟨correct', keeps, areVisited⟩ := below
          have bound : ∀ v ∈ Node.varsIn children, (smap v).isSome := substitutable.bound
          obtain ⟨lengths, isNew, unchanged, changed⟩ := collect_spec agrees correct' children bound areVisited
          obtain ⟨ret, isRet, isInst⟩ : ∃ ret, resultOf types vars subs visited' op children = some ret
              ∧ (inst smap (.apply op children) = [ret] ↔ Restored operatorHasBoundVar smap (.apply op children)) := by
            rw [resultOf]
            split
            · next isChanged =>
                refine rebuild_spec substitutable wellFormed.1 (fun noVars => ?_) lengths isNew hasBound
                rw [changed noVars] at isChanged
                cases isChanged
            · next notChanged =>
                obtain ⟨same, notVar⟩ := unchanged (by simpa using notChanged)
                rw [same] at isNew
                refine ⟨_, rfl, ?_⟩
                rw [inst, List.singleton_inj, Node.apply.injEq, isNew, Restored]
                refine ⟨fun ⟨_, restored⟩ => ⟨Or.inl hasBound, fun _ => ?_, fun _ v _ member => absurd member (notVar v),
                  restored⟩, fun restored => ⟨rfl, restored.2.2.2⟩⟩
                exact no_vars_of_insts_eq closed bound (isNew.mpr restored)
          obtain ⟨correct'', keeps', isVisited⟩ :=
            visits_update correct' (fun (_ : isListVar (.apply op children) = false) => isInst)
          simp only [Option.bind_eq_bind, Option.bind_some, isRet]
          exact ⟨correct'', fun x isSome => keeps' x (keeps x isSome), isVisited⟩

theorem visitNodes_spec (agrees : ∀ v, findVar vars subs v = smap v) (closed : Closed smap) (nodes : List Node)
    (wellFormed : AllWellFormed nodes) (substitutable : ∀ q ∈ nodes, Substitutable smap q) (visited : Visited)
    (correct : Correct operatorHasBoundVar smap visited)
    : Visits operatorHasBoundVar smap visited nodes (visitNodes operatorHasBoundVar types vars subs visited nodes) := by
  match nodes with
  | [] =>
      rw [visitNodes]
      exact ⟨correct, fun _ => id, nofun⟩
  | node :: rest =>
      rw [AllWellFormed] at wellFormed
      obtain ⟨isNode, areRest⟩ := List.forall_mem_cons.mp substitutable
      rw [visitNodes]
      have later := visitNodes_spec agrees closed rest wellFormed.2 areRest visited correct
      cases isLater : visitNodes operatorHasBoundVar types vars subs visited rest with
      | none =>
          rw [isLater] at later
          exact later.elim
      | some visited' =>
          rw [isLater] at later
          obtain ⟨correct', keeps, areVisited⟩ := later
          have first := visitNode_spec agrees closed node wellFormed.1 isNode visited' correct'
          rw [Option.bind_eq_bind, Option.bind_some]
          cases isFirst : visitNode operatorHasBoundVar types vars subs visited' node with
          | none =>
              rw [isFirst] at first
              exact first
          | some visited'' =>
              rw [isFirst] at first
              obtain ⟨correct'', keeps', isVisited⟩ := first
              refine ⟨correct'', fun x isSome => keeps' x (keeps x isSome), ?_⟩
              rw [List.forall_mem_cons]
              exact ⟨isVisited node (List.mem_singleton_self _), fun x member => keeps' x (areVisited x member)⟩

end

mutual

theorem vars_value_subset {v : Variable} {x : Node} (isValue : smap v = some x)
    (isRun : v.isList = true → ∃ run, x = .apply .sexpr run) (q : Node) (member : v ∈ q.vars)
    : ∀ w ∈ x.vars, w ∈ Node.varsIn (inst smap q) := by
  match q with
  | .var u =>
      obtain rfl := List.mem_singleton.mp member
      rw [inst, valueOf, isValue]
      intro w inValue
      cases isList : v.isList with
      | false => simpa [Node.varsIn] using inValue
      | true =>
          obtain ⟨run, rfl⟩ := isRun isList
          exact inValue
  | .const c => cases member
  | .apply op children =>
      rw [inst, Node.varsIn, Node.varsIn, List.append_nil]
      exact vars_value_subset_insts isValue isRun children member

theorem vars_value_subset_insts {v : Variable} {x : Node} (isValue : smap v = some x)
    (isRun : v.isList = true → ∃ run, x = .apply .sexpr run) (nodes : List Node) (member : v ∈ Node.varsIn nodes)
    : ∀ w ∈ x.vars, w ∈ Node.varsIn (insts smap nodes) := by
  match nodes with
  | [] => cases member
  | node :: rest =>
      intro w inValue
      rw [Node.varsIn, List.mem_append] at member
      rw [insts, varsIn_append, List.mem_append]
      exact member.imp (fun first => vars_value_subset isValue isRun node first w inValue)
        (fun later => vars_value_subset_insts isValue isRun rest later w inValue)

end

theorem Matches.closed {p n : Node} (isMatch : Matches types p n smap) (foreign : ∀ v ∈ p.vars, v ∉ n.vars)
    : Closed smap := by
  intro v x isValue w hasValue inValue
  have isRun (isList : v.isList = true) : ∃ run, x = .apply .sexpr run := by
    have fits := isMatch.fits v x isValue
    rw [FitsVar, if_pos isList] at fits
    obtain ⟨run, isRun, _⟩ := fits
    exact ⟨run, isRun⟩
  have inNode := vars_value_subset isValue isRun p ((isMatch.domain v).mp (Option.isSome_of_eq_some isValue)) w inValue
  rw [isMatch.isInstance, Node.varsIn, Node.varsIn, List.append_nil] at inNode
  exact foreign w ((isMatch.domain w).mp hasValue) inNode

end Visits

end Ava6.Expr.Nary

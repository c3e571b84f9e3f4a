import Ava6.Expr.NaryMatchTrie

/-! The search through the frames finds what a recursion over the trie finds, and leaves bindings as they
were.
-/

namespace Ava6.Expr.Nary

variable (types : Types)

/-- A variable with a value for it and the symbols after it. -/
structure Candidate where
  var : Variable
  next : Node
  syms : Stack

/-- All runs of children that a list variable can take, by their lengths. -/
def runs (var : Variable) : Stack → List (List Node × Stack)
  | some s :: syms =>
      ([], some s :: syms) ::
        if types.isComparableTo (types.getType s) (types.getType (.var var)) then
          (runs var syms).map (fun (children, rest) => (s :: children, rest))
        else []
  | syms => [([], syms)]

def candidatesOf (syms : Stack) (var : Variable) : List Candidate :=
  if var.isList then
    (runs types var syms).map (fun (children, rest) => ⟨var, .apply .sexpr children, rest⟩)
  else
    match syms with
    | some next :: rest =>
        if types.isComparableTo (types.getType (.var var)) (types.getType next) then
          [⟨var, next, rest⟩]
        else []
    | _ => []

/-- The candidates that are left for the variables left and the next length for the first. -/
def candidatesLeft (syms : Stack) : List Variable → Nat → List Candidate
  | [], _ => []
  | var :: vars, variant =>
      (if var.isList then (candidatesOf types syms var).drop variant else candidatesOf types syms var)
        ++ vars.flatMap (candidatesOf types syms)

variable {types} {var : Variable} {syms : Stack} {smap : Variable → Option Node}

theorem takeRun_eq (l : Nat) (syms : Stack) : takeRun types var l syms = (runs types var syms)[l]? := by
  induction l generalizing syms with
  | zero =>
      match syms with
      | [] => rfl
      | none :: rest => rfl
      | some s :: rest => rw [takeRun, runs, List.getElem?_cons_zero]
  | succ l ih =>
      match syms with
      | [] => simp [takeRun, runs]
      | none :: rest => simp [takeRun, runs]
      | some s :: rest =>
          rw [takeRun, runs, List.getElem?_cons_succ]
          split
          · rw [ih, List.getElem?_map]
          · rfl

theorem candidatesOf_list (isList : var.isList = true)
    : candidatesOf types syms var
      = (runs types var syms).map (fun (children, rest) => ⟨var, .apply .sexpr children, rest⟩) := by
  unfold candidatesOf
  rw [if_pos isList]

theorem candidatesOf_single (notList : ¬ var.isList = true) {next : Node} {rest : Stack}
    : candidatesOf types (some next :: rest) var
      = if types.isComparableTo (types.getType (.var var)) (types.getType next) then [⟨var, next, rest⟩]
        else [] := by
  unfold candidatesOf
  rw [if_neg notList]

theorem candidatesOf_nil (notList : ¬ var.isList = true)
    (notSome : ∀ next rest, syms = some next :: rest → False)
    : candidatesOf types syms var = [] := by
  unfold candidatesOf
  rw [if_neg notList]
  split
  · exact (notSome _ _ rfl).elim
  · rfl

/-- The candidate of a list variable for a length. -/
theorem drop_candidatesOf (isList : var.isList = true) {l : Nat} {children : List Node} {rest : Stack}
    (taken : takeRun types var l syms = some (children, rest))
    : (candidatesOf types syms var).drop l
      = ⟨var, .apply .sexpr children, rest⟩ :: (candidatesOf types syms var).drop (l + 1) := by
  rw [takeRun_eq] at taken
  obtain ⟨below, isRun⟩ := List.getElem?_eq_some_iff.mp taken
  rw [candidatesOf_list isList, List.drop_eq_getElem_cons (by simpa using below)]
  simp [isRun]

theorem candidatesLeft_zero (vars : List Variable)
    : candidatesLeft types syms vars 0 = vars.flatMap (candidatesOf types syms) := by
  cases vars with
  | nil => rfl
  | cons var vars => rw [candidatesLeft, List.drop_zero, ite_self, List.flatMap_cons]

/-- Only a list variable is tried with lengths. -/
def Reset : List Variable → Nat → Prop
  | var :: _, variant => var.isList = true ∨ variant = 0
  | [], _ => True

theorem reset_zero (vars : List Variable) : Reset vars 0 := by
  cases vars with
  | nil => trivial
  | cons var vars => exact Or.inr rfl

/-- What the loop over the variables returns is the first candidate that the bindings accept. -/
def FirstAccepted (types : Types) (syms : Stack) (smap : Variable → Option Node) (vars : List Variable)
    (index variant : Nat) : Option Attempt → Prop
  | none => ∀ c ∈ candidatesLeft types syms vars variant, accepts smap c.var c.next = false
  | some a => ∃ rejected,
      candidatesLeft types syms vars variant
        = rejected ++ ⟨a.var, a.next, a.syms⟩
          :: candidatesLeft types syms (vars.drop (a.index - index)) a.variant
      ∧ (∀ c ∈ rejected, accepts smap c.var c.next = false)
      ∧ accepts smap a.var a.next = true ∧ a.var ∈ vars ∧ index ≤ a.index
      ∧ Reset (vars.drop (a.index - index)) a.variant

/-- A rejected candidate in front does not change what is found first. -/
theorem FirstAccepted.skip {vars vars' : List Variable} {index index' variant variant' : Nat}
    {rejected : List Candidate} {result : Option Attempt}
    (found : FirstAccepted types syms smap vars' index' variant' result)
    (isLeft : candidatesLeft types syms vars variant
      = rejected ++ candidatesLeft types syms vars' variant')
    (isRejected : ∀ c ∈ rejected, accepts smap c.var c.next = false)
    (isSuffix : vars' = vars.drop (index' - index)) (le : index ≤ index')
    : FirstAccepted types syms smap vars index variant result := by
  cases result with
  | none =>
      intro c member
      rw [isLeft] at member
      exact (List.mem_append.mp member).elim (isRejected c) (found c)
  | some a =>
      obtain ⟨others, isOthers, areRejected, isAccepted, isVar, later, isReset⟩ := found
      have sameDrop : index' - index + (a.index - index') = a.index - index := by omega
      rw [isSuffix, List.drop_drop, sameDrop] at isReset isOthers
      refine ⟨rejected ++ others, ?_, ?_, isAccepted, ?_, Nat.le_trans le later, isReset⟩
      · rw [isLeft, isSuffix, isOthers, List.append_assoc]
      · exact fun c member => (List.mem_append.mp member).elim (isRejected c) (areRejected c)
      · rw [isSuffix] at isVar
        exact List.mem_of_mem_drop isVar

theorem tryVars_spec (vars : List Variable) (index variant : Nat) (isReset : Reset vars variant)
    : FirstAccepted types syms smap vars index variant
      (tryVars types syms smap vars index variant) := by
  fun_induction tryVars types syms smap vars index variant with
  | case1 index variant => exact nofun
  | case2 syms var vars index variant isList children rest taken next isAccepted =>
      refine ⟨[], ?_, nofun, isAccepted, List.mem_cons_self .., Nat.le_refl _, ?_⟩
      · rw [Nat.sub_self, List.drop_zero, candidatesLeft, candidatesLeft, if_pos isList, if_pos isList,
          List.nil_append, drop_candidatesOf isList taken, List.cons_append]
      · rw [Nat.sub_self]
        exact Or.inl isList
  | case3 syms var vars index variant isList children rest taken next notAccepted ih =>
      have isLeft : candidatesLeft types syms (var :: vars) variant
          = [⟨var, next, rest⟩] ++ candidatesLeft types syms (var :: vars) (variant + 1) := by
        rw [candidatesLeft, candidatesLeft, if_pos isList, if_pos isList,
          drop_candidatesOf isList taken, List.cons_append, List.singleton_append]
      exact (ih (Or.inl isList)).skip isLeft (by simpa using notAccepted) (by simp) (Nat.le_refl _)
  | case4 syms var vars index variant isList taken ih =>
      have isEnd : (candidatesOf types syms var).length ≤ variant := by
        rw [takeRun_eq] at taken
        rw [candidatesOf_list isList, List.length_map]
        exact List.getElem?_eq_none_iff.mp taken
      have isLeft : candidatesLeft types syms (var :: vars) variant
          = [] ++ candidatesLeft types syms vars 0 := by
        rw [candidatesLeft, if_pos isList, List.drop_eq_nil_of_le isEnd, candidatesLeft_zero]
      exact (ih (reset_zero vars)).skip isLeft nofun (by simp) (Nat.le_succ _)
  | case5 var vars index variant notList next rest isAccepted =>
      have isZero : variant = 0 := isReset.resolve_left notList
      rw [Bool.and_eq_true] at isAccepted
      refine ⟨[], ?_, nofun, isAccepted.2, List.mem_cons_self .., Nat.le_succ _, ?_⟩
      · rw [candidatesLeft, if_neg notList, candidatesOf_single notList, if_pos isAccepted.1, isZero,
          Nat.add_sub_cancel_left, List.drop_succ_cons, List.drop_zero, candidatesLeft_zero]
        rfl
      · rw [isZero]
        exact reset_zero _
  | case6 var vars index variant notList next rest notAccepted ih =>
      have isZero : variant = 0 := isReset.resolve_left notList
      subst isZero
      have isLeft : candidatesLeft types (some next :: rest) (var :: vars) 0
          = candidatesOf types (some next :: rest) var
            ++ candidatesLeft types (some next :: rest) vars 0 := by
        rw [candidatesLeft_zero, candidatesLeft_zero, List.flatMap_cons]
      refine (ih (reset_zero vars)).skip isLeft (fun c member => ?_) (by simp) (Nat.le_succ _)
      rw [candidatesOf_single notList] at member
      split at member
      · next isComparable =>
          rw [List.mem_singleton.mp member]
          simpa [isComparable] using notAccepted
      · cases member
  | case7 var vars index variant notList syms notSome ih =>
      have isZero : variant = 0 := isReset.resolve_left notList
      subst isZero
      have isLeft : candidatesLeft types syms (var :: vars) 0
          = [] ++ candidatesLeft types syms vars 0 := by
        rw [candidatesLeft_zero, candidatesLeft_zero, List.flatMap_cons,
          candidatesOf_nil notList notSome]
      exact (ih (reset_zero vars)).skip isLeft nofun (by simp) (Nat.le_succ _)

/-- The pattern at the end of a path, if there is one, and the bindings there. -/
abbrev Found := Option Node × Bindings

def Bindings.extend (b : Bindings) (v : Variable) (next : Node) : Bindings :=
  if (b.smap v).isNone then b.bind v next else b

mutual

/-- All that is found in a trie for symbols, first along the operator and then for the variables. -/
def matchesIn (types : Types) : Trie → Stack → Bindings → List Found
  | .node _ _ data, [], b => [(data, b)]
  | .node children vars _, next :: rest, b =>
      matchesBelow types (children (keyOf next)) (Search.pushChildren next rest) b
      ++ (vars.flatMap (candidatesOf types (next :: rest))).flatMap (fun c =>
        if accepts b.smap c.var c.next then
          matchesBelow types (children (.var c.var)) c.syms (b.extend c.var c.next)
        else [])

def matchesBelow (types : Types) : Option Trie → Stack → Bindings → List Found
  | none, _, _ => []
  | some t, syms, b => matchesIn types t syms b

end

mutual

/-- There is an edge for each variable that is listed. -/
def VarsValid : Trie → Prop
  | .node children vars _ =>
      (∀ v ∈ vars, (children (.var v)).isSome) ∧ ∀ k, VarsValidBelow (children k)

def VarsValidBelow : Option Trie → Prop
  | none => True
  | some t => VarsValid t

end

/-- What the callback gets. -/
def Found.call (found : Found) : Notification :=
  (found.1, found.2.vars.reverse, found.2.subs.reverse)

theorem Bindings.unbind_bind {b : Bindings} {v : Variable} (next : Node) (isNew : b.smap v = none)
    : (b.bind v next).unbind = b := by
  have restored : Function.update (Function.update b.smap v (some next)) v none = b.smap := by
    rw [Function.update_idem, ← isNew, Function.update_eq_self]
  obtain ⟨vars, subs, smap⟩ := b
  simp only [Bindings.bind, Bindings.unbind, List.tail_cons] at restored ⊢
  rw [restored]

namespace Search

/-- A callback that always continues. -/
def always : List Notification → Bool := fun _ => true

/-- After at least one round of the loop. -/
def Reaches (types : Types) (s s' : Search) : Prop :=
  ∃ rounds, ∀ more, run types always (rounds + 1 + more) s = run types always more s'

variable {s s' s'' : Search}

theorem Reaches.trans (first : Reaches types s s') (second : Reaches types s' s'')
    : Reaches types s s'' := by
  obtain ⟨rounds, isFirst⟩ := first
  obtain ⟨rounds', isSecond⟩ := second
  refine ⟨rounds + (rounds' + 1), fun more => ?_⟩
  have same : rounds + (rounds' + 1) + 1 + more = rounds + 1 + (rounds' + 1 + more) := by omega
  rw [same, isFirst, isSecond]

theorem reaches_of_step (isStep : s.step types always = .running s') : Reaches types s s' := by
  refine ⟨0, fun more => ?_⟩
  rw [Nat.zero_add, Nat.add_comm, run, isStep]

/-- A round does not see the difference between two states. -/
theorem Reaches.of_same_step (reaches : Reaches types s' s'')
    (same : s.step types always = s'.step types always)
    : Reaches types s s'' := by
  obtain ⟨rounds, isRun⟩ := reaches
  refine ⟨rounds, fun more => ?_⟩
  have next : rounds + 1 + more = rounds + more + 1 := by omega
  rw [← isRun, next, run, run, same]

/-- The search is done with the frame on top, having found all there is. -/
def Explores (types : Types) (t : Trie) : Prop :=
  ∀ syms b visit notified, Reaches types ⟨⟨syms, t, 0, 0, false⟩ :: visit, b, notified⟩
    ⟨visit, b, notified ++ (matchesIn types t syms b).map Found.call⟩

/-- What is found for a candidate. -/
def matchesFor (types : Types) (children : Key → Option Trie) (b : Bindings) (c : Candidate)
    : List Found :=
  if accepts b.smap c.var c.next then
    matchesBelow types (children (.var c.var)) c.syms (b.extend c.var c.next)
  else []

theorem flatMap_matchesFor_of_rejected {children : Key → Option Trie} {b : Bindings}
    {rejected : List Candidate} (isRejected : ∀ c ∈ rejected, accepts b.smap c.var c.next = false)
    : rejected.flatMap (matchesFor types children b) = [] := by
  rw [List.flatMap_eq_nil_iff]
  intro c member
  rw [matchesFor, isRejected c member]
  rfl

variable {children : Key → Option Trie} {vars : List Variable} {data : Option Node}

/-- A frame that has bound a variable goes on as one without the binding. -/
theorem step_after_binding {syms : Stack} (notEmpty : syms ≠ []) {t : Trie} {index variant : Nat}
    {visit : List Frame} {b : Bindings} {v : Variable} {next : Node} {notified : List Notification}
    : step types always ⟨⟨syms, t, index, variant, (b.smap v).isNone⟩ :: visit, b.extend v next, notified⟩
      = step types always ⟨⟨syms, t, index, variant, false⟩ :: visit, b, notified⟩ := by
  cases syms with
  | nil => exact absurd rfl notEmpty
  | cons sym rest =>
      cases isNew : b.smap v with
      | some bound => simp only [Option.isNone_some, Bindings.extend, isNew, Bool.false_eq_true, if_false]
      | none =>
          simp only [Option.isNone_none, Bindings.extend, isNew, if_true, step,
            Bindings.unbind_bind next isNew, Bool.false_eq_true, if_false]

/-- The variables of a trie are tried one after the other. -/
theorem explores_vars (below : ∀ k child, children k = some child → Explores types child)
    (valid : ∀ v ∈ vars, (children (.var v)).isSome) (sym : Option Node) (rest : Stack) (b : Bindings)
    (visit : List Frame) (index variant : Nat) (notified : List Notification)
    (isReset : Reset (vars.drop index) variant)
    : Reaches types
        ⟨⟨sym :: rest, .node children vars data, index + 1, variant, false⟩ :: visit, b, notified⟩
        ⟨visit, b, notified ++ ((candidatesLeft types (sym :: rest) (vars.drop index) variant).flatMap
          (matchesFor types children b)).map Found.call⟩ := by
  induction left : (candidatesLeft types (sym :: rest) (vars.drop index) variant).length
    using Nat.strong_induction_on generalizing index variant notified with
  | _ bound ih =>
  have found : FirstAccepted types (sym :: rest) b.smap (vars.drop index) (index + 1) variant
      (tryVars types (sym :: rest) b.smap (vars.drop index) (index + 1) variant) :=
    tryVars_spec (vars.drop index) (index + 1) variant isReset
  cases isResult : tryVars types (sym :: rest) b.smap (vars.drop index) (index + 1) variant with
  | none =>
      rw [isResult] at found
      rw [flatMap_matchesFor_of_rejected found]
      apply reaches_of_step
      simp [step, Trie.vars, isResult]
  | some a =>
      rw [isResult] at found
      obtain ⟨rejected, isLeft, isRejected, isAccepted, isVar, later, isReset'⟩ := found
      obtain ⟨child, isChild⟩ := Option.isSome_iff_exists.mp (valid a.var (List.mem_of_mem_drop isVar))
      have isStep : step types always
          ⟨⟨sym :: rest, .node children vars data, index + 1, variant, false⟩ :: visit, b, notified⟩
          = .running ⟨⟨a.syms, child, 0, 0, false⟩
            :: ⟨sym :: rest, .node children vars data, a.index, a.variant, (b.smap a.var).isNone⟩
            :: visit, b.extend a.var a.next, notified⟩ := by
        simp [step, Trie.vars, isResult, Trie.children, isChild, Bindings.extend]
      have explored := below _ child isChild a.syms (b.extend a.var a.next)
        (⟨sym :: rest, .node children vars data, a.index, a.variant, (b.smap a.var).isNone⟩ :: visit)
        notified
      obtain ⟨index', isIndex⟩ := Nat.exists_eq_add_of_le' later
      have sameDrop : (vars.drop index).drop (a.index - (index + 1)) = vars.drop (index + index') := by
        rw [List.drop_drop]
        congr 1
        omega
      have sameIndex : a.index = index + index' + 1 := by omega
      rw [sameDrop] at isLeft isReset'
      have remaining := ih _ (by rw [← left, isLeft]; simp; omega) (index + index') a.variant
        (notified ++ (matchesIn types child a.syms (b.extend a.var a.next)).map Found.call) isReset' rfl
      rw [← sameIndex] at remaining
      have goesOn : step types always
          ⟨⟨sym :: rest, .node children vars data, a.index, a.variant, (b.smap a.var).isNone⟩ :: visit,
            b.extend a.var a.next,
            notified ++ (matchesIn types child a.syms (b.extend a.var a.next)).map Found.call⟩
          = _ := step_after_binding (by simp)
      rw [isLeft, List.flatMap_append, flatMap_matchesFor_of_rejected isRejected, List.nil_append,
        List.flatMap_cons, List.map_append]
      have isFound : matchesFor types children b ⟨a.var, a.next, a.syms⟩
          = matchesIn types child a.syms (b.extend a.var a.next) := by
        rw [matchesFor, if_pos isAccepted, isChild, matchesBelow]
      rw [isFound, ← List.append_assoc]
      exact (reaches_of_step isStep).trans (explored.trans (remaining.of_same_step goesOn))

mutual

/-- The search finds every match below a trie and nothing else, by induction on the trie. -/
theorem explores (t : Trie) (valid : VarsValid t) : Explores types t := by
  match t with
  | .node children vars data =>
      rw [VarsValid] at valid
      have below : ∀ k child, children k = some child → Explores types child := fun k child isChild =>
        explores_below (children k) (valid.2 k) child isChild
      intro syms b visit notified
      cases syms with
      | nil =>
          apply reaches_of_step
          simp [step, always, matchesIn, Found.call, Trie.data]
      | cons sym rest =>
          have others (notified : List Notification) : Reaches types
              ⟨⟨sym :: rest, .node children vars data, 1, 0, false⟩ :: visit, b, notified⟩
              ⟨visit, b, notified ++ ((vars.flatMap (candidatesOf types (sym :: rest))).flatMap
                (matchesFor types children b)).map Found.call⟩ := by
            rw [← candidatesLeft_zero]
            exact explores_vars below valid.1 sym rest b visit 0 0 notified (reset_zero _)
          rw [matchesIn, List.map_append, ← List.append_assoc]
          cases isChild : children (keyOf sym) with
          | none =>
              have first : Reaches types
                  ⟨⟨sym :: rest, .node children vars data, 0, 0, false⟩ :: visit, b, notified⟩
                  ⟨⟨sym :: rest, .node children vars data, 1, 0, false⟩ :: visit, b, notified⟩ :=
                reaches_of_step (by simp [step, Trie.children, isChild])
              rw [matchesBelow, List.map_nil, List.append_nil]
              exact first.trans (others notified)
          | some child =>
              have first : Reaches types
                  ⟨⟨sym :: rest, .node children vars data, 0, 0, false⟩ :: visit, b, notified⟩
                  ⟨⟨pushChildren sym rest, child, 0, 0, false⟩
                    :: ⟨sym :: rest, .node children vars data, 1, 0, false⟩ :: visit, b, notified⟩ :=
                reaches_of_step (by simp [step, Trie.children, isChild])
              rw [matchesBelow]
              exact first.trans ((below _ child isChild _ b _ notified).trans (others _))

theorem explores_below (below : Option Trie) (valid : VarsValidBelow below)
    : ∀ t, below = some t → Explores types t := by
  match below with
  | none => exact nofun
  | some t =>
      rintro _ ⟨⟩
      rw [VarsValidBelow] at valid
      exact explores t valid

end

end Search

namespace Search

variable (notify : List Notification → Bool)

end Search

end Ava6.Expr.Nary

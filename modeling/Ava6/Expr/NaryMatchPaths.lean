import Ava6.Expr.NaryMatchSearch

/-! A trie as a set of paths: adding a pattern adds its path, and the search finds the patterns at the
ends of the paths that match.
-/

namespace Ava6.Expr.Nary

namespace Node

mutual

/-- The variables of a node, without the function symbols that it applies. -/
def vars : Node → List Variable
  | .var v => [v]
  | .const _ => []
  | .apply _ children => varsIn children

def varsIn : List Node → List Variable
  | [] => []
  | node :: rest => vars node ++ varsIn rest

end

theorem varsIn_eq_flatMap (nodes : List Node) : varsIn nodes = nodes.flatMap vars := by
  induction nodes with
  | nil => rfl
  | cons node rest ih => rw [varsIn, ih, List.flatMap_cons]

mutual

/-- The function symbols that a node applies. -/
def symbols : Node → List Variable
  | .var _ | .const _ => []
  | .apply (.symbol f) children => f :: symbolsIn children
  | .apply _ children => symbolsIn children

def symbolsIn : List Node → List Variable
  | [] => []
  | node :: rest => symbols node ++ symbolsIn rest

end

mutual

/-- All variables and function symbols of a node are allowed as arguments and as operators. -/
def Only (allowed : Variable → Bool → Prop) : Node → Prop
  | .var v => allowed v false
  | .const _ => True
  | .apply op children => (∀ f, op = .symbol f → allowed f true) ∧ AllOnly allowed children

def AllOnly (allowed : Variable → Bool → Prop) : List Node → Prop
  | [] => True
  | node :: rest => Only allowed node ∧ AllOnly allowed rest

end

variable {allowed : Variable → Bool → Prop}

theorem allOnly_iff {nodes : List Node} : AllOnly allowed nodes ↔ ∀ n ∈ nodes, n.Only allowed := by
  induction nodes with
  | nil => simp [AllOnly]
  | cons node rest ih => rw [AllOnly, ih, List.forall_mem_cons]

mutual

theorem only_iff (n : Node)
    : n.Only allowed ↔ (∀ v ∈ n.vars, allowed v false) ∧ ∀ f ∈ n.symbols, allowed f true := by
  match n with
  | .var v => simp [Only, vars, symbols]
  | .const c => simp [Only, vars, symbols]
  | .apply op children =>
      rw [Only, allOnly_iff_vars children, vars]
      cases op with
      | symbol g => simp [symbols, and_left_comm]
      | fixed _ _ | nary _ | variadic _ | sexpr | typeOf | setEmptyOfType | seqEmptyOfType => simp [symbols]

theorem allOnly_iff_vars (nodes : List Node)
    : AllOnly allowed nodes ↔ (∀ v ∈ varsIn nodes, allowed v false) ∧ ∀ f ∈ symbolsIn nodes, allowed f true := by
  match nodes with
  | [] => simp [AllOnly, varsIn, symbolsIn]
  | node :: rest =>
      rw [AllOnly, only_iff node, allOnly_iff_vars rest, varsIn, symbolsIn, List.forall_mem_append,
        List.forall_mem_append]
      exact and_and_and_comm

end

end Node

def stackVars (syms : Stack) : List Variable := syms.flatMap (fun sym => (sym.map Node.vars).getD [])

theorem stackVars_expand (op : Operator) (children : List Node) (rest : Stack)
    : stackVars (expand op children rest) = Node.varsIn children ++ stackVars rest := by
  have nodes : stackVars (children.map some) = Node.varsIn children := by
    rw [stackVars, List.flatMap_map, Node.varsIn_eq_flatMap]
    rfl
  rw [expand, stackVars, List.flatMap_append]
  refine congrArg₂ (· ++ ·) nodes ?_
  split
  · rfl
  · rfl

/-- All that occurs in the nodes of a stack is allowed. -/
def StackOnly (allowed : Variable → Bool → Prop) (syms : Stack) : Prop := ∀ n, some n ∈ syms → n.Only allowed

section Only

variable {allowed : Variable → Bool → Prop} {sym : Option Node} {rest : Stack}

theorem StackOnly.tail (only : StackOnly allowed (sym :: rest)) : StackOnly allowed rest :=
  fun n member => only n (List.mem_cons_of_mem _ member)

theorem StackOnly.expand {op : Operator} {children : List Node}
    (only : StackOnly allowed (some (.apply op children) :: rest))
    : StackOnly allowed (expand op children rest) := by
  have node := only _ (List.mem_cons_self ..)
  rw [Node.Only, Node.allOnly_iff] at node
  intro n member
  rw [Nary.expand, List.mem_append] at member
  rcases member with child | later
  · obtain ⟨n', isChild, same⟩ := List.mem_map.mp child
    exact Option.some.inj same ▸ node.2 n' isChild
  · split at later
    · exact only.tail n ((List.mem_cons.mp later).resolve_left (fun isNone => by cases isNone))
    · exact only.tail n later

/-- The search does not come across what is not there at its start. -/
theorem StackOnly.pushChildren (only : StackOnly allowed (sym :: rest))
    : StackOnly allowed (Search.pushChildren sym rest) := by
  match sym with
  | some (.apply op children) => exact only.expand
  | none | some (.var _) | some (.const _) => exact only.tail

theorem StackOnly.var {v : Variable} (only : StackOnly allowed (some (.var v) :: rest)) : allowed v false := by
  have node := only _ (List.mem_cons_self ..)
  rwa [Node.Only] at node

theorem StackOnly.operator {op : Operator} {children : List Node} {f : Variable}
    (only : StackOnly allowed (some (.apply op children) :: rest)) (isSymbol : op = .symbol f)
    : allowed f true := by
  have node := only _ (List.mem_cons_self ..)
  rw [Node.Only] at node
  exact node.1 f isSymbol

end Only

-- Paths

/-- The edges that a pattern follows. -/
def encode (visit : Stack) : List Key :=
  match visit with
  | [] => []
  | none :: visit => .null :: encode visit
  | some (.apply op children) :: visit => operatorKey op :: encode (expand op children visit)
  | some (.const c) :: visit => .const c :: encode visit
  | some (.var v) :: visit => .var v :: encode visit
termination_by stackSize visit
decreasing_by
  · simp [stackSize]
  · exact stackSize_expand_lt ..
  · simp [stackSize, Node.size]
  · simp [stackSize, Node.size]

-- The function symbols that patterns apply.
variable (applied : Variable → Bool)

namespace Trie

/-- The variable of an edge is listed, unless it is a function symbol that is applied. -/
def listKey (t : Trie) : Key → Trie
  | .var v => if applied v then t else t.addVar v
  | _ => t

def addPath (n : Node) : List Key → Trie → Trie
  | [], t => t.setData n
  | k :: path, t => (t.listKey applied k).setChild k (addPath n path (t.child k))

theorem listKey_operatorKey (t : Trie) {op : Operator} (isApplied : ∀ f, op = .symbol f → applied f = true)
    : t.listKey applied (operatorKey op) = t := by
  cases op with
  | symbol f => rw [operatorKey, listKey, if_pos (isApplied f rfl)]
  | fixed _ _ | nary _ | variadic _ | sexpr | typeOf | setEmptyOfType | seqEmptyOfType => rfl

theorem addLoop_eq (n : Node) (visit : Stack) (t : Trie)
    (separate : StackOnly (fun v isApplied => applied v = isApplied) visit)
    : addLoop n visit t = addPath applied n (encode visit) t := by
  fun_induction addLoop n visit t with
  | case1 t => rw [encode, addPath]
  | case2 t visit ih =>
      rw [encode, addPath, ih separate.tail, listKey]
      exact nofun
  | case3 t op children visit ih =>
      rw [encode, addPath, ih separate.expand, listKey_operatorKey applied t (fun f => separate.operator)]
  | case4 t c visit ih =>
      rw [encode, addPath, ih separate.tail, listKey]
      exact nofun
  | case5 t v visit ih => rw [encode, addPath, ih separate.tail, listKey, separate.var, if_neg Bool.false_ne_true]

def descend : List Key → Trie → Option Trie
  | [], t => some t
  | k :: path, t => (t.children k).bind (descend path)

def lookup (path : List Key) (t : Trie) : Option Node := (t.descend path).bind data

variable {t : Trie} {k : Key}

theorem listKey_eq (t : Trie) (k : Key)
    : (t.listKey applied k).children = t.children ∧ (t.listKey applied k).data = t.data
      ∧ (∀ v, v ∈ (t.listKey applied k).vars ↔ v ∈ t.vars ∨ k = .var v ∧ applied v = false)
      ∧ (t.vars.Nodup → (t.listKey applied k).vars.Nodup) := by
  cases k with
  | null | op f | const c => exact ⟨rfl, rfl, fun v => by simp [listKey], id⟩
  | var w =>
      rw [listKey]
      split
      · next isApplied =>
          refine ⟨rfl, rfl, fun v => (or_iff_left ?_).symm, id⟩
          rintro ⟨⟨⟩, notApplied⟩
          exact Bool.false_ne_true (notApplied.symm.trans isApplied)
      · next notApplied =>
          refine ⟨rfl, rfl, fun v => ?_, fun nodup => ?_⟩
          · rw [addVar, vars]
            split
            · next known =>
                have isKnown : w ∈ t.vars := by simpa using known
                exact ⟨Or.inl, fun either => either.elim id (fun found => Key.var.inj found.1 ▸ isKnown)⟩
            · have isNew : applied w = false := by simpa using notApplied
              rw [List.mem_append, List.mem_singleton, Key.var.injEq]
              exact or_congr_right ⟨fun same => ⟨same.symm, same ▸ isNew⟩, fun found => found.1.symm⟩
          · rw [addVar, vars]
            split
            · exact nodup
            · next notKnown => exact nodup.append (List.nodup_singleton w) (by simpa using notKnown)

theorem descend_child {path : List Key}
    : t.descend (k :: path) = (t.children k).bind (descend path) := rfl

theorem lookup_child {path : List Key}
    : t.lookup (k :: path) = (t.child k).lookup path := by
  rw [lookup, descend_child, child]
  cases t.children k with
  | none =>
      cases path with
      | nil => rfl
      | cons k' path => rfl
  | some t' => rfl

/-- The first edge of a path is added, whether it is a variable or not. -/
theorem addPath_cons (n : Node) (k : Key) (path : List Key) (t : Trie)
    : ∃ vars, addPath applied n (k :: path) t
        = .node (Function.update t.children k (some (addPath applied n path (t.child k)))) vars t.data
      ∧ (∀ v, v ∈ vars ↔ v ∈ t.vars ∨ k = .var v ∧ applied v = false) ∧ (t.vars.Nodup → vars.Nodup) := by
  obtain ⟨isChildren, isData, isVars, nodup⟩ := listKey_eq applied t k
  refine ⟨(t.listKey applied k).vars, ?_, isVars, nodup⟩
  rw [addPath, setChild, isChildren, isData]

/-- Adding a pattern changes the pattern at the end of its path only. -/
theorem lookup_addPath (n : Node) (path path' : List Key) (t : Trie)
    : (addPath applied n path t).lookup path' = if path' = path then some n else t.lookup path' := by
  induction path generalizing path' t with
  | nil =>
      cases path' with
      | nil => rfl
      | cons k' path' => rfl
  | cons k path ih =>
      obtain ⟨vars, isNode, -⟩ := addPath_cons applied n k path t
      rw [isNode]
      cases path' with
      | nil => rfl
      | cons k' path' =>
          by_cases same : k' = k
          · subst same
            rw [lookup_child, lookup_child]
            simp only [child, children, Function.update_self, Option.getD_some, ih, List.cons.injEq,
              true_and]
          · rw [if_neg (by simp [same]), lookup_child, lookup_child]
            simp only [child, children, Function.update_of_ne same]

/-- The paths there are after adding one. -/
theorem descend_addPath (n : Node) (path path' : List Key) (t : Trie)
    (exists' : ((addPath applied n path t).descend path').isSome)
    : path' <+: path ∨ (t.descend path').isSome := by
  induction path generalizing path' t with
  | nil =>
      cases path' with
      | nil => exact Or.inl List.prefix_rfl
      | cons k' path' => exact Or.inr exists'
  | cons k path ih =>
      obtain ⟨vars, isNode, -⟩ := addPath_cons applied n k path t
      rw [isNode] at exists'
      cases path' with
      | nil => exact Or.inl (List.nil_prefix ..)
      | cons k' path' =>
          rw [descend_child, children] at exists'
          by_cases same : k' = k
          · subst same
            rw [Function.update_self] at exists'
            rcases ih path' (t.child k') exists' with isPrefix | old
            · exact Or.inl (List.prefix_cons_iff.mpr (Or.inr ⟨_, rfl, isPrefix⟩))
            · rw [child] at old
              rw [descend_child]
              cases isChild : t.children k' with
              | some t' =>
                  rw [isChild] at old
                  exact Or.inr old
              | none =>
                  rw [isChild] at old
                  cases path' with
                  | nil => exact Or.inl (List.prefix_cons_iff.mpr (Or.inr ⟨_, rfl, List.nil_prefix ..⟩))
                  | cons k'' path'' => cases old
          · rw [Function.update_of_ne same] at exists'
            exact Or.inr exists'

end Trie

mutual

/-- The variables listed are those with an edge that are not applied, each once. -/
def VarsExact : Trie → Prop
  | .node children vars _ =>
      vars.Nodup ∧ (∀ v, v ∈ vars ↔ (children (.var v)).isSome ∧ applied v = false)
      ∧ ∀ k, VarsExactBelow (children k)

def VarsExactBelow : Option Trie → Prop
  | none => True
  | some t => VarsExact t

end

variable {applied}

mutual

theorem VarsExact.valid (t : Trie) (exact : VarsExact applied t) : VarsValid t := by
  match t with
  | .node children vars data =>
      rw [VarsExact] at exact
      rw [VarsValid]
      exact ⟨fun v member => ((exact.2.1 v).mp member).1,
        fun k => VarsExactBelow.valid (children k) (exact.2.2 k)⟩

theorem VarsExactBelow.valid (below : Option Trie) (exact : VarsExactBelow applied below)
    : VarsValidBelow below := by
  match below with
  | none => simp [VarsValidBelow]
  | some t =>
      rw [VarsExactBelow] at exact
      rw [VarsValidBelow]
      exact VarsExact.valid t exact

end

theorem varsExact_empty : VarsExact applied .empty := by
  rw [Trie.empty, VarsExact]
  exact ⟨List.nodup_nil, by simp, fun k => by simp [VarsExactBelow]⟩

theorem VarsExact.addPath (n : Node) (path : List Key) {t : Trie} (exact : VarsExact applied t)
    : VarsExact applied (t.addPath applied n path) := by
  induction path generalizing t with
  | nil =>
      obtain ⟨children, vars, data⟩ := t
      simpa only [Trie.addPath, Trie.setData, Trie.children, Trie.vars, VarsExact] using exact
  | cons k path ih =>
      obtain ⟨vars, isNode, isVars, nodup⟩ := Trie.addPath_cons applied n k path t
      rw [isNode]
      obtain ⟨children, vars', data⟩ := t
      rw [VarsExact] at exact ⊢
      obtain ⟨nodup', edges, below⟩ := exact
      have child : VarsExact applied ((Trie.node children vars' data).child k) := by
        rw [Trie.child, Trie.children]
        cases isChild : children k with
        | none => exact varsExact_empty
        | some t' =>
            have valid := below k
            rw [isChild, VarsExactBelow] at valid
            exact valid
      refine ⟨nodup nodup', fun v => ?_, fun k' => ?_⟩
      · rw [isVars v]
        by_cases same : Key.var v = k
        · rw [← same, Trie.children, Function.update_self]
          refine ⟨fun either => ⟨rfl, either.elim (fun member => ((edges v).mp member).2) And.right⟩, fun found => ?_⟩
          exact Or.inr ⟨rfl, found.2⟩
        · rw [Trie.children, Function.update_of_ne same, ← edges v]
          exact or_iff_left (fun found => same found.1.symm)
      · by_cases same : k' = k
        · rw [same, Trie.children, Function.update_self, VarsExactBelow]
          exact ih child
        · rw [Trie.children, Function.update_of_ne same]
          exact below k'

-- Matches of paths

/-- Symbols follow a path, which takes bindings to others. Function symbols that are applied are not bound. -/
inductive PathMatches (types : Types) (applied : Variable → Bool) : List Key → Stack → Bindings → Bindings → Prop
  | done {b : Bindings} : PathMatches types applied [] [] b b
  | symbol {next : Option Node} {rest : Stack} {path : List Key} {b b' : Bindings}
    (below : PathMatches types applied path (Search.pushChildren next rest) b b')
    : PathMatches types applied (keyOf next :: path) (next :: rest) b b'
  | candidate {sym : Option Node} {rest : Stack} {path : List Key} {b b' : Bindings} {v : Variable}
    {c : Candidate} (notApplied : applied v = false) (isCandidate : c ∈ candidatesOf types (sym :: rest) v)
    (isAccepted : accepts b.smap v c.next = true)
    (below : PathMatches types applied path c.syms (b.extend v c.next) b')
    : PathMatches types applied (.var v :: path) (sym :: rest) b b'

variable {types : Types} {syms : Stack} {v : Variable}

variable {c : Candidate}

theorem candidate_var (isCandidate : c ∈ candidatesOf types syms v) : c.var = v := by
  unfold candidatesOf at isCandidate
  split at isCandidate
  · obtain ⟨run, _, rfl⟩ := List.mem_map.mp isCandidate
    rfl
  · split at isCandidate
    · split at isCandidate
      · rw [List.mem_singleton.mp isCandidate]
      · cases isCandidate
    · cases isCandidate

mutual

/-- What the recursion finds is what is at the ends of the paths that match. -/
theorem mem_matchesIn (t : Trie) (exact : VarsExact applied t) (syms : Stack) (b : Bindings) (found : Found)
    : found ∈ matchesIn types t syms b
      ↔ ∃ path t', t.descend path = some t' ∧ t'.data = found.1
        ∧ PathMatches types applied path syms b found.2 := by
  match t with
  | .node children vars data =>
      rw [VarsExact] at exact
      obtain ⟨_, edges, below⟩ := exact
      have child (k : Key) := mem_matchesBelow (children k) (below k)
      cases syms with
      | nil =>
          rw [matchesIn, List.mem_singleton]
          constructor
          · rintro rfl
            exact ⟨[], _, rfl, rfl, .done⟩
          · rintro ⟨path, t', isEnd, isData, isMatch⟩
            cases isMatch
            cases isEnd
            exact Prod.ext isData.symm rfl
      | cons sym rest =>
          rw [matchesIn, List.mem_append, child, List.mem_flatMap]
          constructor
          · rintro (⟨t', isChild, path, t'', isEnd, isData, isMatch⟩ | ⟨c, isCandidate, member⟩)
            · refine ⟨keyOf sym :: path, t'', ?_, isData, .symbol isMatch⟩
              rw [Trie.descend_child, Trie.children, isChild]
              exact isEnd
            · obtain ⟨v, isVar, isCandidate⟩ := List.mem_flatMap.mp isCandidate
              obtain rfl := candidate_var isCandidate
              split at member
              · next isAccepted =>
                  obtain ⟨t', isChild, path, t'', isEnd, isData, isMatch⟩ := (child _ _ _ _).mp member
                  have notApplied := ((edges c.var).mp isVar).2
                  refine ⟨.var c.var :: path, t'', ?_, isData, .candidate notApplied isCandidate isAccepted isMatch⟩
                  rw [Trie.descend_child, Trie.children, isChild]
                  exact isEnd
              · cases member
          · rintro ⟨path, t', isEnd, isData, isMatch⟩
            cases isMatch with
            | @symbol _ _ path _ _ isMatch =>
                obtain ⟨t'', isChild, isEnd⟩ := Option.bind_eq_some_iff.mp isEnd
                exact Or.inl ⟨t'', isChild, path, t', isEnd, isData, isMatch⟩
            | @candidate _ _ path _ _ v c notApplied isCandidate isAccepted isMatch =>
                obtain ⟨t'', isChild, isBelow⟩ := Option.bind_eq_some_iff.mp isEnd
                have isVar : v ∈ vars := (edges v).mpr ⟨Option.isSome_of_eq_some isChild, notApplied⟩
                refine Or.inr ⟨c, List.mem_flatMap.mpr ⟨v, isVar, isCandidate⟩, ?_⟩
                obtain rfl := candidate_var isCandidate
                rw [if_pos isAccepted, child]
                exact ⟨t'', isChild, path, t', isBelow, isData, isMatch⟩

theorem mem_matchesBelow (below : Option Trie) (exact : VarsExactBelow applied below) (syms : Stack)
    (b : Bindings) (found : Found)
    : found ∈ matchesBelow types below syms b
      ↔ ∃ t, below = some t ∧ ∃ path t', t.descend path = some t' ∧ t'.data = found.1
        ∧ PathMatches types applied path syms b found.2 := by
  match below with
  | none => simp [matchesBelow]
  | some t =>
      rw [VarsExactBelow] at exact
      rw [matchesBelow, mem_matchesIn t exact]
      simp

end

-- No repetitions

variable {b : Bindings}

theorem extend_smap {next : Node} (isAccepted : accepts b.smap v next = true)
    : (b.extend v next).smap = Function.update b.smap v (some next) := by
  rw [Bindings.extend]
  cases isBound : b.smap v with
  | none => rfl
  | some bound =>
      have same : bound = next := by simpa [accepts, isBound] using isAccepted
      rw [← same, ← isBound, Function.update_eq_self, if_neg (by simp [isBound])]

variable {w : Variable}

/-- Bindings are kept along a path. -/
theorem PathMatches.keeps {path : List Key} {b' : Bindings} (isMatch : PathMatches types applied path syms b b')
    {x : Node} (isBound : b.smap w = some x)
    : b'.smap w = some x := by
  induction isMatch with
  | done => exact isBound
  | symbol _ ih => exact ih isBound
  | @candidate _ _ _ b _ v c _ _ isAccepted _ ih =>
      refine ih ?_
      rw [extend_smap isAccepted]
      by_cases same : w = v
      · subst same
        have isNext : x = c.next := by simpa [accepts, isBound] using isAccepted
        rw [Function.update_self, isNext]
      · rw [Function.update_of_ne same, isBound]

theorem runs_nodup (var : Variable) (syms : Stack) : ((runs types var syms).map Prod.fst).Nodup := by
  have lengths : (runs types var syms).map (fun run => run.1.length)
      = List.range (runs types var syms).length := by
    induction syms with
    | nil => rfl
    | cons sym rest ih =>
        cases sym with
        | none => rfl
        | some s =>
            rw [runs]
            split
            · simp only [List.map_cons, List.map_map, List.length_cons, List.length_map,
                List.range_succ_eq_map, List.length_nil]
              rw [← ih, List.map_map]
              rfl
            · rfl
  have distinct : ((runs types var syms).map (fun run => run.1.length)).Nodup :=
    lengths ▸ List.nodup_range
  refine List.Nodup.of_map List.length ?_
  rwa [List.map_map]

/-- Candidates differ in their variable or in its value. -/
theorem candidates_distinct {vars : List Variable} (nodup : vars.Nodup) (syms : Stack)
    : (vars.flatMap (candidatesOf types syms)).Pairwise (fun c c' => c.var ≠ c'.var ∨ c.next ≠ c'.next)
      := by
  rw [List.pairwise_flatMap]
  refine ⟨fun v _ => ?_, nodup.imp (fun {v w} different c isCandidate c' isCandidate' => Or.inl ?_)⟩
  · by_cases isList : v.isList = true
    · rw [candidatesOf_list isList, List.pairwise_map]
      refine (List.pairwise_map.mp (runs_nodup v syms)).imp (fun {run run'} different => Or.inr ?_)
      simpa using different
    · unfold candidatesOf
      rw [if_neg isList]
      split
      · split
        · exact List.pairwise_singleton ..
        · exact .nil
      · exact .nil
  · rw [candidate_var isCandidate, candidate_var isCandidate']
    exact different

/-- What tells findings apart. -/
def Found.key (found : Found) : Option Node × (Variable → Option Node) := (found.1, found.2.smap)

/-- No pattern is at the ends of two paths. -/
def DataUnique (t : Trie) : Prop :=
  ∀ path path' p, t.lookup path = some p → t.lookup path' = some p → path = path'

theorem DataUnique.child {t t' : Trie} {k : Key} (unique : DataUnique t) (isChild : t.children k = some t')
    : DataUnique t' := by
  intro path path' p isData isData'
  have isLookup (path : List Key) : t.lookup (k :: path) = t'.lookup path := by
    rw [Trie.lookup_child, Trie.child, isChild]
    rfl
  have same := unique (k :: path) (k :: path') p ((isLookup path).trans isData)
    ((isLookup path').trans isData')
  exact (List.cons.inj same).2

theorem runs_suffix {var : Variable} {syms : Stack} {run : List Node × Stack}
    (isRun : run ∈ runs types var syms)
    : syms = run.1.map some ++ run.2
      ∧ ∀ s ∈ run.1, types.isComparableTo (types.getType s) (types.getType (.var var)) = true := by
  induction syms generalizing run with
  | nil =>
      rw [runs, List.mem_singleton] at isRun
      · rw [isRun]
        exact ⟨rfl, by simp⟩
      · exact fun _ _ isCons => by cases isCons
  | cons sym rest ih =>
      cases sym with
      | none =>
          rw [runs, List.mem_singleton] at isRun
          · rw [isRun]
            exact ⟨rfl, by simp⟩
          · exact fun _ _ isCons => by cases isCons
      | some s =>
          rw [runs, List.mem_cons] at isRun
          rcases isRun with rfl | isRun
          · exact ⟨rfl, by simp⟩
          · split at isRun
            · next isComparable =>
                obtain ⟨run', isRun', rfl⟩ := List.mem_map.mp isRun
                obtain ⟨isSyms, comparable⟩ := ih isRun'
                refine ⟨by rw [isSyms]; rfl, fun s' member => ?_⟩
                rcases List.mem_cons.mp member with rfl | later
                · exact isComparable
                · exact comparable s' later
            · cases isRun

/-- A candidate takes one symbol of comparable type, or a run of them. -/
theorem candidatesOf_cases (isCandidate : c ∈ candidatesOf types syms v)
    : (v.isList = true ∧ ∃ run, c.next = .apply .sexpr run ∧ syms = run.map some ++ c.syms
        ∧ ∀ s ∈ run, types.isComparableTo (types.getType s) (types.getType (.var v)) = true)
      ∨ (v.isList = false ∧ syms = some c.next :: c.syms
        ∧ types.isComparableTo (types.getType (.var v)) (types.getType c.next) = true) := by
  by_cases isList : v.isList = true
  · rw [candidatesOf_list isList] at isCandidate
    obtain ⟨run, isRun, rfl⟩ := List.mem_map.mp isCandidate
    obtain ⟨isSyms, comparable⟩ := runs_suffix isRun
    exact Or.inl ⟨isList, run.1, rfl, isSyms, comparable⟩
  · match syms with
    | some next :: rest =>
        rw [candidatesOf_single isList] at isCandidate
        split at isCandidate
        · next isComparable =>
            rw [List.mem_singleton.mp isCandidate]
            exact Or.inr ⟨by simpa using isList, rfl, isComparable⟩
        · cases isCandidate
    | [] =>
        rw [candidatesOf_nil isList (by simp)] at isCandidate
        cases isCandidate
    | none :: rest =>
        rw [candidatesOf_nil isList (by simp)] at isCandidate
        cases isCandidate

theorem StackOnly.candidate {allowed : Variable → Bool → Prop} (only : StackOnly allowed syms)
    (isCandidate : c ∈ candidatesOf types syms v)
    : StackOnly allowed c.syms := by
  intro n member
  refine only n ?_
  rcases candidatesOf_cases isCandidate with ⟨_, run, _, isSyms, _⟩ | ⟨_, isSyms, _⟩
  · rw [isSyms]
    exact List.mem_append_right _ member
  · rw [isSyms]
    exact List.mem_cons_of_mem _ member

theorem operatorKey_injective : Function.Injective operatorKey := by
  intro op op' same
  cases op with
  | symbol f => cases op' <;> simp_all [operatorKey]
  | fixed _ _ | nary _ | variadic _ | sexpr | typeOf | setEmptyOfType | seqEmptyOfType =>
      cases op' <;> simp_all [operatorKey]

theorem keyOf_eq_var {sym : Option Node} (isKey : keyOf sym = .var w)
    : sym = some (.var w) ∨ ∃ children, sym = some (.apply (.symbol w) children) := by
  match sym with
  | some (.var v) =>
      rw [keyOf, Key.var.injEq] at isKey
      exact Or.inl (by rw [isKey])
  | some (.apply op children) =>
      refine Or.inr ⟨children, ?_⟩
      rw [operatorKey_injective (isKey.trans rfl : operatorKey op = operatorKey (.symbol w))]
  | none | some (.const _) => cases isKey

/-- In a node to match, no variable is one of the patterns, and a function symbol that these apply is no
argument.
-/
def Foreign (applied : Variable → Bool) (V : Variable → Prop) (v : Variable) (isApplied : Bool) : Prop :=
  ¬V v ∧ (isApplied = false → applied v = false)

/-- A symbol of a node to match does not follow the edge of a variable. -/
theorem keyOf_ne_var {V : Variable → Prop} {sym : Option Node} {rest : Stack}
    (foreign : StackOnly (Foreign applied V) (sym :: rest)) (isVar : V w)
    : keyOf sym ≠ .var w := by
  intro isKey
  rcases keyOf_eq_var isKey with rfl | ⟨children, rfl⟩
  · exact foreign.var.1 isVar
  · exact (foreign.operator rfl).1 isVar

/-- The variables on the edges of a trie. -/
def EdgeVars (applied : Variable → Bool) (V : Variable → Prop) (t : Trie) : Prop :=
  ∀ path, (t.descend path).isSome → ∀ w, Key.var w ∈ path → applied w = false → V w

theorem EdgeVars.child {V : Variable → Prop} {t t' : Trie} {k : Key} (edgeVars : EdgeVars applied V t)
    (isChild : t.children k = some t')
    : EdgeVars applied V t' := by
  intro path exists' w member
  refine edgeVars (k :: path) ?_ w (List.mem_cons_of_mem _ member)
  rwa [Trie.descend_child, isChild]

variable {found : Found}

/-- A pattern that is found is at the end of a path with this first edge. -/
theorem lookup_of_mem_matchesBelow {t : Trie} {k : Key} {p : Node}
    (exact : VarsExactBelow applied (t.children k)) (member : found ∈ matchesBelow types (t.children k) syms b)
    (isData : found.1 = some p)
    : ∃ path, t.lookup (k :: path) = some p ∧ PathMatches types applied path syms b found.2 := by
  obtain ⟨t', isChild, path, t'', isEnd, isData', isMatch⟩ := (mem_matchesBelow _ exact _ _ _).mp member
  refine ⟨path, ?_, isMatch⟩
  rw [Trie.lookup, Trie.descend_child, isChild, Option.bind_some, isEnd, Option.bind_some, isData', isData]

/-- Findings for different first edges are different patterns. -/
theorem found_key_ne {t : Trie} (unique : DataUnique t) (exact : ∀ k, VarsExactBelow applied (t.children k))
    {k k' : Key} {syms syms' : Stack} {b' : Bindings} {found' : Found} (different : k ≠ k')
    (member : found ∈ matchesBelow types (t.children k) syms b)
    (member' : found' ∈ matchesBelow types (t.children k') syms' b') (hasData : found.1.isSome)
    : found.key ≠ found'.key := by
  intro sameKey
  obtain ⟨p, isData⟩ := Option.isSome_iff_exists.mp hasData
  have isData' : found'.1 = some p := (congrArg Prod.fst sameKey).symm.trans isData
  obtain ⟨path, isLookup, _⟩ := lookup_of_mem_matchesBelow (exact k) member isData
  obtain ⟨path', isLookup', _⟩ := lookup_of_mem_matchesBelow (exact k') member' isData'
  exact different (List.cons.inj (unique _ _ p isLookup isLookup')).1

/-- Findings after a candidate bind its variable to its value. -/
theorem smap_of_mem_matchesFor {children : Key → Option Trie} (exact : ∀ k, VarsExactBelow applied (children k))
    (member : found ∈ Search.matchesFor types children b c)
    : found.2.smap c.var = some c.next
      ∧ found ∈ matchesBelow types (children (.var c.var)) c.syms (b.extend c.var c.next) := by
  rw [Search.matchesFor] at member
  split at member
  · next isAccepted =>
      obtain ⟨_, _, path, _, _, _, isMatch⟩ := (mem_matchesBelow _ (exact _) _ _ _).mp member
      refine ⟨isMatch.keeps ?_, member⟩
      rw [extend_smap isAccepted, Function.update_self]
  · cases member

mutual

/-- Nothing is found twice in a trie whose variables do not occur in the symbols. -/
theorem nodup_matchesIn {V : Variable → Prop} (t : Trie) (exact : VarsExact applied t) (unique : DataUnique t)
    (edgeVars : EdgeVars applied V t) (syms : Stack) (b : Bindings) (foreign : StackOnly (Foreign applied V) syms)
    (allData : ∀ found ∈ matchesIn types t syms b, found.1.isSome)
    : ((matchesIn types t syms b).map Found.key).Nodup := by
  match t with
  | .node children vars data =>
      rw [VarsExact] at exact
      obtain ⟨nodupVars, edges, exactBelow⟩ := exact
      have below (k : Key) := nodup_matchesBelow (children k) (exactBelow k)
        (fun t' isChild => unique.child isChild) (fun t' isChild => edgeVars.child isChild)
      cases syms with
      | nil =>
          rw [matchesIn]
          exact List.nodup_singleton _
      | cons sym rest =>
          rw [matchesIn] at allData ⊢
          have dataFirst := fun found member => allData found (List.mem_append_left _ member)
          have dataVars := fun found member => allData found (List.mem_append_right _ member)
          rw [List.map_append, List.map_flatMap, List.nodup_append]
          refine ⟨?_, List.nodup_flatMap.mpr ⟨?_, ?_⟩, ?_⟩
          · exact below _ _ _ foreign.pushChildren dataFirst
          · intro c isCandidate
            obtain ⟨v, _, isOf⟩ := List.mem_flatMap.mp isCandidate
            have dataOf := fun found member =>
              dataVars found (List.mem_flatMap.mpr ⟨c, isCandidate, member⟩)
            split at dataOf
            · next isAccepted =>
                rw [if_pos isAccepted]
                exact below _ _ _ (foreign.candidate isOf) dataOf
            · next notAccepted =>
                rw [if_neg notAccepted]
                exact List.nodup_nil
          · refine (candidates_distinct nodupVars _).imp_of_mem ?_
            intro c c' isCandidate isCandidate' distinct key member member'
            obtain ⟨found, isFound, rfl⟩ := List.mem_map.mp member
            obtain ⟨found', isFound', sameKey⟩ := List.mem_map.mp member'
            have hasData := dataVars found (List.mem_flatMap.mpr ⟨c, isCandidate, isFound⟩)
            obtain ⟨isBound, inBelow⟩ := smap_of_mem_matchesFor exactBelow isFound
            obtain ⟨isBound', inBelow'⟩ := smap_of_mem_matchesFor exactBelow isFound'
            by_cases sameVar : c.var = c'.var
            · have differ : c.next ≠ c'.next := distinct.resolve_left (not_not_intro sameVar)
              have sameMap : found'.2.smap = found.2.smap := congrArg Prod.snd sameKey
              rw [sameMap, ← sameVar, isBound] at isBound'
              exact differ (Option.some.inj isBound')
            · have differ : Key.var c.var ≠ .var c'.var := fun same => sameVar (Key.var.inj same)
              exact found_key_ne unique exactBelow differ inBelow inBelow' hasData sameKey.symm
          · intro key member key' member'
            obtain ⟨found, isFound, rfl⟩ := List.mem_map.mp member
            obtain ⟨c, isCandidate, isIn⟩ := List.mem_flatMap.mp member'
            obtain ⟨found', isFound', rfl⟩ := List.mem_map.mp isIn
            obtain ⟨_, inBelow'⟩ := smap_of_mem_matchesFor exactBelow isFound'
            obtain ⟨v, isVar, isOf⟩ := List.mem_flatMap.mp isCandidate
            obtain rfl := candidate_var isOf
            obtain ⟨hasEdge, notApplied⟩ := (edges c.var).mp isVar
            have differ : keyOf sym ≠ .var c.var := by
              obtain ⟨t', isChild⟩ := Option.isSome_iff_exists.mp hasEdge
              refine keyOf_ne_var foreign (edgeVars [.var c.var] ?_ c.var (List.mem_singleton_self _) notApplied)
              rw [Trie.descend_child, Trie.children, isChild]
              rfl
            exact found_key_ne unique exactBelow differ isFound inBelow' (dataFirst found isFound)

theorem nodup_matchesBelow {V : Variable → Prop} (below : Option Trie) (exact : VarsExactBelow applied below)
    (unique : ∀ t, below = some t → DataUnique t) (edgeVars : ∀ t, below = some t → EdgeVars applied V t)
    (syms : Stack) (b : Bindings) (foreign : StackOnly (Foreign applied V) syms)
    (allData : ∀ found ∈ matchesBelow types below syms b, found.1.isSome)
    : ((matchesBelow types below syms b).map Found.key).Nodup := by
  match below with
  | none =>
      rw [matchesBelow]
      exact List.nodup_nil
  | some t =>
      rw [VarsExactBelow] at exact
      rw [matchesBelow] at allData ⊢
      exact nodup_matchesIn t exact (unique t rfl) (edgeVars t rfl) syms b foreign allData

end

end Ava6.Expr.Nary

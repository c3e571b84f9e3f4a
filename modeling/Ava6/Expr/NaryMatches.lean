import Ava6.Expr.NaryInstances

/-! Symbols follow the path of a pattern exactly if they are its instance for values of fitting type.
-/

namespace Ava6.Expr.Nary

/-- The values a variable can take: a node of comparable type, or a list of nodes of comparable types. -/
def FitsVar (types : Types) (v : Variable) (x : Node) : Prop :=
  if v.isList then
    ∃ run, x = .apply .sexpr run
      ∧ ∀ s ∈ run, types.isComparableTo (types.getType s) (types.getType (.var v)) = true
  else types.isComparableTo (types.getType (.var v)) (types.getType x) = true

/-- A pattern matches a node under a substitution of its variables. -/
structure Matches (types : Types) (p n : Node) (smap : Variable → Option Node) : Prop where
  isInstance : inst smap p = [n]
  domain : ∀ v, (smap v).isSome ↔ v ∈ p.vars
  fits : ∀ v x, smap v = some x → FitsVar types v x

variable {types : Types} {applied : Variable → Bool} {V : Variable → Prop} {path : List Key} {syms : Stack}
  {b b' : Bindings}

theorem candidate_fits {v : Variable} {c : Candidate} (isCandidate : c ∈ candidatesOf types syms v)
    : FitsVar types v c.next := by
  rw [FitsVar]
  rcases candidatesOf_cases isCandidate with ⟨isList, run, isNext, _, comparable⟩ | ⟨notList, _, comparable⟩
  · rw [if_pos isList]
    exact ⟨run, isNext, comparable⟩
  · rw [if_neg (by simp [notList])]
    exact comparable

theorem PathMatches.fits (isMatch : PathMatches types applied path syms b b')
    (fits : ∀ v x, b.smap v = some x → FitsVar types v x)
    : ∀ v x, b'.smap v = some x → FitsVar types v x := by
  induction isMatch with
  | done => exact fits
  | symbol _ ih => exact ih fits
  | @candidate _ _ _ b _ v c _ isCandidate isAccepted _ ih =>
      refine ih (fun w x isBound => ?_)
      rw [extend_smap isAccepted] at isBound
      by_cases same : w = v
      · subst same
        rw [Function.update_self] at isBound
        exact Option.some.inj isBound ▸ candidate_fits isCandidate
      · rw [Function.update_of_ne same] at isBound
        exact fits w x isBound

/-- The variables on a path are bound, and no others. -/
theorem PathMatches.domain (isMatch : PathMatches types applied path syms b b')
    (onPath : ∀ w, .var w ∈ path → applied w = false → V w) (foreign : StackOnly (Foreign applied V) syms)
    {w : Variable} (notApplied : applied w = false)
    : (b'.smap w).isSome ↔ (b.smap w).isSome ∨ .var w ∈ path := by
  induction isMatch with
  | done => simp
  | @symbol next rest path _ _ _ ih =>
      have notKey : Key.var w ≠ keyOf next := fun isKey =>
        keyOf_ne_var foreign (onPath w (isKey ▸ List.mem_cons_self ..) notApplied) isKey.symm
      rw [ih (fun v inPath => onPath v (List.mem_cons_of_mem _ inPath)) foreign.pushChildren, List.mem_cons,
        or_iff_right notKey]
  | @candidate _ _ path b _ v c _ isCandidate isAccepted _ ih =>
      rw [ih (fun v inPath => onPath v (List.mem_cons_of_mem _ inPath)) (foreign.candidate isCandidate),
        extend_smap isAccepted, List.mem_cons]
      by_cases same : w = v
      · subst same
        simp
      · rw [Function.update_of_ne same]
        simp [same]

/-- Only variables that are not applied are bound. -/
theorem PathMatches.notApplied (isMatch : PathMatches types applied path syms b b') {w : Variable}
    (isApplied : applied w = true)
    : b'.smap w = b.smap w := by
  induction isMatch with
  | done => rfl
  | symbol _ ih => exact ih
  | @candidate _ _ _ b _ v c notApplied _ isAccepted _ ih =>
      have differ : w ≠ v := by
        rintro rfl
        exact Bool.false_ne_true (notApplied.symm.trans isApplied)
      rw [ih, extend_smap isAccepted, Function.update_of_ne differ]

theorem mem_encode (ps : Stack) (separate : StackOnly (fun v isApplied => applied v = isApplied) ps)
    {w : Variable} (notApplied : applied w = false)
    : .var w ∈ encode ps ↔ w ∈ stackVars ps := by
  fun_induction encode ps with
  | case1 => simp [stackVars]
  | case2 rest ih => simpa [stackVars] using ih separate.tail
  | case3 op children rest ih =>
      have notKey : Key.var w ≠ operatorKey op := by
        intro isKey
        have isApplied : applied w = true := separate.operator (operatorKey_injective isKey.symm)
        exact Bool.false_ne_true (notApplied.symm.trans isApplied)
      rw [List.mem_cons, or_iff_right notKey, ih separate.expand, stackVars_expand]
      rfl
  | case4 c rest ih => simpa [stackVars, Node.vars] using ih separate.tail
  | case5 v rest ih => simpa [stackVars, Node.vars] using or_congr_right (ih separate.tail)

theorem wellFormed_pushChildren {sym : Option Node} {rest : Stack}
    (wellFormed : ∀ n, some n ∈ sym :: rest → WellFormed n)
    : ∀ n, some n ∈ Search.pushChildren sym rest → WellFormed n := by
  have inRest : ∀ n, some n ∈ rest → WellFormed n :=
    fun n member => wellFormed n (List.mem_cons_of_mem _ member)
  rcases sym with _ | (v | c | ⟨op, children⟩)
  · exact inRest
  · exact inRest
  · exact inRest
  · have node := wellFormed _ (List.mem_cons_self ..)
    rw [WellFormed, allWellFormed_iff] at node
    intro n member
    rw [Search.pushChildren, expand, List.mem_append] at member
    rcases member with child | later
    · obtain ⟨n', isChild, same⟩ := List.mem_map.mp child
      exact Option.some.inj same ▸ node.2 n' isChild
    · split at later
      · exact inRest n ((List.mem_cons.mp later).resolve_left (fun isNone => by cases isNone))
      · exact inRest n later

/-- The instance of what is below an operator tells the instance of the application. -/
theorem isInstance_of_expand {smap : Variable → Option Node} {op : Operator}
    {children children' : List Node} {syms ps ps' : Stack}
    (lists : ListsUnderNary (.apply op children')) (fits : ArityFits op children.length)
    (fits' : ArityFits op children'.length)
    (below : instStack smap (expand op children' ps) = expand op children syms ++ instStack smap ps')
    : instStack smap (some (.apply op children') :: ps)
      = some (.apply op children) :: syms ++ instStack smap ps' := by
  rw [instStack_expand, expand_append] at below
  have lengths : isNAryKind op = false → (insts smap children').length = children.length := by
    intro notNary
    rw [length_insts_of_not_nary lists notNary]
    exact arityFits_length notNary fits' fits
  obtain ⟨sameChildren, sameRest⟩ := expand_injective lengths below
  rw [instStack, inst, sameChildren, sameRest]
  rfl

/-- Symbols on the path of a pattern are its instance, as far as the path goes. -/
theorem PathMatches.isInstance (isMatch : PathMatches types applied path syms b b') {ps : Stack} {rest : List Key}
    (isPath : encode ps = path ++ rest) (guarded : Guarded ps)
    (separate : StackOnly (fun v isApplied => applied v = isApplied) ps)
    (wellFormed : ∀ n, some n ∈ syms → WellFormed n)
    (onPath : ∀ w, .var w ∈ path → applied w = false → V w) (foreign : StackOnly (Foreign applied V) syms)
    : ∃ ps', encode ps' = rest ∧ Guarded ps'
      ∧ ∀ smap, (∀ w x, b'.smap w = some x → smap w = some x)
        → instStack smap ps = syms ++ instStack smap ps' := by
  induction isMatch generalizing ps with
  | done => exact ⟨ps, isPath, guarded, fun _ _ => rfl⟩
  | @symbol next symsRest path _ _ _ ih =>
      cases ps with
      | nil =>
          rw [encode] at isPath
          cases isPath
      | cons sym psRest =>
          rw [encode_cons, List.cons_append] at isPath
          obtain ⟨sameKey, isPath⟩ := List.cons.inj isPath
          have notKey (v : Variable) (notApplied : applied v = false) : keyOf next ≠ .var v := fun isKey =>
            keyOf_ne_var foreign (onPath v (isKey ▸ List.mem_cons_self ..) notApplied) isKey
          have notVar (v : Variable) : next ≠ some (.var v) := by
            rintro rfl
            exact notKey v (foreign.var.2 rfl) rfl
          have notVar' (v : Variable) : sym ≠ some (.var v) := by
            rintro rfl
            exact notKey v separate.var sameKey.symm
          obtain ⟨ps', isRest, guarded', below⟩ := ih isPath guarded.pushChildren separate.pushChildren
            (wellFormed_pushChildren wellFormed)
            (fun w inPath => onPath w (List.mem_cons_of_mem _ inPath)) foreign.pushChildren
          refine ⟨ps', isRest, guarded', fun smap extends' => ?_⟩
          have isBelow := below smap extends'
          rcases keyOf_cases sameKey (fun v _ isVar => absurd isVar (notVar' v))
            (fun v _ isVar => absurd isVar (notVar v)) with rfl | ⟨op, children, children', rfl, rfl⟩
          · rcases sym with _ | (v | c | ⟨op, children⟩)
            · rw [Search.pushChildren, Search.pushChildren] at isBelow
              · simp [instStack, isBelow]
              · exact fun _ _ isApply => by cases isApply
              · exact fun _ _ isApply => by cases isApply
            · exact absurd rfl (notVar v)
            · rw [Search.pushChildren, Search.pushChildren] at isBelow
              · simp [instStack, inst, isBelow]
              · exact fun _ _ isApply => by cases isApply
              · exact fun _ _ isApply => by cases isApply
            · rw [Guarded] at guarded
              have arity := guarded.1
              rw [WellFormed] at arity
              exact isInstance_of_expand guarded.2.1 arity.1 arity.1 isBelow
          · rw [Guarded] at guarded
            have arity := guarded.1
            have arity' := wellFormed _ (List.mem_cons_self ..)
            rw [WellFormed] at arity arity'
            exact isInstance_of_expand guarded.2.1 arity'.1 arity.1 isBelow
  | @candidate sym symsRest path b b' v c notApplied isCandidate isAccepted isMatch ih =>
      cases ps with
      | nil =>
          rw [encode] at isPath
          cases isPath
      | cons sym' psRest =>
          rw [encode_cons, List.cons_append] at isPath
          obtain ⟨sameKey, isPath⟩ := List.cons.inj isPath
          obtain rfl : sym' = some (.var v) := by
            rcases keyOf_eq_var sameKey with isVar | ⟨children, rfl⟩
            · exact isVar
            · exact absurd (notApplied.symm.trans (separate.operator rfl)) Bool.false_ne_true
          have isBound : b'.smap v = some c.next := by
            refine isMatch.keeps ?_
            rw [extend_smap isAccepted, Function.update_self]
          have wellFormedRest : ∀ n, some n ∈ c.syms → WellFormed n := by
            intro n member
            refine wellFormed n ?_
            rcases candidatesOf_cases isCandidate with ⟨_, run, _, isSyms, _⟩ | ⟨_, isSyms, _⟩
            · rw [isSyms]
              exact List.mem_append_right _ member
            · rw [isSyms]
              exact List.mem_cons_of_mem _ member
          obtain ⟨ps', isRest, guarded', below⟩ := ih isPath guarded.tail separate.tail wellFormedRest
            (fun w inPath => onPath w (List.mem_cons_of_mem _ inPath)) (foreign.candidate isCandidate)
          refine ⟨ps', isRest, guarded', fun smap extends' => ?_⟩
          have isBelow : instStack smap psRest = c.syms ++ instStack smap ps' := below smap extends'
          rw [instStack, inst, valueOf, extends' v _ isBound, isBelow]
          rcases candidatesOf_cases isCandidate with ⟨isList, run, isNext, isSyms, _⟩ | ⟨notList, isSyms, _⟩
          · rw [isSyms, isNext, isList, List.append_assoc]
            rfl
          · rw [isSyms, notList]
            rfl

/-- The paths of a trie are those of patterns. -/
structure Represents (applied : Variable → Bool) (patterns : List Node) (t : Trie) : Prop where
  varsExact : VarsExact applied t
  lookup : ∀ path p, t.lookup path = some p ↔ p ∈ patterns ∧ path = encode [some p]
  paths : ∀ path, (t.descend path).isSome → path = [] ∨ ∃ p ∈ patterns, path <+: encode [some p]

theorem IsPattern.guarded {p : Node} (isPattern : IsPattern p) : Guarded [some p] := by
  refine ⟨isPattern.wellFormed, isPattern.listsUnderNary, fun v isVar isList => ?_, trivial⟩
  rw [isPattern.notList v isVar] at isList
  cases isList

/-- Of the variables in a pattern, those that are applied in some pattern are applied everywhere. -/
structure SeparatePattern (applied : Variable → Bool) (p : Node) : Prop extends IsPattern p where
  separate : p.Only (fun v isApplied => applied v = isApplied)

theorem stackOnly_singleton {allowed : Variable → Bool → Prop} {n : Node} (only : n.Only allowed)
    : StackOnly allowed [some n] := by
  intro n' member
  rw [Option.some.inj (List.mem_singleton.mp member)]
  exact only

theorem SeparatePattern.stack {p : Node} (isPattern : SeparatePattern applied p)
    : StackOnly (fun v isApplied => applied v = isApplied) [some p] :=
  stackOnly_singleton isPattern.separate

/-- The variables of a pattern are not applied. -/
theorem SeparatePattern.notApplied {p : Node} (isPattern : SeparatePattern applied p) {v : Variable}
    (member : v ∈ p.vars)
    : applied v = false :=
  ((Node.only_iff p).mp isPattern.separate).1 v member

theorem SeparatePattern.encode_injective {p q : Node} (isPattern : SeparatePattern applied p)
    (isPattern' : SeparatePattern applied q) (same : encode [some p] = encode [some q])
    : p = q :=
  Option.some.inj (List.cons.inj (Nary.encode_injective _ _ isPattern.guarded isPattern'.guarded isPattern.stack
    isPattern'.stack same)).1

theorem Represents.addTerm {patterns : List Node} {t : Trie} {q : Node} (represents : Represents applied patterns t)
    (arePatterns : ∀ p ∈ patterns, SeparatePattern applied p) (isPattern : SeparatePattern applied q)
    : Represents applied (q :: patterns) (t.addTerm q) := by
  rw [Trie.addTerm, Trie.addLoop_eq applied q _ t isPattern.stack]
  refine ⟨represents.varsExact.addPath q _, fun path p => ?_, fun path exists' => ?_⟩
  · rw [Trie.lookup_addPath, List.mem_cons]
    split
    · next isPath =>
        constructor
        · rintro ⟨⟩
          exact ⟨Or.inl rfl, isPath⟩
        · rintro ⟨rfl | member, isPath'⟩
          · rfl
          · rw [(arePatterns p member).encode_injective isPattern (isPath'.symm.trans isPath)]
    · next notPath =>
        rw [represents.lookup]
        constructor
        · rintro ⟨member, isPath⟩
          exact ⟨Or.inr member, isPath⟩
        · rintro ⟨rfl | member, isPath⟩
          · exact absurd isPath notPath
          · exact ⟨member, isPath⟩
  · rcases Trie.descend_addPath applied q _ path t exists' with isPrefix | old
    · exact Or.inr ⟨q, List.mem_cons_self .., isPrefix⟩
    · rcases represents.paths path old with isNil | ⟨p, member, isPrefix⟩
      · exact Or.inl isNil
      · exact Or.inr ⟨p, List.mem_cons_of_mem _ member, isPrefix⟩

theorem Represents.foldl {patterns added : List Node} {t : Trie} (represents : Represents applied patterns t)
    (arePatterns : ∀ p ∈ patterns, SeparatePattern applied p) (areAdded : ∀ p ∈ added, SeparatePattern applied p)
    : Represents applied (added.reverse ++ patterns) (added.foldl Trie.addTerm t) := by
  induction added generalizing patterns t with
  | nil => exact represents
  | cons q added ih =>
      obtain ⟨isPattern, areAdded⟩ := List.forall_mem_cons.mp areAdded
      have all : ∀ p ∈ q :: patterns, SeparatePattern applied p := List.forall_mem_cons.mpr ⟨isPattern, arePatterns⟩
      have isFold := ih (represents.addTerm arePatterns isPattern) all areAdded
      rw [List.reverse_cons, List.append_assoc, List.singleton_append]
      exact isFold

variable {patterns : List Node} {t : Trie} {n : Node}

theorem Represents.edgeVars (represents : Represents applied patterns t)
    (arePatterns : ∀ p ∈ patterns, SeparatePattern applied p)
    : EdgeVars applied (fun v => ∃ p ∈ patterns, v ∈ p.vars) t := by
  intro path exists' v onPath notApplied
  rcases represents.paths path exists' with rfl | ⟨p, member, isPrefix⟩
  · cases onPath
  · refine ⟨p, member, ?_⟩
    have inPattern := (mem_encode [some p] (arePatterns p member).stack notApplied).mp (isPrefix.subset onPath)
    simpa [stackVars] using inPattern

end Ava6.Expr.Nary

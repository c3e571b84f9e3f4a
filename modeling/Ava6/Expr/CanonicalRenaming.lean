import Ava6.Expr.TermCanonizeRuns
import Ava6.Expr.TermOrder
import Ava6.Library.Numbering

/-! Canonical terms characterise renaming, as long as canonical variables are asked for in the order of
their indices: the loop makes the variable of the index that is asked for in every round, so that an
index too far ahead makes several canonical variables the same.
-/

namespace Ava6.Expr.Canonize

open Library

namespace TermCanonize

/-- No index of a canonical variable is left out. -/
def InOrder (s : TermCanonize) : Call → Prop
  | .getCanonicalFreeVar tn i tc => i ≤ (s.cnFreeVar (tn, tc)).length
  | .getCanonicalTerm _ _ _ | .mkCanonicalVar _ _ | .mkOtherVar => True

/-- Any sequence of calls that are allowed where they are made. -/
inductive Runs (allowed : TermCanonize → Call → Prop) : TermCanonize → TermCanonize → Prop
  | refl (s : TermCanonize) : Runs allowed s s
  | call {s s' : TermCanonize} {next : Call} (before : Runs allowed s s') (isAllowed : allowed s' next)
    : Runs allowed s (s'.call next)

variable {s s' : TermCanonize} {c : Config} {n : Node} {allowed : TermCanonize → Call → Prop}

theorem getCanonicalTermVisited_extends (visited : Node → Option Node)
    : Extends s (getCanonicalTermVisited c n visited s).2 :=
  (Traversal.getCanonicalTerm_extends n ⟨s, fun _ => 0, visited⟩ (fun _ => Nat.zero_le _)).1

theorem call_keeps (next : Call) : Keeps s (s.call next) := by
  cases next with
  | getCanonicalTerm c n visited => exact (getCanonicalTermVisited_extends visited).keeps
  | getCanonicalFreeVar tn i tc => exact iterate_keeps _
  | mkCanonicalVar tn n => exact fun key => List.prefix_rfl
  | mkOtherVar => exact fun key => List.prefix_rfl

/-- A run keeps what the canonizer knew, by induction on the calls. -/
theorem Runs.keeps (runs : Runs allowed s s') : Keeps s s' := by
  induction runs with
  | refl => exact fun key => List.prefix_rfl
  | call _ _ ih => exact ih.trans (call_keeps _)

/-- The result of a call is the canonical term for the canonical variables of any later state. -/
theorem getCanonicalTerm_eq (closed : OperatorsClosed n) (kept : Keeps (getCanonicalTerm c n s).2 s')
    : (getCanonicalTerm c n s).1
        = canonicalWith c (Traversal.assignment c s'.cnFreeVar (addVars [] (vars n))) n
      ∧ ∀ v ∈ vars n, number c (addVars [] (vars n)) v < (s'.cnFreeVar (c.key v)).length := by
  have start : Traversal.Inv c s'.cnFreeVar [] ⟨s, fun _ => 0, fun _ => none⟩ :=
    ⟨List.nodup_nil, fun _ => rfl, fun _ => Nat.zero_le _, nofun, nofun⟩
  obtain ⟨isResult, inv⟩ := Traversal.getCanonicalTerm_inv n [] _ closed start kept
  refine ⟨isResult, fun v member => ?_⟩
  have isSeen : v ∈ addVars [] (vars n) :=
    ((addVars_spec [] (vars n) List.nodup_nil).2.2 v).mpr (Or.inr member)
  calc number c (addVars [] (vars n)) v
    _ < (ofKey c (addVars [] (vars n)) (c.key v)).length := number_lt isSeen
    _ = _ := (inv.count (c.key v)).symm
    _ ≤ _ := inv.bounded (c.key v)
    _ ≤ (s'.cnFreeVar (c.key v)).length := (kept (c.key v)).length_le

/-- The variable of an index is the one that was made for it. -/
structure Distinct (s : TermCanonize) : Prop where
  cached : ∀ tn n v, s.boundVars.cache tn n = some v → v.type = tn ∧ v.name < s.boundVars.next
  injective : ∀ tn tn' n n' v, s.boundVars.cache tn n = some v → s.boundVars.cache tn' n' = some v →
    n = n'
  indexed : ∀ tn tc i v, (s.cnFreeVar (tn, tc))[i]? = some v → s.boundVars.cache tn (tc, i) = some v

theorem distinct_initial : Distinct .initial := ⟨nofun, nofun, nofun⟩

theorem mkBoundVar_cache {bvm : BoundVarManager} {tn : TypeNode} {n : Nat × Nat}
    : (bvm.mkBoundVar tn n).2.cache tn n = some (bvm.mkBoundVar tn n).1 := by
  rw [BoundVarManager.mkBoundVar]
  split
  · next v isCached => exact isCached
  · simp

theorem mkBoundVar_keeps {bvm : BoundVarManager} {tn tn' : TypeNode} {n n' : Nat × Nat} {v : Variable}
    (isCached : bvm.cache tn' n' = some v)
    : (bvm.mkBoundVar tn n).2.cache tn' n' = some v := by
  rw [BoundVarManager.mkBoundVar]
  split
  · exact isCached
  · next isNew =>
      by_cases sameType : tn' = tn
      · subst sameType
        have different : n' ≠ n := by
          rintro rfl
          rw [isNew] at isCached
          cases isCached
        simp [Function.update_of_ne different, isCached]
      · simp [Function.update_of_ne sameType, isCached]

theorem mkBoundVar_cases {bvm : BoundVarManager} {tn tn' : TypeNode} {n n' : Nat × Nat} {v : Variable}
    (isCached : (bvm.mkBoundVar tn n).2.cache tn' n' = some v)
    : bvm.cache tn' n' = some v
      ∨ (tn' = tn ∧ n' = n ∧ v = ⟨bvm.next, tn⟩ ∧ (bvm.mkBoundVar tn n).2.next = bvm.next + 1) := by
  rw [BoundVarManager.mkBoundVar] at isCached ⊢
  split at isCached
  · exact Or.inl isCached
  · next isNew =>
      by_cases sameType : tn' = tn
      · subst sameType
        by_cases same : n' = n
        · subst same
          simp only [Function.update_self, Option.some.injEq] at isCached
          exact Or.inr ⟨rfl, rfl, isCached.symm, by simp only⟩
        · exact Or.inl (by simpa [Function.update_of_ne same] using isCached)
      · exact Or.inl (by simpa [Function.update_of_ne sameType] using isCached)

theorem mkBoundVar_next {bvm : BoundVarManager} {tn : TypeNode} {n : Nat × Nat}
    : bvm.next ≤ (bvm.mkBoundVar tn n).2.next := by
  rw [BoundVarManager.mkBoundVar]
  split
  · exact Nat.le_refl _
  · exact Nat.le_succ _

theorem Distinct.mkBoundVar (distinct : Distinct s) (tn : TypeNode) (n : Nat × Nat)
    : Distinct { s with boundVars := (s.boundVars.mkBoundVar tn n).2 } := by
  refine ⟨fun tn' n' v isCached => ?_, fun tn' tn'' n' n'' v isCached isCached' => ?_,
    fun tn' tc i v isIndexed => mkBoundVar_keeps (distinct.indexed tn' tc i v isIndexed)⟩
  · rcases mkBoundVar_cases isCached with old | ⟨rfl, rfl, rfl, isNext⟩
    · obtain ⟨hasType, below⟩ := distinct.cached tn' n' v old
      exact ⟨hasType, Nat.lt_of_lt_of_le below mkBoundVar_next⟩
    · exact ⟨rfl, isNext ▸ Nat.lt_succ_self _⟩
  · rcases mkBoundVar_cases isCached with old | ⟨rfl, rfl, rfl, -⟩ <;>
      rcases mkBoundVar_cases isCached' with old' | ⟨rfl, rfl, isNew, -⟩
    · exact distinct.injective tn' tn'' n' n'' v old old'
    · rw [isNew] at old
      exact absurd (distinct.cached _ _ _ old).2 (Nat.lt_irrefl _)
    · exact absurd (distinct.cached _ _ _ old').2 (Nat.lt_irrefl _)
    · rfl

theorem Distinct.addNext (distinct : Distinct s) (key : Key) : Distinct (s.addNext key) := by
  obtain ⟨tn, tc⟩ := key
  have made := distinct.mkBoundVar tn (tc, (s.cnFreeVar (tn, tc)).length)
  refine ⟨made.cached, made.injective, fun tn' tc' i v isIndexed => ?_⟩
  by_cases same : (tn', tc') = (tn, tc)
  · cases same
    rw [TermCanonize.addNext, addFreeVar_cnFreeVar] at isIndexed
    by_cases isOld : i < (s.cnFreeVar (tn, tc)).length
    · rw [List.getElem?_append_left isOld] at isIndexed
      exact mkBoundVar_keeps (distinct.indexed tn tc i v isIndexed)
    · rw [List.getElem?_append_right (Nat.le_of_not_lt isOld), List.getElem?_singleton] at isIndexed
      split at isIndexed
      · next isLast =>
          have isNext : i = (s.cnFreeVar (tn, tc)).length := by omega
          rw [isNext, ← Option.some.inj isIndexed]
          exact mkBoundVar_cache
      · cases isIndexed
  · rw [TermCanonize.addNext, addFreeVar_of_ne same] at isIndexed
    exact made.indexed tn' tc' i v isIndexed

/-- Adding next variables one after the other keeps them distinct. -/
theorem Distinct.extends (distinct : Distinct s) (extended : Extends s s') : Distinct s' := by
  induction extended with
  | refl => exact distinct
  | addNext key _ ih => exact ih (distinct.addNext key)

/-- A call in order keeps canonical variables distinct, as it adds the next index of a type and class only. -/
theorem Distinct.call (distinct : Distinct s) {next : Call} (inOrder : InOrder s next)
    : Distinct (s.call next) := by
  cases next with
  | getCanonicalTerm c n visited => exact distinct.extends (getCanonicalTermVisited_extends visited)
  | getCanonicalFreeVar tn i tc => exact distinct.extends (getCanonicalFreeVar_spec inOrder).1
  | mkCanonicalVar tn n => exact distinct.mkBoundVar tn n
  | mkOtherVar =>
      refine ⟨fun tn n v isCached => ?_, distinct.injective, distinct.indexed⟩
      obtain ⟨hasType, below⟩ := distinct.cached tn n v isCached
      exact ⟨hasType, Nat.lt_succ_of_lt below⟩

theorem Runs.distinct (runs : Runs InOrder .initial s) : Distinct s := by
  induction runs with
  | refl => exact distinct_initial
  | call _ inOrder ih => exact ih.call inOrder

/-- A bijection between the variables of a term and others that keeps types and type classes. -/
structure IsRenaming (c : Config) (n : Node) (σ : Variable → Variable) : Prop where
  keepsKey : ∀ v ∈ vars n, c.key (σ v) = c.key v
  injective : ∀ v ∈ vars n, ∀ w ∈ vars n, σ v = σ w → v = w

/-- A renaming does not change the canonical term. -/
theorem canonicalWith_of_renaming {σ : Variable → Variable} (closed : OperatorsClosed n)
    (isRenaming : IsRenaming c n σ) (canonicals : Key → List Variable)
    : canonicalWith c (Traversal.assignment c canonicals (addVars [] (vars (rename σ n)))) (rename σ n)
      = canonicalWith c (Traversal.assignment c canonicals (addVars [] (vars n))) n := by
  have seen (v : Variable) : v ∈ addVars [] (vars n) ↔ v ∈ vars n := by
    simpa using (addVars_spec [] (vars n) List.nodup_nil).2.2 v
  have renamed : addVars [] (vars (rename σ n)) = (addVars [] (vars n)).map σ := by
    rw [vars_rename]
    exact addVars_map [] (vars n) (by simpa using isRenaming.injective)
  rw [canonicalWith_rename n closed, renamed]
  refine canonicalWith_congr n (fun v member => ?_)
  have sameKey : c.key (σ v) = c.key v := isRenaming.keepsKey v member
  have sameNumber : number c ((addVars [] (vars n)).map σ) (σ v) = number c (addVars [] (vars n)) v := by
    refine number_map (fun w isSeen => ?_) (fun w isSeen w' isSeen' => ?_) ((seen v).mpr member)
    · exact isRenaming.keepsKey w ((seen w).mp isSeen)
    · exact isRenaming.injective w ((seen w).mp isSeen) w' ((seen w').mp isSeen')
  have sameType : (σ v).type = v.type := congrArg Prod.fst sameKey
  rw [Function.comp_apply, Traversal.assignment, Traversal.assignment, sameKey, sameNumber, sameType]

/-- Distinct canonical variables tell apart variables, types and type classes. -/
theorem Distinct.assignment_injective (distinct : Distinct s) {seen seen' : List Variable}
    {v w : Variable} (below : number c seen v < (s.cnFreeVar (c.key v)).length)
    (below' : number c seen' w < (s.cnFreeVar (c.key w)).length)
    (same : Traversal.assignment c s.cnFreeVar seen v = Traversal.assignment c s.cnFreeVar seen' w)
    : c.key v = c.key w ∧ number c seen v = number c seen' w := by
  have first : (s.cnFreeVar (c.key v))[number c seen v]?
      = some (Traversal.assignment c s.cnFreeVar seen v) := by
    rw [Traversal.assignment, List.getD_eq_getElem?_getD, List.getElem?_eq_getElem below]
    rfl
  have second : (s.cnFreeVar (c.key w))[number c seen' w]?
      = some (Traversal.assignment c s.cnFreeVar seen v) := by
    rw [same, Traversal.assignment, List.getD_eq_getElem?_getD, List.getElem?_eq_getElem below']
    rfl
  have cached := distinct.indexed _ _ _ _ first
  have cached' := distinct.indexed _ _ _ _ second
  have sameIndex := distinct.injective _ _ _ _ _ cached cached'
  have sameType : v.type = w.type :=
    (distinct.cached _ _ _ cached).1.symm.trans (distinct.cached _ _ _ cached').1
  exact ⟨Prod.ext sameType (congrArg Prod.fst sameIndex), congrArg Prod.snd sameIndex⟩

/-- Terms whose renamings agree up to permuted arguments are renamings of each other. -/
theorem exists_renaming (distinct : Distinct s) {n n' : Node} {seen seen' : List Variable}
    (below : ∀ v ∈ vars n, v ∈ seen ∧ number c seen v < (s.cnFreeVar (c.key v)).length)
    (below' : ∀ v ∈ vars n', v ∈ seen' ∧ number c seen' v < (s.cnFreeVar (c.key v)).length)
    (same : Permuted (rename (Traversal.assignment c s.cnFreeVar seen) n)
      (rename (Traversal.assignment c s.cnFreeVar seen') n'))
    : ∃ back : Variable → Variable,
      IsRenaming c n (back ∘ Traversal.assignment c s.cnFreeVar seen)
      ∧ rename back (rename (Traversal.assignment c s.cnFreeVar seen') n') = n' := by
  classical
  set ρ := Traversal.assignment c s.cnFreeVar seen with isRho
  set ρ' := Traversal.assignment c s.cnFreeVar seen' with isRho'
  have injective : ∀ v ∈ vars n, ∀ w ∈ vars n, ρ v = ρ w → v = w := by
    intro v member w member' equal
    obtain ⟨sameKey, sameNumber⟩ :=
      distinct.assignment_injective (below v member).2 (below w member').2 equal
    exact number_injective (below v member).1 sameKey sameNumber
  have injective' : ∀ v ∈ vars n', ∀ w ∈ vars n', ρ' v = ρ' w → v = w := by
    intro v member w member' equal
    obtain ⟨sameKey, sameNumber⟩ :=
      distinct.assignment_injective (below' v member).2 (below' w member').2 equal
    exact number_injective (below' v member).1 sameKey sameNumber
  let back : Variable → Variable := fun x =>
    if isImage : ∃ v ∈ vars n', ρ' v = x then isImage.choose else x
  have back_image : ∀ v ∈ vars n', back (ρ' v) = v := by
    intro v member
    have isImage : ∃ w ∈ vars n', ρ' w = ρ' v := ⟨v, member, rfl⟩
    simp only [back, dif_pos isImage]
    exact injective' _ isImage.choose_spec.1 v member isImage.choose_spec.2
  have partner : ∀ v ∈ vars n, ∃ v' ∈ vars n', ρ' v' = ρ v := by
    intro v member
    have image : ρ v ∈ vars (rename ρ n) := by
      rw [vars_rename]
      exact List.mem_map_of_mem member
    rw [same.mem_vars, vars_rename] at image
    exact List.mem_map.mp image
  refine ⟨back, ⟨fun v member => ?_, fun v member w member' equal => ?_⟩, ?_⟩
  · obtain ⟨v', member', image⟩ := partner v member
    rw [Function.comp_apply, ← image, back_image v' member']
    exact (distinct.assignment_injective (below' v' member').2 (below v member).2 image).1
  · obtain ⟨v', isVar, image⟩ := partner v member
    obtain ⟨w', isVar', image'⟩ := partner w member'
    rw [Function.comp_apply, Function.comp_apply, ← image, ← image', back_image v' isVar,
      back_image w' isVar'] at equal
    refine injective v member w member' ?_
    rw [← image, ← image', equal]
  · rw [rename_rename]
    exact rename_of_fixed back_image

variable {n' : Node} {s'' : TermCanonize}

/-- Calls whose canonical variables are all there in some later state. -/
theorem characterises_of_kept (closed : OperatorsClosed n) (closed' : OperatorsClosed n')
    (distinct : Distinct s'') (kept : Keeps (getCanonicalTerm c n s).2 s'')
    (kept' : Keeps (getCanonicalTerm c n' s').2 s'')
    : ((∃ σ, IsRenaming c n σ ∧ rename σ n = n') →
        (getCanonicalTerm c n s).1 = (getCanonicalTerm c n' s').1)
      ∧ ((getCanonicalTerm c n s).1 = (getCanonicalTerm c n' s').1 →
        ∃ σ, IsRenaming c n σ ∧ Permuted (rename σ n) n')
      ∧ (c.applyTOrder = false → (getCanonicalTerm c n s).1 = (getCanonicalTerm c n' s').1 →
        ∃ σ, IsRenaming c n σ ∧ rename σ n = n') := by
  obtain ⟨isResult, below⟩ := getCanonicalTerm_eq closed kept
  obtain ⟨isResult', below'⟩ := getCanonicalTerm_eq closed' kept'
  have seen (m : Node) (v : Variable) (member : v ∈ vars m) : v ∈ addVars [] (vars m) :=
    ((addVars_spec [] (vars m) List.nodup_nil).2.2 v).mpr (Or.inr member)
  have inverted := exists_renaming distinct (fun v member => ⟨seen n v member, below v member⟩)
    (fun v member => ⟨seen n' v member, below' v member⟩)
  rw [isResult, isResult']
  refine ⟨?_, fun same => ?_, fun notSorted same => ?_⟩
  · rintro ⟨σ, isRenaming, rfl⟩
    exact (canonicalWith_of_renaming closed isRenaming s''.cnFreeVar).symm
  · have permuted := (canonicalWith_permuted n closed).symm.trans
      (same ▸ canonicalWith_permuted n' closed')
    obtain ⟨back, isRenaming, inverse⟩ := inverted permuted
    refine ⟨_, isRenaming, ?_⟩
    rw [← rename_rename, ← inverse]
    exact permuted.rename back
  · rw [canonicalWith_eq_rename notSorted n closed, canonicalWith_eq_rename notSorted n' closed'] at same
    obtain ⟨back, isRenaming, inverse⟩ := inverted (same ▸ .refl _)
    refine ⟨_, isRenaming, ?_⟩
    rw [← rename_rename, same, inverse]

/-- Two calls on one object, in any order and with any calls before and between them that leave out no
index of a canonical variable. -/
theorem canonical_terms_characterise_renaming (injective : Function.Injective c.id)
    (closed : OperatorsClosed n) (closed' : OperatorsClosed n') (reached : Runs InOrder .initial s)
    (reached' : Runs InOrder .initial s')
    (sameObject : Runs InOrder (getCanonicalTerm c n s).2 s'
      ∨ Runs InOrder (getCanonicalTerm c n' s').2 s)
    : ((∃ σ, IsRenaming c n σ ∧ rename σ n = n') →
        (getCanonicalTerm c n s).1 = (getCanonicalTerm c n' s').1)
      ∧ ((getCanonicalTerm c n s).1 = (getCanonicalTerm c n' s').1 →
        ∃ σ, IsRenaming c n σ ∧ Permuted (rename σ n) n')
      ∧ (c.applyTOrder = false → (getCanonicalTerm c n s).1 = (getCanonicalTerm c n' s').1 →
        ∃ σ, IsRenaming c n σ ∧ rename σ n = n')
      ∧ IsStrictTotalOrder { m : Node // IsTerm m } (fun a b => getTermOrder c.id a b = true) := by
  have extended (m : Node) (start : TermCanonize) : Extends start (getCanonicalTerm c m start).2 :=
    getCanonicalTermVisited_extends _
  have isOrder := getTermOrder_strictTotalOrder injective
  rcases sameObject with later | later
  · obtain ⟨same, permuted, exact⟩ := characterises_of_kept closed closed'
      (reached'.distinct.extends (extended n' s')) (later.keeps.trans (extended n' s').keeps)
      (fun key => List.prefix_rfl)
    exact ⟨same, permuted, exact, isOrder⟩
  · obtain ⟨same, permuted, exact⟩ := characterises_of_kept closed closed'
      (reached.distinct.extends (extended n s)) (fun key => List.prefix_rfl)
      (later.keeps.trans (extended n s).keeps)
    exact ⟨same, permuted, exact, isOrder⟩

section Examples

def intVar (name : Nat) : Node := .boundVar ⟨name, ⟨0⟩⟩

/-- An application of a binary operator. -/
def pairOf (a b : Node) : Node := .apply (.other 0) [a, b]

/-- After a call for the canonical variable of index 1 alone, the first two canonical variables are the
same, and so are the canonical terms of two terms that are no renamings of each other. -/
theorem skipped_index_merges_variables
    : ∃ s : TermCanonize, s = TermCanonize.initial.call (.getCanonicalFreeVar ⟨0⟩ 1 0)
      ∧ ∀ id, (getCanonicalTerm ⟨id, none, false, true⟩ (pairOf (intVar 10) (intVar 10)) s).1
          = (getCanonicalTerm ⟨id, none, false, true⟩ (pairOf (intVar 10) (intVar 11))
            (getCanonicalTerm ⟨id, none, false, true⟩ (pairOf (intVar 10) (intVar 10)) s).2).1
        ∧ ¬ ∃ σ, IsRenaming ⟨id, none, false, true⟩ (pairOf (intVar 10) (intVar 10)) σ
          ∧ Permuted (rename σ (pairOf (intVar 10) (intVar 10))) (pairOf (intVar 10) (intVar 11)) := by
  refine ⟨_, rfl, fun id => ⟨rfl, ?_⟩⟩
  rintro ⟨σ, -, permuted⟩
  have first := (permuted.mem_vars ⟨10, ⟨0⟩⟩).mpr (by simp [pairOf, intVar, vars, varsIn])
  have second := (permuted.mem_vars ⟨11, ⟨0⟩⟩).mpr (by simp [pairOf, intVar, vars, varsIn])
  simp only [pairOf, intVar, rename, renames, vars, varsIn, List.append_nil, List.singleton_append,
    List.mem_cons, List.not_mem_nil, or_false, or_self] at first second
  rw [← first] at second
  cases second

deriving instance Encodable for TypeNode
deriving instance Encodable for Variable
deriving instance Encodable for Kind
deriving instance Encodable for Symbol

/-- A number for each node. -/
def nodeNumber : Node → Nat
  | .boundVar v => Nat.pair 0 (Encodable.encode v)
  | .symbol s => Nat.pair 1 (Encodable.encode s)
  | .apply k children => Nat.pair 2 (treeNumber (Encodable.encode k) (children.map nodeNumber))
  | .parameterized op children => Nat.pair 3 (treeNumber (nodeNumber op) (children.map nodeNumber))

theorem nodeNumber_injective (a b : Node) (same : nodeNumber a = nodeNumber b) : a = b := by
  cases a <;> cases b <;> simp only [nodeNumber, Nat.pair_eq_pair, treeNumber_inj] at same <;>
    first
    | exact absurd same.1 (by decide)
    | skip
  · rw [Encodable.encode_injective same.2]
  · rw [Encodable.encode_injective same.2]
  · rw [Encodable.encode_injective same.2.1, eq_of_map_eq (fun n _ m => nodeNumber_injective n m) same.2.2]
  · rw [nodeNumber_injective _ _ same.2.1, eq_of_map_eq (fun n _ m => nodeNumber_injective n m) same.2.2]

theorem renamed_pairs_same_canonical
    : (getCanonicalTerm ⟨nodeNumber, none, true, true⟩ (pairOf (intVar 10) (intVar 11)) .initial).1
      = (getCanonicalTerm ⟨nodeNumber, none, true, true⟩ (pairOf (intVar 11) (intVar 10))
        (getCanonicalTerm ⟨nodeNumber, none, true, true⟩ (pairOf (intVar 10) (intVar 11)) .initial).2).1
      := by
  have closed (a b : Nat) : OperatorsClosed (pairOf (intVar a) (intVar b)) := by
    simp [pairOf, intVar, OperatorsClosed, AllOperatorsClosed]
  have after : Runs InOrder .initial (TermCanonize.initial.call (.getCanonicalTerm
      ⟨nodeNumber, none, true, true⟩ (pairOf (intVar 10) (intVar 11)) (fun _ => none))) :=
    .call (.refl _) trivial
  refine (canonical_terms_characterise_renaming (fun a b => nodeNumber_injective a b) (closed 10 11)
    (closed 11 10) (.refl _) after (Or.inl (.refl _))).1
    ⟨fun v => ⟨21 - v.name, v.type⟩, ⟨fun v member => rfl, fun v member w member' same => ?_⟩, ?_⟩
  · simp only [pairOf, intVar, vars, varsIn, List.append_nil, List.singleton_append, List.mem_cons,
      List.not_mem_nil, or_false] at member member'
    rcases member with rfl | rfl <;> rcases member' with rfl | rfl <;> simp_all
  · simp [pairOf, intVar, rename, renames]

end Examples

end TermCanonize

end Ava6.Expr.Canonize

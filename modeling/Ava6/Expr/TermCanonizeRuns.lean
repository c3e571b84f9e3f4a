import Ava6.Expr.CanonicalTerms

/-! The traversal with its cache computes canonical terms, for canonical variables that no later call
changes.
-/

namespace Ava6.Expr.Canonize

namespace TermCanonize

/-- Another canonical variable with the next index. -/
def addNext (s : TermCanonize) (key : Key) : TermCanonize :=
  s.addFreeVar key.1 (s.cnFreeVar key).length key.2

/-- More canonical variables, in the order of their indices. -/
inductive Extends : TermCanonize → TermCanonize → Prop
  | refl (s : TermCanonize) : Extends s s
  | addNext {s s' : TermCanonize} (key : Key) (rest : Extends (s.addNext key) s') : Extends s s'

theorem Extends.trans {s s' s'' : TermCanonize} (first : Extends s s') (second : Extends s' s'')
    : Extends s s'' := by
  induction first with
  | refl => exact second
  | addNext key _ ih => exact .addNext key (ih second)

variable {s s' : TermCanonize} {tn : TypeNode} {i tc : Nat} {key : Key}

theorem addFreeVar_cnFreeVar
    : (s.addFreeVar tn i tc).cnFreeVar (tn, tc)
      = s.cnFreeVar (tn, tc) ++ [(s.boundVars.mkBoundVar tn (tc, i)).1] := by
  rw [addFreeVar]
  exact Function.update_self ..

theorem addFreeVar_of_ne (different : key ≠ (tn, tc))
    : (s.addFreeVar tn i tc).cnFreeVar key = s.cnFreeVar key := by
  rw [addFreeVar]
  exact Function.update_of_ne different ..

theorem addFreeVar_prefix : s.cnFreeVar key <+: (s.addFreeVar tn i tc).cnFreeVar key := by
  by_cases same : key = (tn, tc)
  · rw [same, addFreeVar_cnFreeVar]
    exact List.prefix_append ..
  · rw [addFreeVar_of_ne same]

/-- Canonical variables stay. -/
def Keeps (s s' : TermCanonize) : Prop := ∀ key, s.cnFreeVar key <+: s'.cnFreeVar key

theorem Keeps.trans {s s' s'' : TermCanonize} (first : Keeps s s') (second : Keeps s' s'')
    : Keeps s s'' :=
  fun key => (first key).trans (second key)

theorem Extends.keeps (extended : Extends s s') : Keeps s s' := by
  induction extended with
  | refl => exact fun key => List.prefix_rfl
  | addNext key _ ih => exact fun key => addFreeVar_prefix.trans (ih key)

theorem iterate_keeps (rounds : Nat) : Keeps s ((fun s => s.addFreeVar tn i tc)^[rounds] s) := by
  induction rounds generalizing s with
  | zero => exact fun key => List.prefix_rfl
  | succ rounds ih =>
      rw [Function.iterate_succ_apply]
      exact fun key => addFreeVar_prefix.trans (ih key)

/-- For an index that is not beyond the next one at most one variable is added. -/
theorem getCanonicalFreeVar_spec (inOrder : i ≤ (s.cnFreeVar (tn, tc)).length)
    : Extends s (s.getCanonicalFreeVar tn i tc).2
      ∧ i < ((s.getCanonicalFreeVar tn i tc).2.cnFreeVar (tn, tc)).length := by
  rw [getCanonicalFreeVar]
  by_cases isNext : i = (s.cnFreeVar (tn, tc)).length
  · have once : i + 1 - (s.cnFreeVar (tn, tc)).length = 1 := by omega
    rw [once, Function.iterate_one]
    refine ⟨.addNext (tn, tc) ?_, ?_⟩
    · rw [addNext, ← isNext]
      exact .refl _
    · rw [addFreeVar_cnFreeVar, List.length_append, List.length_singleton]
      omega
  · have never : i + 1 - (s.cnFreeVar (tn, tc)).length = 0 := by omega
    rw [never, Function.iterate_zero_apply]
    exact ⟨.refl s, Nat.lt_of_le_of_ne inOrder isNext⟩

theorem getCanonicalFreeVar_fst
    : (s.getCanonicalFreeVar tn i tc).1
      = ((s.getCanonicalFreeVar tn i tc).2.cnFreeVar (tn, tc)).getD i ⟨0, tn⟩ := rfl

end TermCanonize

namespace Traversal

open TermCanonize

variable {c : Config} {t : Traversal} {n op first : Node} {k : Kind} {rest : List Node}

theorem getCanonicalTerm_visited {ret : Node} (visited : t.visited n = some ret)
    : getCanonicalTerm c n t = (ret, t) := by
  rw [getCanonicalTerm.eq_def]
  simp only [visited]

theorem getCanonicalTerm_apply (notVisited : t.visited (.apply k (first :: rest)) = none)
    : getCanonicalTerm c (.apply k (first :: rest)) t =
      let (cchildren, t) := getCanonicalTerms c (first :: rest) t
      let ret := .apply k (c.sortChildren k cchildren)
      (ret, t.visit (.apply k (first :: rest)) ret) := by
  rw [getCanonicalTerm]
  simp only [notVisited]

theorem getCanonicalTerm_parameterized
    (notVisited : t.visited (.parameterized op (first :: rest)) = none)
    : getCanonicalTerm c (.parameterized op (first :: rest)) t =
      let (cchildren, t) := getCanonicalTerms c (first :: rest) t
      let (cop, t) := if c.doHoVar then getCanonicalTerm c op t else (op, t)
      let ret := .parameterized cop cchildren
      (ret, t.visit (.parameterized op (first :: rest)) ret) := by
  rw [getCanonicalTerm]
  simp only [notVisited]

/-- There is a canonical variable for each one that is counted. -/
def Bounded (t : Traversal) : Prop := ∀ key, t.varCount key ≤ (t.canonize.cnFreeVar key).length

theorem allocate_extends (bounded : t.Bounded) (v : Variable)
    : Extends t.canonize (allocate c v t).2.canonize ∧ (allocate c v t).2.Bounded := by
  obtain ⟨extended, below⟩ := getCanonicalFreeVar_spec (bounded (c.key v))
  refine ⟨extended, fun key => ?_⟩
  by_cases same : key = c.key v
  · subst same
    simp only [allocate, visit, Function.update_self]
    exact below
  · simp only [allocate, visit, Function.update_of_ne same]
    exact Nat.le_trans (bounded key) (extended.keeps key).length_le

mutual

/-- A traversal takes canonical variables in the order of their indices. -/
theorem getCanonicalTerm_extends (n : Node) (t : Traversal) (bounded : t.Bounded)
    : Extends t.canonize (getCanonicalTerm c n t).2.canonize ∧ (getCanonicalTerm c n t).2.Bounded := by
  cases isVisited : t.visited n with
  | some ret =>
      rw [getCanonicalTerm_visited isVisited]
      exact ⟨.refl _, bounded⟩
  | none =>
      match n with
      | .boundVar v =>
          rw [getCanonicalTerm]
          simp only [isVisited]
          exact allocate_extends bounded v
      | .symbol s =>
          rw [getCanonicalTerm]
          simp only [isVisited]
          exact ⟨.refl _, bounded⟩
      | .apply k [] =>
          rw [getCanonicalTerm]
          simp only [isVisited]
          exact ⟨.refl _, bounded⟩
      | .parameterized op [] =>
          rw [getCanonicalTerm]
          simp only [isVisited]
          exact ⟨.refl _, bounded⟩
      | .apply k (first :: rest) =>
          rw [getCanonicalTerm_apply isVisited]
          exact getCanonicalTerms_extends (first :: rest) t bounded
      | .parameterized op (first :: rest) =>
          obtain ⟨extended, bounded'⟩ := getCanonicalTerms_extends (first :: rest) t bounded
          rw [getCanonicalTerm_parameterized isVisited]
          cases isHo : c.doHoVar with
          | true =>
              obtain ⟨extended', bounded''⟩ := getCanonicalTerm_extends op _ bounded'
              exact ⟨extended.trans extended', bounded''⟩
          | false => exact ⟨extended, bounded'⟩

theorem getCanonicalTerms_extends (nodes : List Node) (t : Traversal) (bounded : t.Bounded)
    : Extends t.canonize (getCanonicalTerms c nodes t).2.canonize
      ∧ (getCanonicalTerms c nodes t).2.Bounded := by
  match nodes with
  | [] =>
      rw [getCanonicalTerms]
      exact ⟨.refl _, bounded⟩
  | node :: rest =>
      obtain ⟨extended, bounded'⟩ := getCanonicalTerm_extends node t bounded
      obtain ⟨extended', bounded''⟩ := getCanonicalTerms_extends rest _ bounded'
      rw [getCanonicalTerms]
      exact ⟨extended.trans extended', bounded''⟩

end

/-- The canonical variable of each variable seen. -/
def assignment (c : Config) (canonicals : Key → List Variable) (seen : List Variable) (v : Variable)
    : Variable :=
  (canonicals (c.key v)).getD (number c seen v) ⟨0, v.type⟩

variable {canonicals : Key → List Variable} {seen : List Variable}

theorem assignment_of_initial {more : List Variable} (isPrefix : seen <+: more) {v : Variable}
    (member : v ∈ seen)
    : assignment c canonicals more v = assignment c canonicals seen v := by
  rw [assignment, assignment, number_of_prefix isPrefix member]

/-- The variables seen are counted, and what is visited has its canonical term. -/
structure Inv (c : Config) (canonicals : Key → List Variable) (seen : List Variable) (t : Traversal)
    : Prop where
  nodup : seen.Nodup
  count : ∀ key, t.varCount key = (ofKey c seen key).length
  bounded : t.Bounded
  seenVisited : ∀ v ∈ seen, t.visited (.boundVar v) ≠ none
  visited : ∀ m ret, t.visited m = some ret →
    (∀ v ∈ vars m, v ∈ seen) ∧ ret = canonicalWith c (assignment c canonicals seen) m

/-- A term all of whose variables are seen may be entered. -/
theorem Inv.visit (inv : Inv c canonicals seen t) {m ret : Node} (known : ∀ v ∈ vars m, v ∈ seen)
    (isCanonical : ret = canonicalWith c (assignment c canonicals seen) m)
    : Inv c canonicals seen (t.visit m ret) := by
  refine ⟨inv.nodup, inv.count, inv.bounded, fun v member isNone => ?_, fun m' ret' isVisited => ?_⟩
  · by_cases same : .boundVar v = m
    · simp only [Traversal.visit, same, Function.update_self, reduceCtorEq] at isNone
    · simp only [Traversal.visit, Function.update_of_ne same] at isNone
      exact inv.seenVisited v member isNone
  · by_cases same : m' = m
    · subst same
      simp only [Traversal.visit, Function.update_self, Option.some.injEq] at isVisited
      rw [← isVisited]
      exact ⟨known, isCanonical⟩
    · simp only [Traversal.visit, Function.update_of_ne same] at isVisited
      exact inv.visited m' ret' isVisited

/-- A new variable gets the next canonical variable of its type and type class. -/
theorem allocate_inv (inv : Inv c canonicals seen t) {v : Variable} (notSeen : v ∉ seen)
    (kept : ∀ key, (allocate c v t).2.canonize.cnFreeVar key <+: canonicals key)
    : (allocate c v t).1 = .boundVar (assignment c canonicals (seen ++ [v]) v)
      ∧ Inv c canonicals (seen ++ [v]) (allocate c v t).2 := by
  obtain ⟨_, below⟩ := getCanonicalFreeVar_spec (inv.bounded (c.key v))
  have isNumber : number c (seen ++ [v]) v = t.varCount (c.key v) := by
    have fresh : v ∉ ofKey c seen (c.key v) := fun member => notSeen (mem_ofKey.mp member)
    rw [inv.count, number, ofKey_append, List.idxOf_append_of_notMem fresh]
    simp [ofKey]
  have isCanonical : (t.canonize.getCanonicalFreeVar v.type (t.varCount (c.key v)) (c.getTypeClass v)).1
      = assignment c canonicals (seen ++ [v]) v := by
    obtain ⟨rest, isRest⟩ : (t.canonize.getCanonicalFreeVar v.type (t.varCount (c.key v))
      (c.getTypeClass v)).2.cnFreeVar (v.type, c.getTypeClass v) <+: canonicals (c.key v) :=
      kept (c.key v)
    rw [getCanonicalFreeVar_fst, assignment, isNumber, ← isRest, List.getD_eq_getElem?_getD,
      List.getD_eq_getElem?_getD, List.getElem?_append_left below]
  have isPrefix : seen <+: seen ++ [v] := List.prefix_append ..
  refine ⟨congrArg Node.boundVar isCanonical, ?_, ?_, (allocate_extends inv.bounded v).2, ?_, ?_⟩
  · exact inv.nodup.append (List.nodup_singleton v) (by simpa using notSeen)
  · intro key
    by_cases same : key = c.key v
    · subst same
      simp [allocate, Traversal.visit, inv.count, ofKey]
    · have different : ¬ c.key v = key := fun isSame => same isSame.symm
      simp [allocate, Traversal.visit, Function.update_of_ne same, inv.count, ofKey, different]
  · intro w member isNone
    by_cases same : w = v
    · simp [allocate, Traversal.visit, same] at isNone
    · have isSeen : w ∈ seen := by simpa [same] using member
      have different : Node.boundVar w ≠ .boundVar v := by simpa using same
      simp only [allocate, Traversal.visit, Function.update_of_ne different] at isNone
      exact inv.seenVisited w isSeen isNone
  · intro m ret isVisited
    by_cases same : m = .boundVar v
    · subst same
      simp only [allocate, Traversal.visit, Function.update_self, Option.some.injEq] at isVisited
      rw [← isVisited, isCanonical, canonicalWith]
      exact ⟨by simp [vars], rfl⟩
    · simp only [allocate, Traversal.visit, Function.update_of_ne same] at isVisited
      obtain ⟨known, isRet⟩ := inv.visited m ret isVisited
      refine ⟨fun w member => isPrefix.subset (known w member), isRet.trans ?_⟩
      exact canonicalWith_congr m
        (fun w member => (assignment_of_initial isPrefix (known w member)).symm)

mutual

/-- A traversal returns the canonical term and keeps its cache right. -/
theorem getCanonicalTerm_inv (n : Node) (seen : List Variable) (t : Traversal)
    (closed : OperatorsClosed n) (inv : Inv c canonicals seen t)
    (kept : ∀ key, (getCanonicalTerm c n t).2.canonize.cnFreeVar key <+: canonicals key)
    : (getCanonicalTerm c n t).1 = canonicalWith c (assignment c canonicals (addVars seen (vars n))) n
      ∧ Inv c canonicals (addVars seen (vars n)) (getCanonicalTerm c n t).2 := by
  cases isVisited : t.visited n with
  | some ret =>
      obtain ⟨known, isRet⟩ := inv.visited n ret isVisited
      rw [getCanonicalTerm_visited isVisited, addVars_of_subset known]
      exact ⟨isRet, inv⟩
  | none =>
      match n with
      | .boundVar v =>
          have notSeen : v ∉ seen := fun member => inv.seenVisited v member isVisited
          have isAllocated : getCanonicalTerm c (.boundVar v) t = allocate c v t := by
            rw [getCanonicalTerm]
            simp only [isVisited]
          rw [isAllocated] at kept ⊢
          rw [vars, addVars, if_neg notSeen, addVars, canonicalWith]
          exact allocate_inv inv notSeen kept
      | .symbol s =>
          have isSame : getCanonicalTerm c (.symbol s) t = (.symbol s, t) := by
            rw [getCanonicalTerm]
            simp only [isVisited]
          rw [isSame, vars, addVars, canonicalWith]
          exact ⟨rfl, inv⟩
      | .apply k [] =>
          have isSame : getCanonicalTerm c (.apply k []) t = (.apply k [], t) := by
            rw [getCanonicalTerm]
            simp only [isVisited]
          rw [isSame, vars, varsIn, addVars, canonicalWith, canonicalsWith,
            (sortChildren_perm k []).eq_nil]
          exact ⟨rfl, inv⟩
      | .parameterized op [] =>
          rw [OperatorsClosed] at closed
          have isSame : getCanonicalTerm c (.parameterized op []) t = (.parameterized op [], t) := by
            rw [getCanonicalTerm]
            simp only [isVisited]
          rw [isSame, vars, varsIn, closed.1, List.append_nil, addVars, canonicalWith, canonicalsWith]
          exact ⟨by simp, inv⟩
      | .apply k (first :: rest) =>
          rw [OperatorsClosed] at closed
          rw [getCanonicalTerm_apply isVisited] at kept ⊢
          obtain ⟨isResult, inv'⟩ := getCanonicalTerms_inv (first :: rest) seen t closed inv kept
          have members := (addVars_spec seen (varsIn (first :: rest)) inv.nodup).2.2
          have isRet : Node.apply k (c.sortChildren k (getCanonicalTerms c (first :: rest) t).1)
              = canonicalWith c (assignment c canonicals (addVars seen (varsIn (first :: rest))))
                (.apply k (first :: rest)) := by
            rw [canonicalWith, isResult]
          refine ⟨isRet, inv'.visit (fun v member => (members v).mpr (Or.inr ?_)) isRet⟩
          rwa [vars] at member
      | .parameterized op (first :: rest) =>
          rw [OperatorsClosed] at closed
          rw [getCanonicalTerm_parameterized isVisited] at kept ⊢
          rw [vars, closed.1, List.append_nil]
          have members := (addVars_spec seen (varsIn (first :: rest)) inv.nodup).2.2
          have known : ∀ v ∈ vars (.parameterized op (first :: rest)),
              v ∈ addVars seen (varsIn (first :: rest)) := by
            intro v member
            rw [vars, closed.1, List.append_nil] at member
            exact (members v).mpr (Or.inr member)
          cases isHo : c.doHoVar with
          | false =>
              simp only [isHo] at kept ⊢
              obtain ⟨isResult, inv'⟩ := getCanonicalTerms_inv (first :: rest) seen t closed.2 inv kept
              have isRet : Node.parameterized op (getCanonicalTerms c (first :: rest) t).1
                  = canonicalWith c (assignment c canonicals (addVars seen (varsIn (first :: rest))))
                    (.parameterized op (first :: rest)) := by
                rw [canonicalWith, isResult, isHo]
                rfl
              exact ⟨isRet, inv'.visit known isRet⟩
          | true =>
              simp only [isHo] at kept ⊢
              have bounded := (getCanonicalTerms_extends (c := c) (first :: rest) t inv.bounded).2
              have extended := (getCanonicalTerm_extends (c := c) op _ bounded).1
              obtain ⟨isResult, inv'⟩ := getCanonicalTerms_inv (first :: rest) seen t closed.2 inv
                (fun key => (extended.keeps key).trans (kept key))
              obtain ⟨isOp, inv''⟩ := getCanonicalTerm_inv op _ _
                (operatorsClosed_of_closed op closed.1) inv' kept
              rw [closed.1, addVars] at isOp inv''
              have isRet : Node.parameterized
                    (getCanonicalTerm c op (getCanonicalTerms c (first :: rest) t).2).1
                    (getCanonicalTerms c (first :: rest) t).1
                  = canonicalWith c (assignment c canonicals (addVars seen (varsIn (first :: rest))))
                    (.parameterized op (first :: rest)) := by
                rw [canonicalWith, isResult, isOp, isHo]
                rfl
              exact ⟨isRet, inv''.visit known isRet⟩

theorem getCanonicalTerms_inv (nodes : List Node) (seen : List Variable) (t : Traversal)
    (closed : AllOperatorsClosed nodes) (inv : Inv c canonicals seen t)
    (kept : ∀ key, (getCanonicalTerms c nodes t).2.canonize.cnFreeVar key <+: canonicals key)
    : (getCanonicalTerms c nodes t).1
        = canonicalsWith c (assignment c canonicals (addVars seen (varsIn nodes))) nodes
      ∧ Inv c canonicals (addVars seen (varsIn nodes)) (getCanonicalTerms c nodes t).2 := by
  match nodes with
  | [] =>
      rw [getCanonicalTerms, varsIn, addVars, canonicalsWith]
      exact ⟨rfl, inv⟩
  | node :: rest =>
      rw [AllOperatorsClosed] at closed
      rw [getCanonicalTerms] at kept ⊢
      have bounded := (getCanonicalTerm_extends (c := c) node t inv.bounded).2
      have extended := (getCanonicalTerms_extends (c := c) rest _ bounded).1
      obtain ⟨isFirst, inv'⟩ := getCanonicalTerm_inv node seen t closed.1 inv
        (fun key => (extended.keeps key).trans (kept key))
      obtain ⟨areOthers, inv''⟩ := getCanonicalTerms_inv rest _ _ closed.2 inv' kept
      have isPrefix := (addVars_spec (addVars seen (vars node)) (varsIn rest) inv'.nodup).2.1
      have members := (addVars_spec seen (vars node) inv.nodup).2.2
      rw [varsIn, addVars_append, canonicalsWith]
      refine ⟨congrArg₂ List.cons (isFirst.trans ?_) areOthers, inv''⟩
      refine canonicalWith_congr node (fun v member => ?_)
      exact (assignment_of_initial isPrefix ((members v).mpr (Or.inr member))).symm

end

end Traversal

end Ava6.Expr.Canonize

import Ava6.Expr.NaryTermUtil

/-! Matching against patterns is exact: the search ends, and the callback gets each pattern that matches
with each substitution once, which gives back the node when it is applied, unless a macro is evaluated.
-/

namespace Ava6.Expr.Nary

/-- The lists of variables and values say what the map says. -/
structure Bindings.Coherent (b : Bindings) : Prop where
  nodup : b.vars.Nodup
  lengths : b.vars.length = b.subs.length
  agrees : ∀ v, findVar b.vars.reverse b.subs.reverse v = b.smap v

theorem findVar_append {vars : List Variable} {subs : List Node} (lengths : vars.length = subs.length)
    (w : Variable) (x : Node) (v : Variable)
    : findVar (vars ++ [w]) (subs ++ [x]) v
      = (findVar vars subs v).or (if w = v then some x else none) := by
  induction vars generalizing subs with
  | nil =>
      rw [List.eq_nil_of_length_eq_zero lengths.symm]
      rfl
  | cons u vars ih =>
      cases subs with
      | nil => cases lengths
      | cons y subs =>
          rw [List.cons_append, List.cons_append, findVar, findVar, ih (Nat.succ.inj lengths)]
          split
          · rfl
          · rfl

theorem findVar_of_mem {vars : List Variable} {subs : List Node} (lengths : vars.length = subs.length)
    {v : Variable} (member : v ∈ vars)
    : (findVar vars subs v).isSome := by
  induction vars generalizing subs with
  | nil => cases member
  | cons u vars ih =>
      cases subs with
      | nil => cases lengths
      | cons y subs =>
          rw [findVar]
          split
          · rfl
          · next different =>
              refine ih (Nat.succ.inj lengths) ((List.mem_cons.mp member).resolve_left ?_)
              exact fun same => different same.symm

theorem Bindings.Coherent.bind {b : Bindings} (coherent : b.Coherent) {v : Variable} (x : Node)
    (isNew : b.smap v = none)
    : (b.bind v x).Coherent := by
  have notBound : v ∉ b.vars := by
    intro member
    have lengths : b.vars.reverse.length = b.subs.reverse.length := by simp [coherent.lengths]
    have isFound := findVar_of_mem lengths (List.mem_reverse.mpr member)
    rw [coherent.agrees, isNew] at isFound
    cases isFound
  refine ⟨List.nodup_cons.mpr ⟨notBound, coherent.nodup⟩, by simp [Bindings.bind, coherent.lengths],
    fun w => ?_⟩
  have isMap : (b.bind v x).smap = Function.update b.smap v (some x) := rfl
  rw [isMap, Bindings.bind, List.reverse_cons, List.reverse_cons,
    findVar_append (by simp [coherent.lengths]), coherent.agrees]
  by_cases same : w = v
  · rw [same, isNew, if_pos rfl, Function.update_self]
    rfl
  · rw [if_neg (fun isSame => same isSame.symm), Function.update_of_ne same, Option.or_none]

theorem Bindings.Coherent.extend {b : Bindings} (coherent : b.Coherent) (v : Variable) (x : Node)
    : (b.extend v x).Coherent := by
  rw [Bindings.extend]
  split
  · next isNew => exact coherent.bind x (Option.isNone_iff_eq_none.mp isNew)
  · exact coherent

/-- Along a path the lists of bindings say what the map says, by induction on the path. -/
theorem PathMatches.coherent {types : Types} {applied : Variable → Bool} {path : List Key} {syms : Stack}
    {b b' : Bindings} (isMatch : PathMatches types applied path syms b b') (coherent : b.Coherent)
    : b'.Coherent := by
  induction isMatch with
  | done => exact coherent
  | symbol _ ih => exact ih coherent
  | candidate _ _ _ _ ih => exact ih (coherent.extend _ _)

def argument : Variable := ⟨0, true, false, 0⟩

def remaining : Variable := ⟨1, true, true, 0⟩

def function : Variable := ⟨2, false, false, 1⟩

end Ava6.Expr.Nary

import Ava6.Quantifiers.BvInverter

/-! Children and paths: what an n-ary operator makes of a child and the others, and that the search returns paths that
lead to the variable.
-/

namespace Ava6.Quantifiers.BvInverter

open Ava6.Bv

variable {n : Nat}

theorem apply_assoc (k : NaryKind) (a b c : BitVec n) : k.apply (k.apply a b) c = k.apply a (k.apply b c) := by
  cases k
  · exact BitVec.and_assoc ..
  · exact BitVec.or_assoc ..
  · exact BitVec.xor_assoc ..
  · exact BitVec.add_assoc ..
  · exact BitVec.mul_assoc ..

theorem apply_comm (k : NaryKind) (a b : BitVec n) : k.apply a b = k.apply b a := by
  cases k
  · exact BitVec.and_comm ..
  · exact BitVec.or_comm ..
  · exact BitVec.xor_comm ..
  · exact BitVec.add_comm ..
  · exact BitVec.mul_comm ..

/-- A first operand can be taken out of the fold, by induction on the children. -/
theorem args_eval_apply (v : Valuation) (k : NaryKind) (a : BitVec n)
    : ∀ (as : Args n) (b : BitVec n), as.eval v k (k.apply a b) = k.apply a (as.eval v k b)
  | .nil, _ => rfl
  | .cons head tail, b => by
    rw [Args.eval, Args.eval, apply_assoc, args_eval_apply v k a tail]

theorem eval_naryNode (v : Valuation) (k : NaryKind) (first : Term n) (rest : Args n)
    : (naryNode k first rest).eval v = rest.eval v k (first.eval v) := by
  cases rest <;> rfl

/-- The value of a fold is one of the child with the others. -/
theorem eval_takeArg (v : Valuation) (k : NaryKind)
    : ∀ (as : Args n) (i : Nat) (taken : Term n × Args n) (start : BitVec n), takeArg as i = some taken →
      as.eval v k start = k.apply (taken.1.eval v) (taken.2.eval v k start)
  | .cons head tail, 0, _, start, rfl => by
    rw [Args.eval, apply_comm, args_eval_apply]
  | .cons head tail, i + 1, taken, start, found => by
    obtain ⟨inner, innerFound, rfl⟩ := Option.map_eq_some_iff.mp found
    rw [Args.eval, eval_takeArg v k tail i inner _ innerFound]
    rfl

theorem eval_dropChild (v : Valuation) {k : NaryKind} {first : Term n} {rest : Args n} {index : Nat}
    {child s : Term n} (dropped : dropChild k first rest index = some (child, s))
    : (Term.nary k first rest).eval v = k.apply (child.eval v) (s.eval v) := by
  cases index with
  | zero =>
    cases rest with
    | nil => cases dropped
    | cons head tail =>
      obtain ⟨rfl, rfl⟩ := Prod.mk.inj (Option.some.inj dropped)
      rw [eval_naryNode, ← args_eval_apply]
      rfl
  | succ i =>
    obtain ⟨taken, found, same⟩ := Option.map_eq_some_iff.mp dropped
    obtain ⟨rfl, rfl⟩ := Prod.mk.inj same
    rw [eval_naryNode]
    exact eval_takeArg v k rest i taken _ found

/-- The path leads from the node to the variable. -/
def leadsTo (pv : Variable) : {n : Nat} → Term n → List Nat → Prop
  | _, curr, [] => curr.isVariable pv = true
  | _, curr, p :: path => ∃ child, childAt curr p = some child ∧ leadsTo pv child.2 path

theorem visit_some {pv : Variable} {lit : Term n} {visited visited' : Visited} {children : Visited → Search}
    {path : List Nat} (found : visit pv lit visited children = (some path, visited'))
    : (path = [] ∧ lit.isVariable pv = true)
      ∨ ∃ visited, children visited = (some path, visited') := by
  unfold visit at found
  split at found
  · cases found
  · split at found
    · rename_i same
      obtain ⟨samePath, _⟩ := Prod.mk.inj found
      exact Or.inl ⟨(Option.some.inj samePath).symm, same⟩
    · exact Or.inr ⟨_, found⟩

theorem orElse_some {i : Nat} {first : Search} {later : Visited → Search} {path : List Nat} {visited : Visited}
    (found : orElse i first later = (some path, visited))
    : (∃ inner visited, first = (some inner, visited) ∧ path = i :: inner)
      ∨ ∃ visited', later visited' = (some path, visited) := by
  obtain ⟨_ | inner, between⟩ := first
  · exact Or.inr ⟨_, found⟩
  · obtain ⟨same, _⟩ := Prod.mk.inj found
    exact Or.inl ⟨inner, between, rfl, (Option.some.inj same).symm⟩

theorem noPath_some {visited visited' : Visited} {path : List Nat} : noPath visited ≠ (some path, visited') := nofun

/-- A child in one position that leads to the variable. -/
theorem leadsTo_single {pv : Variable} {k : Nat} {curr : Term n} {child : Term k} (i : Nat)
    (at_i : childAt curr i = some ⟨k, child⟩) {first : Search} {later : Visited → Search} {path : List Nat}
    {visited : Visited} (found : orElse i first later = (some path, visited))
    (leads : ∀ inner between, first = (some inner, between) → leadsTo pv child inner)
    (others : ∀ between, later between = (some path, visited) → leadsTo pv curr path)
    : leadsTo pv curr path := by
  rcases orElse_some found with ⟨inner, between, firstFound, rfl⟩ | ⟨between, laterFound⟩
  · exact ⟨⟨k, child⟩, at_i, leads inner between firstFound⟩
  · exact others between laterFound

mutual
/-- The search returns paths that lead to the variable, by induction on the node. -/
theorem getPathToPv_leadsTo (pv : Variable)
    : {n : Nat} → (lit : Term n) → ∀ {visited path visited'}, getPathToPv pv lit visited = (some path, visited') →
      leadsTo pv lit path
  | _, .var _ _, _, _, _, found => by
    rcases visit_some found with ⟨rfl, same⟩ | ⟨_, inside⟩
    · exact same
    · exact absurd inside noPath_some
  | _, .const _ _, _, _, _, found => by
    rcases visit_some found with ⟨rfl, same⟩ | ⟨_, inside⟩
    · exact same
    · exact absurd inside noPath_some
  | _, .unary k a, _, _, _, found => by
    rcases visit_some found with ⟨rfl, same⟩ | ⟨_, inside⟩
    · exact same
    · exact leadsTo_single 0 rfl inside (fun _ _ => getPathToPv_leadsTo pv a) (fun _ later => absurd later noPath_some)
  | _, .binary k a b, _, _, _, found => by
    rcases visit_some found with ⟨rfl, same⟩ | ⟨_, inside⟩
    · exact same
    · split at inside
      · refine leadsTo_single 0 rfl inside (fun _ _ => getPathToPv_leadsTo pv a) (fun _ later => ?_)
        exact leadsTo_single 1 rfl later (fun _ _ => getPathToPv_leadsTo pv b) (fun _ last => absurd last noPath_some)
      · exact absurd inside noPath_some
  | _, .nary k first rest, _, _, _, found => by
    rcases visit_some found with ⟨rfl, same⟩ | ⟨_, inside⟩
    · exact same
    · refine leadsTo_single 0 rfl inside (fun _ _ => getPathToPv_leadsTo pv first) (fun _ later => ?_)
      obtain ⟨j, taken, inner, rfl, takes, leads⟩ := getPathToPvArgs_leadsTo pv rest later
      refine ⟨⟨_, taken.1⟩, ?_, leads⟩
      rw [Nat.add_comm]
      exact congrArg (Option.map _) takes
  | _, .flag k a b, _, _, _, found => by
    rcases visit_some found with ⟨rfl, same⟩ | ⟨_, inside⟩
    · exact same
    · split at inside
      · refine leadsTo_single 0 rfl inside (fun _ _ => getPathToPv_leadsTo pv a) (fun _ later => ?_)
        exact leadsTo_single 1 rfl later (fun _ _ => getPathToPv_leadsTo pv b) (fun _ last => absurd last noPath_some)
      · exact absurd inside noPath_some
  | _, .ite cond thenpart elsepart, _, _, _, found => by
    rcases visit_some found with ⟨rfl, same⟩ | ⟨_, inside⟩
    · exact same
    · exact absurd inside noPath_some
  | _, .concat parts, _, _, _, found => by
    rcases visit_some found with ⟨rfl, same⟩ | ⟨_, inside⟩
    · exact same
    · obtain ⟨j, p, inner, rfl, placed, leads⟩ := getPathToPvParts_leadsTo pv parts inside
      refine ⟨p.child, ?_, leads⟩
      rw [Nat.zero_add]
      exact congrArg (Option.map _) placed
  | _, .extract high low within a, _, _, _, found => by
    rcases visit_some found with ⟨rfl, same⟩ | ⟨_, inside⟩
    · exact same
    · exact absurd inside noPath_some
  | _, .signExtend amount a, _, _, _, found => by
    rcases visit_some found with ⟨rfl, same⟩ | ⟨_, inside⟩
    · exact same
    · exact leadsTo_single 0 rfl inside (fun _ _ => getPathToPv_leadsTo pv a) (fun _ later => absurd later noPath_some)

theorem getPathToPvArgs_leadsTo (pv : Variable)
    : {n : Nat} → (as : Args n) → ∀ {i visited path visited'},
      getPathToPvArgs pv as i visited = (some path, visited') →
      ∃ j taken inner, path = (i + j) :: inner ∧ takeArg as j = some taken ∧ leadsTo pv taken.1 inner
  | _, .nil, _, _, _, _, found => absurd found noPath_some
  | _, .cons head tail, i, _, _, _, found => by
    rcases orElse_some found with ⟨inner, _, headFound, rfl⟩ | ⟨_, later⟩
    · exact ⟨0, _, inner, rfl, rfl, getPathToPv_leadsTo pv head headFound⟩
    · obtain ⟨j, taken, inner, rfl, takes, leads⟩ := getPathToPvArgs_leadsTo pv tail later
      refine ⟨j + 1, (taken.1, .cons head taken.2), inner, by rw [Nat.add_assoc, Nat.add_comm 1], ?_, leads⟩
      exact congrArg (Option.map _) takes

theorem getPathToPvParts_leadsTo (pv : Variable)
    : {n : Nat} → (parts : Parts n) → ∀ {i visited path visited'},
      getPathToPvParts pv parts i visited = (some path, visited') →
      ∃ j p inner, path = (i + j) :: inner ∧ position parts j = some p ∧ leadsTo pv p.child.2 inner
  | _, .single a, i, _, _, _, found => by
    rcases orElse_some found with ⟨inner, _, headFound, rfl⟩ | ⟨_, later⟩
    · exact ⟨0, _, inner, rfl, rfl, getPathToPv_leadsTo pv a headFound⟩
    · exact absurd later noPath_some
  | _, .cons a rest, i, _, _, _, found => by
    rcases orElse_some found with ⟨inner, _, headFound, rfl⟩ | ⟨_, later⟩
    · exact ⟨0, _, inner, rfl, rfl, getPathToPv_leadsTo pv a headFound⟩
    · obtain ⟨j, p, inner, rfl, placed, leads⟩ := getPathToPvParts_leadsTo pv rest later
      refine ⟨j + 1, p.prepend a, inner, by rw [Nat.add_assoc, Nat.add_comm 1], ?_, ?_⟩
      · exact congrArg (Option.map _) placed
      · cases p <;> exact leads
end

end Ava6.Quantifiers.BvInverter

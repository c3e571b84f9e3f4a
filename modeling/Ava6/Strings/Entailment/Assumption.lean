import Ava6.Strings.Entailment.ArithMSum

/-! Entailment of a comparison of integers under an assumption. An inequality is an equality with the length of a fresh
string as slack; the equality is solved for a term of the difference, which is replaced before the difference is checked.
The rewriter and the check without assumptions are given, and sound.
-/

namespace Ava6.Strings.Entailment

/-- A rewriter of integer terms, and a check that a term is not negative, or that it is positive if `strict`. -/
structure ArithEntail where
  rewriteArith : Node → Node
  check : Node → Bool → Bool
  intValue_rewriteArith
    : ∀ (I : Interpretation) (a : Node), a.IsInteger → intValue I (rewriteArith a) = intValue I a
  nonneg_of_check
    : ∀ (I : Interpretation) (a : Node) (strict : Bool), a.IsInteger → check a strict = true → 0 ≤ intValue I a
  pos_of_check : ∀ (I : Interpretation) (a : Node), a.IsInteger → check a true = true → 0 < intValue I a

def isArith : Kind → Bool
  | .add | .mult | .sub | .equal => true
  | _ => false

mutual
/-- Variables and lengths that are reached through arithmetic only; in integers no real is reached so. -/
def candVars : Node → List Node
  | .const _ => []
  | .var type name => if type = .int then [.var type name] else []
  | .apply kind children =>
      if isArith kind then candVarsOf children
      else if kind = .stringLength then [.apply kind children]
      else []

def candVarsOf : Nodes → List Node
  | .nil => []
  | .cons head tail => candVars head ++ candVarsOf tail
end

mutual
/-- The first candidate that a node has. A stack is traversed, so that the last child comes first. -/
def findCandidate (candVars : List Node) (n : Node) : Option Node :=
  if n ∈ candVars then some n
  else
    match n with
    | .const _ | .var _ _ => none
    | .apply _ children => findCandidateOf candVars children

def findCandidateOf (candVars : List Node) : Nodes → Option Node
  | .nil => none
  | .cons head tail => (findCandidateOf candVars tail).or (findCandidate candVars head)
end

section

variable (id : Node → Nat) (aent : ArithEntail)

def checkWithEqAssumption (assumption a : Node) (strict : Bool) : Bool :=
  match assumption with
  | .apply .equal (.cons lhs (.cons rhs .nil)) =>
      match findCandidate (candVars assumption) a with
      | none => false
      | some v =>
          match solveEqualityFor id lhs rhs v with
          | none => false
          | some solution => aent.check (a.substitute v solution) strict
  | _ => false

/-- `x >= y` as an equality, with the length of the string variable of a name as slack. -/
def slackEquality (slackVal : Nat) (x y : Node) : Node :=
  let slen := mkNode .stringLength [.var .string slackVal]
  let sleny := mkNode .add [y, slen]
  match aent.rewriteArith (mkNode .sub [x, sleny]) with
  | .const rr => .const (.bool (rr.toInt == 0))
  | _ => mkNode .equal [x, sleny]

/-- An inequality is rewritten, where `not (s >= t)` is `t - 1 >= s`. -/
def toEquality (slackVal : Nat) : Node → Node
  | .apply .geq (.cons x (.cons y .nil)) => slackEquality aent slackVal x y
  | .apply .not (.cons (.apply .geq (.cons s (.cons t .nil))) .nil) =>
      slackEquality aent slackVal (mkNode .sub [t, mkConstInt 1]) s
  | assumption => assumption

/-- An assumption that is a constant or an equality. -/
def checkEquality (diff : Node) (strict : Bool) : Node → Bool
  | .const assumptionBool => if assumptionBool.isTrue then aent.check diff strict else true
  | assumption => checkWithEqAssumption id aent assumption diff strict

/-- Names from `next` on are fresh. -/
def checkWithAssumption (next : Nat) (assumption a b : Node) (strict : Bool) : Bool :=
  checkEquality id aent (mkNode .sub [a, b]) strict (toEquality aent next assumption)

/-- One assumption is tried at a time. -/
def checkWithAssumptions (next : Nat) (assumptions : List Node) (a b : Node) (strict : Bool) : Bool :=
  match assumptions with
  | [] => false
  | assumption :: rest =>
      if checkWithAssumption id aent next assumption a b strict then true
      else checkWithAssumptions (next + 1) rest a b strict

end

/-- An equality of integers, an inequality, or one that is negated. -/
inductive IsAssumption : Node → Prop
  | equal {x y : Node} (isInteger : x.IsInteger) (isInteger' : y.IsInteger) : IsAssumption (mkNode .equal [x, y])
  | geq {x y : Node} (isInteger : x.IsInteger) (isInteger' : y.IsInteger) : IsAssumption (mkNode .geq [x, y])
  | notGeq {s t : Node} (isInteger : s.IsInteger) (isInteger' : t.IsInteger)
    : IsAssumption (mkNode .not [mkNode .geq [s, t]])

/-- `a >= b`, or `a > b` if `strict`. -/
def IsGeq (I : Interpretation) (a b : Node) (strict : Bool) : Prop :=
  intValue I b ≤ intValue I a ∧ (strict = true → intValue I b < intValue I a)

variable {id : Node → Nat} {aent : ArithEntail} {I : Interpretation}

theorem intValue_sub (a b : Node) : intValue I (mkNode .sub [a, b]) = intValue I a - intValue I b := by
  rw [intValue, eval_mkNode]
  rfl

variable {a b : Node}

theorem isInteger_sub (isInteger : a.IsInteger) (isInteger' : b.IsInteger)
    : (mkNode .sub [a, b]).IsInteger := by
  rw [Node.IsInteger, mkNode, Node.getType, getTypes_of_isInteger]
  · rfl
  · exact List.forall_mem_cons.mpr ⟨isInteger, List.forall_mem_singleton.mpr isInteger'⟩

variable {strict : Bool}

theorem nonneg_of_check (isInteger : a.IsInteger) (checked : aent.check a strict = true)
    : 0 ≤ intValue I a ∧ (strict = true → 0 < intValue I a) := by
  refine ⟨aent.nonneg_of_check I a strict isInteger checked, fun isStrict => ?_⟩
  subst isStrict
  exact aent.pos_of_check I a isInteger checked

mutual
/-- A candidate of a well-sorted node is an integer. -/
theorem isInteger_candVars {n v : Node} {type : TypeNode} (isType : n.getType = some type) (isMem : v ∈ candVars n)
    : v.IsInteger := by
  match n with
  | .const _ => exact absurd isMem List.not_mem_nil
  | .var type' name =>
      rw [candVars] at isMem
      split at isMem
      · next isInt => rw [List.mem_singleton.mp isMem, Node.IsInteger, Node.getType, isInt]
      · exact absurd isMem List.not_mem_nil
  | .apply kind children =>
      have wellSorted := isType
      rw [Node.getType, Option.bind_eq_some_iff] at wellSorted
      obtain ⟨types, isTypes, isRange⟩ := wellSorted
      rw [candVars] at isMem
      split at isMem
      · exact isInteger_candVarsOf isTypes isMem
      · split at isMem
        · next isLength =>
            subst isLength
            rw [List.mem_singleton.mp isMem, Node.IsInteger, isType, ← range_of_computeType isRange]
            rfl
        · exact absurd isMem List.not_mem_nil

theorem isInteger_candVarsOf {children : Nodes} {v : Node} {types : List TypeNode}
    (isTypes : children.getTypes = some types) (isMem : v ∈ candVarsOf children)
    : v.IsInteger := by
  match children with
  | .nil => exact absurd isMem List.not_mem_nil
  | .cons head tail =>
      rw [Nodes.getTypes, Option.bind_eq_bind, Option.bind_eq_some_iff] at isTypes
      obtain ⟨type, isType, isTypes⟩ := isTypes
      rw [Option.bind_eq_bind, Option.bind_eq_some_iff] at isTypes
      obtain ⟨types', isTypes', _⟩ := isTypes
      rw [candVarsOf, List.mem_append] at isMem
      exact isMem.elim (isInteger_candVars isType) (isInteger_candVarsOf isTypes')
end

mutual
theorem mem_of_findCandidate {cands : List Node} {a v : Node} (found : findCandidate cands a = some v) : v ∈ cands := by
  match a with
  | .const _ | .var _ _ =>
      rw [findCandidate] at found
      split at found
      · next isMem => exact Option.some_inj.mp found ▸ isMem
      · cases found
  | .apply kind children =>
      rw [findCandidate] at found
      split at found
      · next isMem => exact Option.some_inj.mp found ▸ isMem
      · exact mem_of_findCandidateOf found

theorem mem_of_findCandidateOf {cands : List Node} {children : Nodes} {v : Node}
    (found : findCandidateOf cands children = some v)
    : v ∈ cands := by
  match children with
  | .nil => cases found
  | .cons head tail =>
      rw [findCandidateOf, Option.or_eq_some_iff] at found
      exact found.elim mem_of_findCandidateOf fun isHead => mem_of_findCandidate isHead.2
end

variable {x y : Node}

theorem satisfies_equal (isInteger : x.IsInteger) (isInteger' : y.IsInteger)
    : I.Satisfies (mkNode .equal [x, y]) ↔ intValue I x = intValue I y := by
  rw [Interpretation.Satisfies, eval_mkNode]
  change decide (x.eval I = y.eval I) = true ↔ _
  rw [decide_eq_true_eq, eval_of_isInteger isInteger, eval_of_isInteger isInteger', Value.int.injEq]
  rfl

/-- The difference is checked where an integer is replaced by one that it is equal to. -/
theorem checkWithEqAssumption_sound (isInteger : x.IsInteger) (isInteger' : y.IsInteger)
    (isInteger'' : a.IsInteger) (same : intValue I x = intValue I y)
    (checked : checkWithEqAssumption id aent (mkNode .equal [x, y]) a strict = true)
    : 0 ≤ intValue I a ∧ (strict = true → 0 < intValue I a) := by
  have isChecked : checkWithEqAssumption id aent (mkNode .equal [x, y]) a strict
      = match findCandidate (candVars (mkNode .equal [x, y])) a with
        | none => false
        | some v =>
            match solveEqualityFor id x y v with
            | none => false
            | some solution => aent.check (a.substitute v solution) strict := rfl
  rw [isChecked] at checked
  split at checked
  · cases checked
  · next v isCandidate =>
      split at checked
      · cases checked
      · next solution isSolution =>
          have wellSorted : (mkNode .equal [x, y]).getType = some .bool := by
            have areTypes : (Nodes.ofList [x, y]).getTypes = some [.int, .int] :=
              getTypes_of_isInteger (List.forall_mem_cons.mpr ⟨isInteger, List.forall_mem_singleton.mpr isInteger'⟩)
            rw [mkNode, Node.getType, areTypes]
            rfl
          have vInteger := isInteger_candVars wellSorted (mem_of_findCandidate isCandidate)
          have solutionInteger := isInteger_solveEqualityFor id isInteger isInteger' isSolution
          have isEqual : v.eval I = solution.eval I := by
            rw [eval_of_isInteger vInteger, eval_of_isInteger solutionInteger]
            exact congrArg Value.int (intValue_solveEqualityFor id same isSolution)
          have isSubstituted : (a.substitute v solution).IsInteger := by
            rw [Node.IsInteger, getType_substitute (vInteger.trans solutionInteger.symm)]
            exact isInteger''
          have isPositive := nonneg_of_check (I := I) isSubstituted checked
          rw [intValue, eval_substitute isEqual] at isPositive
          exact isPositive

variable {next : Nat}

/-- With the slack between two integers the equality holds. -/
theorem slackEquality_sound {diff : Node} (isInteger : x.IsInteger)
    (isInteger' : y.IsInteger) (isInteger'' : diff.IsInteger) (isBelow : x.Below next) (isBelow' : y.Below next)
    (isBelow'' : diff.Below next) (isLess : intValue I y ≤ intValue I x)
    (checked : checkEquality id aent diff strict (slackEquality aent next x y) = true)
    : 0 ≤ intValue I diff ∧ (strict = true → 0 < intValue I diff) := by
  -- the slack is the length of the string that the fresh variable gets
  let J := I.withLength next (intValue I x - intValue I y).toNat
  have unchanged {n : Node} (isBelow : n.Below next) : intValue J n = intValue I n := by
    rw [intValue, eval_withLength _ isBelow]
    rfl
  have isLength : intValue J (mkNode .stringLength [.var .string next]) = intValue I x - intValue I y := by
    have isString : (Node.var .string next).eval J = .string (List.replicate (intValue I x - intValue I y).toNat 0) :=
      if_pos ⟨rfl, rfl⟩
    rw [intValue, eval_mkNode, List.map_singleton, isString]
    change (((List.replicate (intValue I x - intValue I y).toNat 0).length : Nat) : Int) = _
    rw [List.length_replicate]
    omega
  have slackInteger : (mkNode .stringLength [.var .string next]).IsInteger := rfl
  have sumInteger : (mkNode .add [y, mkNode .stringLength [.var .string next]]).IsInteger :=
    isInteger_mkNode (Or.inl rfl) (Nat.le_refl 2)
      (List.forall_mem_cons.mpr ⟨isInteger', List.forall_mem_singleton.mpr slackInteger⟩)
  have same : intValue J x = intValue J (mkNode .add [y, mkNode .stringLength [.var .string next]]) := by
    rw [intValue_add, List.map_cons, List.map_singleton, List.sum_cons, List.sum_singleton, isLength, unchanged isBelow,
      unchanged isBelow']
    omega
  rw [← unchanged isBelow'']
  rw [slackEquality] at checked
  split at checked
  · next rr isConst =>
      -- the difference is zero, so the constant is
      have isZero := aent.intValue_rewriteArith J _ (isInteger_sub isInteger sumInteger)
      rw [intValue_sub, same, sub_self, isConst, intValue, eval_const] at isZero
      rw [checkEquality, isZero] at checked
      exact nonneg_of_check isInteger'' checked
  · exact checkWithEqAssumption_sound isInteger sumInteger isInteger'' same checked

/-- An entailment with a solution substituted holds, since the solution has the value of what was solved
for.
-/
theorem checkEquality_sound {assumption diff : Node} (isAssumption : IsAssumption assumption)
    (isInteger : diff.IsInteger) (isBelow : assumption.Below next) (isBelow' : diff.Below next)
    (satisfied : I.Satisfies assumption)
    (checked : checkEquality id aent diff strict (toEquality aent next assumption) = true)
    : 0 ≤ intValue I diff ∧ (strict = true → 0 < intValue I diff) := by
  cases isAssumption with
  | equal xInteger yInteger =>
      exact checkWithEqAssumption_sound xInteger yInteger isInteger
        ((satisfies_equal xInteger yInteger).mp satisfied) checked
  | geq xInteger yInteger =>
      rw [Interpretation.Satisfies, eval_mkNode] at satisfied
      have isLess := of_decide_eq_true satisfied
      exact slackEquality_sound xInteger yInteger isInteger isBelow.1 isBelow.2.1 isBelow' isLess checked
  | @notGeq s t sInteger tInteger =>
      rw [Interpretation.Satisfies, eval_mkNode, List.map_singleton, eval_mkNode] at satisfied
      have isMore : ¬(t.eval I).toInt ≤ (s.eval I).toInt := by
        change (!decide ((t.eval I).toInt ≤ (s.eval I).toInt)) = true at satisfied
        simpa using satisfied
      have isLess : intValue I s ≤ intValue I (mkNode .sub [t, mkConstInt 1]) := by
        rw [intValue_sub, intValue_mkConstInt, intValue, intValue]
        omega
      have oneInteger : (mkConstInt 1).IsInteger := rfl
      have tBelow : (mkNode .sub [t, mkConstInt 1]).Below next := ⟨isBelow.1.2.1, trivial, trivial⟩
      exact slackEquality_sound (isInteger_sub tInteger oneInteger) sInteger isInteger tBelow isBelow.1.1 isBelow' isLess checked

/-- What is entailed under an assumption holds where it does, by the lemma for the equality that it is
turned into.
-/
theorem isGeq_of_checkWithAssumption {assumption : Node}
    (isAssumption : IsAssumption assumption) (aInteger : a.IsInteger) (bInteger : b.IsInteger)
    (isBelow : assumption.Below next) (aBelow : a.Below next) (bBelow : b.Below next) (satisfied : I.Satisfies assumption)
    (checked : checkWithAssumption id aent next assumption a b strict = true)
    : IsGeq I a b strict := by
  have isDifference := checkEquality_sound isAssumption (isInteger_sub aInteger bInteger) isBelow
    ⟨aBelow, bBelow, trivial⟩ satisfied checked
  rw [intValue_sub] at isDifference
  exact ⟨by omega, fun isStrict => by have isPositive := isDifference.2 isStrict; omega⟩

/-- An assumption that is tried later has a fresh name of its own. -/
theorem isGeq_of_checkWithAssumptions {assumptions : List Node}
    (areAssumptions : ∀ assumption ∈ assumptions, IsAssumption assumption) (aInteger : a.IsInteger)
    (bInteger : b.IsInteger) (areBelow : ∀ assumption ∈ assumptions, assumption.Below next) (aBelow : a.Below next)
    (bBelow : b.Below next) (satisfied : ∀ assumption ∈ assumptions, I.Satisfies assumption)
    (checked : checkWithAssumptions id aent next assumptions a b strict = true)
    : IsGeq I a b strict := by
  induction assumptions generalizing next with
  | nil => cases checked
  | cons assumption rest ih =>
      rw [checkWithAssumptions] at checked
      split at checked
      · next isChecked =>
          exact isGeq_of_checkWithAssumption (areAssumptions _ List.mem_cons_self) aInteger bInteger
            (areBelow _ List.mem_cons_self) aBelow bBelow (satisfied _ List.mem_cons_self) isChecked
      · have le := Nat.le_succ next
        exact ih (fun _ isMem => areAssumptions _ (List.mem_cons_of_mem _ isMem))
          (fun _ isMem => (areBelow _ (List.mem_cons_of_mem _ isMem)).mono le) (aBelow.mono le) (bBelow.mono le)
          (fun _ isMem => satisfied _ (List.mem_cons_of_mem _ isMem)) checked

/-- Entailment under one assumption, and under one of several. -/
theorem checkWithAssumption_sound (id : Node → Nat) (aent : ArithEntail) {next : Nat} {a b : Node} (strict : Bool)
    (aInteger : a.IsInteger) (bInteger : b.IsInteger) (aBelow : a.Below next) (bBelow : b.Below next)
    : (∀ assumption, IsAssumption assumption → assumption.Below next
        → checkWithAssumption id aent next assumption a b strict = true
        → ∀ I : Interpretation, I.Satisfies assumption → IsGeq I a b strict)
      ∧ ∀ assumptions, (∀ assumption ∈ assumptions, IsAssumption assumption ∧ assumption.Below next)
        → checkWithAssumptions id aent next assumptions a b strict = true
        → ∀ I : Interpretation, (∀ assumption ∈ assumptions, I.Satisfies assumption) → IsGeq I a b strict :=
  ⟨fun _ isAssumption isBelow checked _ satisfied =>
      isGeq_of_checkWithAssumption isAssumption aInteger bInteger isBelow aBelow bBelow satisfied checked,
    fun _ areAssumptions checked _ satisfied =>
      isGeq_of_checkWithAssumptions (fun _ isMem => (areAssumptions _ isMem).1) aInteger bInteger
        (fun _ isMem => (areAssumptions _ isMem).2) aBelow bBelow satisfied checked⟩

/-- A constant and a length are compared with a constant. -/
def checkLength (n : Node) (strict : Bool) : Bool :=
  match n with
  | .apply .sub (.cons (.apply .add (.cons (.const (.int y)) (.cons (.apply .stringLength (.cons _ .nil)) .nil)))
      (.cons (.const (.int b)) .nil)) => decide (if strict then b < y else b ≤ y)
  | _ => false

theorem le_of_checkLength {n : Node} (checked : checkLength n strict = true)
    : 0 ≤ intValue I n ∧ (strict = true → 0 < intValue I n) := by
  unfold checkLength at checked
  split at checked
  · next y s b =>
      have isValue
          : intValue I (.apply .sub (.cons (.apply .add (.cons (.const (.int y))
              (.cons (.apply .stringLength (.cons s .nil)) .nil))) (.cons (.const (.int b)) .nil)))
            = y + (s.eval I).length - b := by
        simp [intValue, Node.eval, Nodes.eval, Kind.eval, Value.toInt]
      rw [decide_eq_true_eq] at checked
      rw [isValue]
      cases strict with
      | false =>
          rw [if_neg Bool.false_ne_true] at checked
          exact ⟨by omega, fun isStrict => by cases isStrict⟩
      | true =>
          rw [if_pos rfl] at checked
          exact ⟨by omega, fun _ => by omega⟩
  · cases checked

def lengthEntail : ArithEntail where
  rewriteArith a := a
  check := checkLength
  intValue_rewriteArith _ _ _ := rfl
  nonneg_of_check _ _ _ _ checked := (le_of_checkLength checked).1
  pos_of_check _ _ _ checked := (le_of_checkLength checked).2 rfl

/-- `x >= 3` entails `x > 2`, where `x` is replaced by `3` and a length. -/
theorem checkWithAssumption_sound_three
    : checkWithAssumption (fun _ => 0) lengthEntail 1 (mkNode .geq [.var .int 0, mkConstInt 3]) (.var .int 0)
        (mkConstInt 2) true = true
      ∧ ∀ I : Interpretation, I.Satisfies (mkNode .geq [.var .int 0, mkConstInt 3])
        → IsGeq I (.var .int 0) (mkConstInt 2) true := by
  have isChecked
      : checkWithAssumption (fun _ => 0) lengthEntail 1 (mkNode .geq [.var .int 0, mkConstInt 3]) (.var .int 0)
          (mkConstInt 2) true = true := by
    decide
  have isInteger : (Node.var .int 0).IsInteger := rfl
  have isInteger' (n : Int) : (mkConstInt n).IsInteger := rfl
  have isBelow : (Node.var .int 0).Below 1 := Nat.lt_succ_self 0
  have isSound := checkWithAssumption_sound (fun _ => 0) lengthEntail true isInteger (isInteger' 2) isBelow trivial
  exact ⟨isChecked, isSound.1 _ (.geq isInteger (isInteger' 3)) ⟨isBelow, trivial, trivial⟩ isChecked⟩

end Ava6.Strings.Entailment

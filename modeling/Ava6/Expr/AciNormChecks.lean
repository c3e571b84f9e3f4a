import Ava6.Expr.AciNormAbsorb
import Ava6.Library.Numbering

/-! The checks of steps that normalize or absorb, after any other checks. -/

namespace Ava6.Expr.Aci

open Library

variable {k : Kind} {attrs : Attributes}

namespace Check

def Typed : Check → Prop
  | .aciNorm a b => Aci.Typed a ∧ Aci.Typed b
  | .absorb a _ => Aci.Typed a

/-- What a check accepts, whatever is known before it. -/
def accepts (id : Node → Nat) : Check → Bool
  | .aciNorm a b =>
      if a.kind = b.kind then decide (computeNormalForm id a = computeNormalForm id b)
      else decide (a = computeNormalForm id b) || decide (computeNormalForm id a = b)
  | .absorb a z =>
      match a.kind with
      | none => false
      | some k => decide (getZeroElement k a.type = some z) && absorbs k z a

end Check

/-- Attributes that are right. -/
structure Attributes.Exact (id : Node → Nat) (attrs : Attributes) : Prop where
  normal : ∀ a an, attrs.normalForm a = some an → an = computeNormalForm id a
  absorb : AbsorbExact attrs

variable {id : Node → Nat}

theorem getACINormalForm_spec (isExact : attrs.Exact id) (a : Node)
    : (getACINormalForm id attrs a).1 = computeNormalForm id a
      ∧ (getACINormalForm id attrs a).2.Exact id := by
  rw [getACINormalForm]
  split
  · next an known => exact ⟨isExact.normal a an known, isExact⟩
  · refine ⟨rfl, fun b bn known => ?_, isExact.absorb⟩
    by_cases same : b = a
    · subst same
      have isNew : some (computeNormalForm id b) = some bn :=
        (Function.update_self b _ attrs.normalForm).symm.trans known
      exact (Option.some.inj isNew).symm
    · exact isExact.normal b bn ((Function.update_of_ne same _ attrs.normalForm).symm.trans known)

/-- A check answers as it does without attributes, and leaves exact ones. -/
theorem isACINorm_spec (isExact : attrs.Exact id) (a b : Node)
    : (isACINorm id attrs a b).1 = (Check.aciNorm a b).accepts id
      ∧ (isACINorm id attrs a b).2.Exact id := by
  obtain ⟨isFirst, exactFirst⟩ := getACINormalForm_spec isExact a
  obtain ⟨isSecond, exactSecond⟩ := getACINormalForm_spec exactFirst b
  rw [Check.accepts, ← isFirst, ← isSecond]
  simp only [isACINorm]
  split
  · exact ⟨rfl, exactSecond⟩
  · exact ⟨rfl, exactSecond⟩

/-- A check ends with one result, and what is known stays right. -/
theorem check_spec (isExact : attrs.Exact id) {c : Check} (typed : c.Typed)
    : ∃ attrs' bound, attrs'.Exact id
      ∧ (∀ more, check id (bound + more) attrs c = some (c.accepts id, attrs'))
      ∧ ∀ steps result, check id steps attrs c = some result → result = (c.accepts id, attrs') := by
  cases c with
  | aciNorm a b =>
      obtain ⟨isResult, isExact'⟩ := isACINorm_spec isExact a b
      refine ⟨_, 0, isExact', fun more => ?_, fun steps result done => ?_⟩
      · rw [check, ← isResult]
      · rw [check] at done
        rw [← Option.some.inj done, ← isResult]
  | absorb a z =>
      simp only [check, Check.accepts]
      cases isKind : a.kind with
      | none => exact ⟨attrs, 0, isExact, fun _ => rfl, fun _ _ done => (Option.some.inj done).symm⟩
      | some k =>
          simp only
          by_cases isZero : getZeroElement k a.type = some z
          · obtain ⟨attrs', bound, absorbExact, sameNormal, ends, unique⟩ :=
              isAbsorb_spec isExact.absorb typed isKind isZero
            simp only [isZero, ne_eq, not_true_eq_false, if_false, decide_true, Bool.true_and]
            exact ⟨attrs', bound, ⟨sameNormal ▸ isExact.normal, absorbExact⟩, ends, unique⟩
          · simp only [isZero, ne_eq, not_false_eq_true, if_true, decide_false, Bool.false_and]
            exact ⟨attrs, 0, isExact, fun _ => rfl, fun _ _ done => (Option.some.inj done).symm⟩

/-- The attributes after any sequence of checks. -/
inductive Reachable (id : Node → Nat) : Attributes → Prop
  | empty : Reachable id .empty
  | check {attrs attrs' : Attributes} {c : Check} {steps : Nat} {accepted : Bool}
      (before : Reachable id attrs) (typed : c.Typed)
      (done : Aci.check id steps attrs c = some (accepted, attrs')) : Reachable id attrs'

/-- The attributes after any checks are exact, by induction on the checks. -/
theorem Reachable.exact (reachable : Reachable id attrs) : attrs.Exact id := by
  induction reachable with
  | empty => exact ⟨nofun, nofun⟩
  | check before typed done ih =>
      obtain ⟨attrs', bound, isExact, ends, unique⟩ := check_spec ih typed
      cases unique _ _ done
      exact isExact

/-- Two terms whose checks are accepted have the same value. -/
theorem eval_of_accepts {E U : Type} (I : Interpretation E U) {a b : Node} (wellTyped : WellTyped a)
    (wellTyped' : WellTyped b) (accepted : (Check.aciNorm a b).accepts id = true)
    : I.eval a = I.eval b := by
  have first : I.eval (computeNormalForm id a) = I.eval a := eval_computeNormalForm I wellTyped
  have second : I.eval (computeNormalForm id b) = I.eval b := eval_computeNormalForm I wellTyped'
  rw [Check.accepts] at accepted
  split at accepted
  · rw [← first, ← second, of_decide_eq_true accepted]
  · rcases Bool.or_eq_true _ _ ▸ accepted with same | same
    · rw [← second, ← of_decide_eq_true same]
    · rw [← first, of_decide_eq_true same]

/-- An absorbed term has the value of the zero element, by the lemma for an argument at any depth. -/
theorem eval_of_accepts_absorb {E U : Type} (I : Interpretation E U) {a z : Node}
    (wellTyped : WellTyped a) (accepted : (Check.absorb a z).accepts id = true)
    : I.eval a = I.eval z := by
  simp only [Check.accepts] at accepted
  cases isKind : a.kind with
  | none =>
      rw [isKind] at accepted
      cases accepted
  | some k =>
      simp only [isKind, Bool.and_eq_true, decide_eq_true_eq] at accepted
      obtain ⟨isZero, below⟩ := accepted
      have hasOp : (operation k a.type : Option (MonoidOn (Value E U))).isSome := by
        cases k <;> cases isType : a.type <;> simp [operation, getZeroElement, isType] at isZero ⊢
      obtain ⟨m, isOp⟩ := Option.isSome_iff_exists.mp hasOp
      refine eval_of_absorbs I isOp isZero a ⟨wellTyped, ?_⟩ below
      cases a with
      | leaf symbol => cases isKind
      | apply k children => cases isKind; cases k <;> first | rfl | cases isZero

theorem accepts_same_kind {children others : List Node}
    : (Check.aciNorm (.apply k children) (.apply k others)).accepts id = true
      ↔ computeNormalForm id (.apply k children) = computeNormalForm id (.apply k others) := by
  have sameKind : (Node.apply k children).kind = (Node.apply k others).kind := rfl
  rw [Check.accepts, if_pos sameKind, decide_eq_true_iff]

/-- A check accepts just the terms with the same flattened arguments, as sets or multisets, which their
sorted lists decide.
-/
theorem accepts_iff (injective : Function.Injective id) {children others : List Node} {nt : Node}
    (sameType : (Node.apply k children).type = (Node.apply k others).type)
    (isNull : getNullTerminator k (Node.apply k children).type = some nt)
    : (Check.aciNorm (.apply k children) (.apply k others)).accepts id = true
      ↔ SameTerms k (flats k nt children) (flats k nt others) := by
  rw [accepts_same_kind]
  exact computeNormalForm_eq_iff injective sameType isNull

/-- Without a null terminator nothing is normalised. -/
theorem accepts_iff_eq {children others : List Node}
    (sameType : (Node.apply k children).type = (Node.apply k others).type)
    (noNull : getNullTerminator k (Node.apply k children).type = none)
    : (Check.aciNorm (.apply k children) (.apply k others)).accepts id = true
      ↔ children = others := by
  rw [accepts_same_kind, computeNormalForm_none rfl noNull,
    computeNormalForm_none rfl (sameType ▸ noNull)]
  simp

/-- The checks with some attributes are sound and exact. -/
structure SoundAndExact (id : Node → Nat) (attrs : Attributes) : Prop where
  /-- Accepted terms have the same value. -/
  aciNorm_sound {E U : Type} (I : Interpretation E U) (a b : Node) : WellTyped a → WellTyped b →
    (isACINorm id attrs a b).1 = true → I.eval a = I.eval b
  /-- Terms of one kind and type with a neutral term are accepted exactly for the same flattened
  children. -/
  aciNorm_exact (k : Kind) (children others : List Node) (nt : Node) :
    (Node.apply k children).type = (Node.apply k others).type →
    getNullTerminator k (Node.apply k children).type = some nt →
    ((isACINorm id attrs (.apply k children) (.apply k others)).1 = true
      ↔ SameTerms k (flats k nt children) (flats k nt others))
  /-- Without a neutral term only equal terms are accepted. -/
  aciNorm_abstract (k : Kind) (children others : List Node) :
    (Node.apply k children).type = (Node.apply k others).type →
    getNullTerminator k (Node.apply k children).type = none →
    ((isACINorm id attrs (.apply k children) (.apply k others)).1 = true ↔ children = others)
  /-- A term accepted as absorbed has the value of the absorbing element. -/
  absorb_sound {E U : Type} (I : Interpretation E U) (a z : Node) (steps : Nat)
    (attrs' : Attributes) : WellTyped a →
    check id steps attrs (.absorb a z) = some (true, attrs') → I.eval a = I.eval z
  /-- Every check ends. -/
  check_ends (c : Check) : c.Typed → ∃ bound, ∀ more, (check id (bound + more) attrs c).isSome

/-- Checks are sound and exact after any sequence of checks. -/
theorem checks_sound_and_exact (injective : Function.Injective id) (reachable : Reachable id attrs)
    : SoundAndExact id attrs := by
  have isExact := reachable.exact
  have norm (a b : Node) : (isACINorm id attrs a b).1 = (Check.aciNorm a b).accepts id :=
    (isACINorm_spec isExact a b).1
  refine ⟨?_, ?_, ?_, ?_, ?_⟩
  · intro E U I a b wellTyped wellTyped' accepted
    exact eval_of_accepts I wellTyped wellTyped' (norm a b ▸ accepted)
  · intro k children others nt sameType isNull
    rw [norm]
    exact accepts_iff injective sameType isNull
  · intro k children others sameType noNull
    rw [norm]
    exact accepts_iff_eq sameType noNull
  · intro E U I a z steps attrs' wellTyped accepted
    have typed : (Check.absorb a z).Typed := wellTyped.typed
    obtain ⟨_, _, _, _, unique⟩ := check_spec isExact typed
    have isResult : true = (Check.absorb a z).accepts id :=
      congrArg Prod.fst (unique steps _ accepted)
    exact eval_of_accepts_absorb I wellTyped isResult.symm
  · intro c typed
    obtain ⟨_, bound, _, ends, _⟩ := check_spec isExact typed
    exact ⟨bound, fun more => by rw [ends more]; rfl⟩

section Examples

/-- Three bit-vectors of unknown size. -/
def unsized (name : Nat) : Node := .leaf (.other name .abstract)

/-- Disjunctions of bit-vectors of unknown size are not reassociated, since their neutral term is not
known. -/
theorem abstract_not_accepted
    : ∃ children others : List Node, WellTyped (.apply .bitvectorOr children)
      ∧ WellTyped (.apply .bitvectorOr others)
      ∧ (Node.apply .bitvectorOr children).type = (Node.apply .bitvectorOr others).type
      ∧ (∀ nt : Node, nt.kind = none →
        SameTerms .bitvectorOr (flats .bitvectorOr nt children) (flats .bitvectorOr nt others))
      ∧ ∀ id, (isACINorm id .empty (.apply .bitvectorOr children) (.apply .bitvectorOr others)).1
        = false := by
  have types : (Node.apply .bitvectorOr [unsized 0, .apply .bitvectorOr [unsized 1, unsized 2]]).type
      = (Node.apply .bitvectorOr [.apply .bitvectorOr [unsized 0, unsized 1], unsized 2]).type := by
    decide +kernel
  refine ⟨[unsized 0, .apply .bitvectorOr [unsized 1, unsized 2]],
    [.apply .bitvectorOr [unsized 0, unsized 1], unsized 2], ?_, ?_, types, ?_, ?_⟩
  · simp [WellTyped, AllWellTyped, Node.types, Node.type, unsized, Leaf.type, TypeNode.common,
      TypeNode.leastUpperBound, ArgFits]
  · simp [WellTyped, AllWellTyped, Node.types, Node.type, unsized, Leaf.type, TypeNode.common,
      TypeNode.leastUpperBound, ArgFits]
  · intro nt notKind
    have notApply (args : List Node) : Node.apply .bitvectorOr args ≠ nt := by
      rintro rfl
      cases notKind
    simp [SameTerms, isAssocCommIdem, flats, flat, notApply, unsized]
  · intro id
    rw [(isACINorm_spec (Reachable.empty.exact) _ _).1, Bool.eq_false_iff]
    intro accepted
    have equal := (accepts_iff_eq types (by decide +kernel)).mp accepted
    simp [unsized] at equal

deriving instance Encodable for TypeNode
deriving instance Encodable for Kind
deriving instance Encodable for Leaf

/-- A number for each node. -/
def nodeNumber : Node → Nat
  | .leaf symbol => 2 * Encodable.encode symbol
  | .apply k children => 2 * treeNumber (Encodable.encode k) (children.map nodeNumber) + 1

theorem nodeNumber_inj (a b : Node) (same : nodeNumber a = nodeNumber b) : a = b := by
  cases a with
  | leaf symbol =>
      cases b with
      | leaf symbol' =>
          rw [nodeNumber, nodeNumber] at same
          rw [Encodable.encode_injective (Nat.eq_of_mul_eq_mul_left Nat.two_pos same)]
      | apply k' others =>
          rw [nodeNumber, nodeNumber] at same
          omega
  | apply k children =>
      cases b with
      | leaf symbol' =>
          rw [nodeNumber, nodeNumber] at same
          omega
      | apply k' others =>
          rw [nodeNumber, nodeNumber] at same
          obtain ⟨kinds, numbers⟩ := treeNumber_inj.mp (Nat.eq_of_mul_eq_mul_left Nat.two_pos (Nat.succ.inj same))
          rw [Encodable.encode_injective kinds, eq_of_map_eq (fun n _ m => nodeNumber_inj n m) numbers]

def formula (name : Nat) : Node := .leaf (.other name .bool)

def nested : Node := .apply .or [formula 0, .apply .or [formula 1, constBool false], formula 1]

/-- After checks of the nested disjunction against two of its disjuncts. -/
def afterChecks : Attributes :=
  (isACINorm nodeNumber (isACINorm nodeNumber .empty nested (formula 0)).2 nested (formula 1)).2

theorem reachable_afterChecks : Reachable nodeNumber afterChecks := by
  have typed (name : Nat) : (Check.aciNorm nested (formula name)).Typed := by
    simp [Check.Typed, Typed, AllTyped, Node.types, Node.type, nested, formula, constBool, Leaf.type, ArgFits]
  have step {attrs : Attributes} (before : Reachable nodeNumber attrs) (name : Nat)
      : Reachable nodeNumber (isACINorm nodeNumber attrs nested (formula name)).2 :=
    before.check (typed name) (show Aci.check nodeNumber 0 attrs _ = some (_, _) from rfl)
  exact step (step .empty 0) 1

theorem disjunction_normalized
    : Reachable nodeNumber afterChecks
      ∧ (isACINorm nodeNumber afterChecks nested (.apply .or [formula 1, formula 0])).1 = true
      ∧ ∀ I : Interpretation Nat Nat, I.eval nested = I.eval (.apply .or [formula 1, formula 0]) := by
  have checks := checks_sound_and_exact (fun a b => nodeNumber_inj a b) reachable_afterChecks
  have accepted : (isACINorm nodeNumber afterChecks nested (.apply .or [formula 1, formula 0])).1 = true :=
    (checks.aciNorm_exact .or [formula 0, .apply .or [formula 1, constBool false], formula 1] [formula 1, formula 0]
      (constBool false) (by rw [Node.type, Node.type]) rfl).mpr (fun n => by
        simp [flats, flat, formula, constBool, or_comm])
  refine ⟨reachable_afterChecks, accepted, fun I => checks.aciNorm_sound I _ _ ?_ ?_ accepted⟩
  · simp [nested, WellTyped, AllWellTyped, Node.types, Node.type, formula, constBool, Leaf.type, ArgFits]
  · simp [WellTyped, AllWellTyped, Node.types, Node.type, formula, Leaf.type, ArgFits]

end Examples

end Ava6.Expr.Aci

import Mathlib.Data.List.Induction
import Mathlib.Logic.Function.Basic

/-! Logics as sets of theory modules with flags for arithmetic: what changes them, and how they are compared.
A call that does not return throws an exception with a message.
-/

namespace Ava6.Theory

inductive TheoryId
  | builtin | bool | uf | arith | bv | arrays | datatypes | sets | strings | quantifiers
  deriving DecidableEq, Repr

/-- The ids in the order of the enumeration. -/
def TheoryId.all : List TheoryId :=
  [.builtin, .bool, .uf, .arith, .bv, .arrays, .datatypes, .sets, .strings, .quantifiers]

theorem TheoryId.mem_all (id : TheoryId) : id ∈ all := by
  cases id <;> decide

/-- A theory that counts for sharing. -/
def isTrueTheory : TheoryId → Bool
  | .builtin | .bool | .quantifiers => false
  | _ => true

/-- The string is empty where it was not set, or was reset by a change. -/
structure LogicInfo where
  logicString : List Char
  theories : TheoryId → Bool
  sharingTheories : Nat
  integers : Bool
  reals : Bool
  linear : Bool
  differenceLogic : Bool
  locked : Bool

namespace LogicInfo

def isLockedError : String := "This LogicInfo is locked, and cannot be modified"

def notLockedError : String := "This LogicInfo isn't locked yet, and cannot be queried"

def inconsistencyError : String := "LogicInfo internal inconsistency"

/-- `enableTheory` on a logic that is not locked. -/
def withTheory (id : TheoryId) (info : LogicInfo) : LogicInfo :=
  if info.theories id then info
  else
    { info with
      logicString := []
      theories := Function.update info.theories id true
      sharingTheories := info.sharingTheories + if isTrueTheory id then 1 else 0 }

/-- `disableTheory` on a logic that is not locked. -/
def withoutTheory (id : TheoryId) (info : LogicInfo) : LogicInfo :=
  if info.theories id then
    let info := { info with sharingTheories := info.sharingTheories - if isTrueTheory id then 1 else 0 }
    if id = .builtin ∨ id = .bool then info
    else { info with logicString := [], theories := Function.update info.theories id false }
  else info

def withIntegers (info : LogicInfo) : LogicInfo :=
  { withTheory .arith { info with logicString := [] } with integers := true }

def withoutIntegers (info : LogicInfo) : LogicInfo :=
  let info := { info with logicString := [], integers := false }
  if info.reals then info else withoutTheory .arith info

def withReals (info : LogicInfo) : LogicInfo :=
  { withTheory .arith { info with logicString := [] } with reals := true }

def withoutReals (info : LogicInfo) : LogicInfo :=
  let info := { info with logicString := [], reals := false }
  if info.integers then info else withoutTheory .arith info

def withArithmetic (linear differenceLogic : Bool) (info : LogicInfo) : LogicInfo :=
  { info with logicString := [], linear := linear, differenceLogic := differenceLogic }

def lock (info : LogicInfo) : LogicInfo := { info with locked := true }

/-- A change is refused where the logic is locked. -/
def modify (change : LogicInfo → LogicInfo) (info : LogicInfo) : Except String LogicInfo :=
  if info.locked then .error isLockedError else .ok (change info)

def enableTheory (id : TheoryId) : LogicInfo → Except String LogicInfo := modify (withTheory id)

def disableTheory (id : TheoryId) : LogicInfo → Except String LogicInfo := modify (withoutTheory id)

def enableIntegers : LogicInfo → Except String LogicInfo := modify withIntegers

def disableIntegers : LogicInfo → Except String LogicInfo := modify withoutIntegers

def enableReals : LogicInfo → Except String LogicInfo := modify withReals

def disableReals : LogicInfo → Except String LogicInfo := modify withoutReals

def arithOnlyDifference : LogicInfo → Except String LogicInfo := modify (withArithmetic true true)

def arithOnlyLinear : LogicInfo → Except String LogicInfo := modify (withArithmetic true false)

def arithNonLinear : LogicInfo → Except String LogicInfo := modify (withArithmetic false false)

/-- No theory is enabled. -/
def blank (integers reals : Bool) : LogicInfo := ⟨[], fun _ => false, 0, integers, reals, false, false, false⟩

/-- The constructor without arguments: the most general logic. -/
def general : LogicInfo := TheoryId.all.foldl (fun info id => info.withTheory id) (blank true true)

def enableEverything : LogicInfo → Except String LogicInfo := modify fun _ => general

/-- Whether the flags of arithmetic are compared, and how. -/
def compareFlags (both : Bool) (flags : Bool) : Bool := if both then flags else true

/-- `==` -/
def eq (info other : LogicInfo) : Except String Bool :=
  if !(info.locked && other.locked) then .error notLockedError
  else if TheoryId.all.any fun id => info.theories id != other.theories id then .ok false
  else if info.sharingTheories ≠ other.sharingTheories then .error inconsistencyError
  else .ok (compareFlags (info.theories .arith)
    (info.integers == other.integers && info.reals == other.reals && info.linear == other.linear
      && info.differenceLogic == other.differenceLogic))

/-- `<=` -/
def le (info other : LogicInfo) : Except String Bool :=
  if !(info.locked && other.locked) then .error notLockedError
  else if TheoryId.all.any fun id => info.theories id && !other.theories id then .ok false
  else if ¬info.sharingTheories ≤ other.sharingTheories then .error inconsistencyError
  else .ok (compareFlags (info.theories .arith && other.theories .arith)
    ((!info.integers || other.integers) && (!info.reals || other.reals) && (info.linear || !other.linear)
      && (info.differenceLogic || !other.differenceLogic)))

/-- `>=` -/
def ge (info other : LogicInfo) : Except String Bool :=
  if !(info.locked && other.locked) then .error notLockedError
  else if TheoryId.all.any fun id => !info.theories id && other.theories id then .ok false
  else if ¬info.sharingTheories ≥ other.sharingTheories then .error inconsistencyError
  else .ok (compareFlags (info.theories .arith && other.theories .arith)
    ((info.integers || !other.integers) && (info.reals || !other.reals) && (!info.linear || other.linear)
      && (!info.differenceLogic || other.differenceLogic)))

def countTrue (theories : TheoryId → Bool) : Nat := TheoryId.all.countP fun id => isTrueTheory id && theories id

/-- What every change keeps. -/
structure Consistent (info : LogicInfo) : Prop where
  builtin : info.theories .builtin = true
  bool : info.theories .bool = true
  sharing : info.sharingTheories = countTrue info.theories
  linear : info.differenceLogic = true → info.linear = true

theorem countTrue_enable {theories : TheoryId → Bool} {id : TheoryId} (isNew : theories id = false)
    : countTrue (Function.update theories id true) = countTrue theories + if isTrueTheory id then 1 else 0 := by
  cases id <;> simp [countTrue, TheoryId.all, List.countP_cons, isTrueTheory, isNew] <;> omega

theorem countTrue_disable {theories : TheoryId → Bool} {id : TheoryId} (isOld : theories id = true)
    : countTrue (Function.update theories id false) = countTrue theories - if isTrueTheory id then 1 else 0 := by
  cases id <;> simp [countTrue, TheoryId.all, List.countP_cons, isTrueTheory, isOld] <;> omega

variable {info : LogicInfo} {id : TheoryId}

theorem theories_withTheory (id : TheoryId) (info : LogicInfo)
    : (info.withTheory id).theories = Function.update info.theories id true := by
  rw [withTheory]
  split
  · next enabled => rw [← enabled, Function.update_eq_self]
  · rfl

theorem theories_withoutTheory {id : TheoryId} (info : LogicInfo) (isReal : id ≠ .builtin ∧ id ≠ .bool)
    : (info.withoutTheory id).theories = Function.update info.theories id false := by
  rw [withoutTheory]
  split
  · exact congrArg theories (if_neg (not_or.mpr isReal))
  · next disabled => rw [← Bool.eq_false_iff.mpr disabled, Function.update_eq_self]

theorem Consistent.withTheory (consistent : info.Consistent) : (info.withTheory id).Consistent := by
  rw [LogicInfo.withTheory]
  split
  · exact consistent
  · next disabled =>
      have keeps {id' : TheoryId} (enabled : info.theories id' = true)
          : Function.update info.theories id true id' = true := by
        rw [Function.update_apply]
        split
        · rfl
        · exact enabled
      refine ⟨keeps consistent.builtin, keeps consistent.bool, ?_, consistent.linear⟩
      rw [countTrue_enable (Bool.eq_false_iff.mpr disabled), ← consistent.sharing]

theorem Consistent.withoutTheory (consistent : info.Consistent) : (info.withoutTheory id).Consistent := by
  rw [LogicInfo.withoutTheory]
  split
  · next enabled =>
      simp only
      split
      · next isBase =>
          have notTrue : isTrueTheory id = false := by rcases isBase with rfl | rfl <;> rfl
          exact ⟨consistent.builtin, consistent.bool, by simp [notTrue, consistent.sharing], consistent.linear⟩
      · next notBase =>
          obtain ⟨notBuiltin, notBool⟩ := not_or.mp notBase
          refine ⟨?_, ?_, ?_, consistent.linear⟩
          · exact (Function.update_of_ne (Ne.symm notBuiltin) _ _).trans consistent.builtin
          · exact (Function.update_of_ne (Ne.symm notBool) _ _).trans consistent.bool
          · rw [countTrue_disable enabled, ← consistent.sharing]
  · exact consistent

/-- Other fields do not matter, but for the arithmetic flags. -/
theorem Consistent.of_same {other : LogicInfo} (consistent : info.Consistent) (theories : other.theories = info.theories)
    (sharing : other.sharingTheories = info.sharingTheories)
    (linear : other.differenceLogic = true → other.linear = true)
    : other.Consistent :=
  ⟨theories ▸ consistent.builtin, theories ▸ consistent.bool, theories ▸ sharing ▸ consistent.sharing, linear⟩

theorem Consistent.withIntegers (consistent : info.Consistent) : info.withIntegers.Consistent := by
  have reset : Consistent { info with logicString := [] } := consistent.of_same rfl rfl consistent.linear
  have enabled : Consistent (LogicInfo.withTheory .arith { info with logicString := [] }) := reset.withTheory
  exact enabled.of_same rfl rfl enabled.linear

theorem Consistent.withReals (consistent : info.Consistent) : info.withReals.Consistent := by
  have reset : Consistent { info with logicString := [] } := consistent.of_same rfl rfl consistent.linear
  have enabled : Consistent (LogicInfo.withTheory .arith { info with logicString := [] }) := reset.withTheory
  exact enabled.of_same rfl rfl enabled.linear

theorem Consistent.withoutIntegers (consistent : info.Consistent) : info.withoutIntegers.Consistent := by
  have reset : Consistent { info with logicString := [], integers := false } :=
    consistent.of_same rfl rfl consistent.linear
  rw [LogicInfo.withoutIntegers]
  simp only
  split
  · exact reset
  · exact reset.withoutTheory

theorem Consistent.withoutReals (consistent : info.Consistent) : info.withoutReals.Consistent := by
  have reset : Consistent { info with logicString := [], reals := false } :=
    consistent.of_same rfl rfl consistent.linear
  rw [LogicInfo.withoutReals]
  simp only
  split
  · exact reset
  · exact reset.withoutTheory

theorem Consistent.withArithmetic (consistent : info.Consistent) {linear differenceLogic : Bool}
    (isLinear : differenceLogic = true → linear = true)
    : (info.withArithmetic linear differenceLogic).Consistent :=
  consistent.of_same rfl rfl isLinear

theorem Consistent.lock (consistent : info.Consistent) : info.lock.Consistent :=
  consistent.of_same rfl rfl consistent.linear

/-- Nothing is enabled but what is always there. -/
def base (integers reals : Bool) : LogicInfo := ((blank integers reals).withTheory .builtin).withTheory .bool

theorem consistent_base (integers reals : Bool) : (base integers reals).Consistent := by
  refine ⟨rfl, rfl, rfl, fun isDifference => ?_⟩
  cases isDifference

theorem consistent_general : general.Consistent := by
  have isGeneral : general = (TheoryId.all.drop 2).foldl (fun info id => info.withTheory id) (base true true) := rfl
  rw [isGeneral]
  generalize TheoryId.all.drop 2 = ids
  induction ids using List.reverseRecOn with
  | nil => exact consistent_base true true
  | append_singleton ids id ih =>
      rw [List.foldl_append]
      exact ih.withTheory

/-- The same theories, and the same arithmetic. -/
def Same (info other : LogicInfo) : Prop :=
  info.theories = other.theories
    ∧ (info.theories .arith = true → info.integers = other.integers ∧ info.reals = other.reals
      ∧ info.linear = other.linear ∧ info.differenceLogic = other.differenceLogic)

/-- No more theories, and no more of arithmetic where both have it. -/
def Below (info other : LogicInfo) : Prop :=
  (∀ id, info.theories id = true → other.theories id = true)
    ∧ (info.theories .arith = true → other.theories .arith = true → (info.integers = true → other.integers = true)
      ∧ (info.reals = true → other.reals = true) ∧ (other.linear = true → info.linear = true)
      ∧ (other.differenceLogic = true → info.differenceLogic = true))

theorem Below.refl (info : LogicInfo) : Below info info := ⟨fun _ => id, fun _ _ => ⟨id, id, id, id⟩⟩

theorem Below.trans {other third : LogicInfo} (first : Below info other) (second : Below other third)
    : Below info third := by
  refine ⟨fun id enabled => second.1 id (first.1 id enabled), fun enabled enabled' => ?_⟩
  obtain ⟨integers, reals, linear, differenceLogic⟩ := first.2 enabled (first.1 _ enabled)
  obtain ⟨integers', reals', linear', differenceLogic'⟩ := second.2 (first.1 _ enabled) enabled'
  exact ⟨integers' ∘ integers, reals' ∘ reals, linear ∘ linear', differenceLogic ∘ differenceLogic'⟩

theorem below_antisymm_iff {other : LogicInfo} : Below info other ∧ Below other info ↔ Same info other := by
  constructor
  · rintro ⟨first, second⟩
    have theories : info.theories = other.theories := funext fun id => Bool.eq_iff_iff.mpr ⟨first.1 id, second.1 id⟩
    refine ⟨theories, fun enabled => ?_⟩
    obtain ⟨integers, reals, linear, differenceLogic⟩ := first.2 enabled (first.1 _ enabled)
    obtain ⟨integers', reals', linear', differenceLogic'⟩ := second.2 (first.1 _ enabled) enabled
    exact ⟨Bool.eq_iff_iff.mpr ⟨integers, integers'⟩, Bool.eq_iff_iff.mpr ⟨reals, reals'⟩,
      Bool.eq_iff_iff.mpr ⟨linear', linear⟩, Bool.eq_iff_iff.mpr ⟨differenceLogic', differenceLogic⟩⟩
  · rintro ⟨theories, flags⟩
    refine ⟨⟨fun id enabled => theories ▸ enabled, fun enabled _ => ?_⟩,
      ⟨fun id enabled => theories ▸ enabled, fun enabled _ => ?_⟩⟩
    · obtain ⟨integers, reals, linear, differenceLogic⟩ := flags enabled
      exact ⟨integers ▸ id, reals ▸ id, linear ▸ id, differenceLogic ▸ id⟩
    · obtain ⟨integers, reals, linear, differenceLogic⟩ := flags (theories ▸ enabled)
      exact ⟨integers ▸ id, reals ▸ id, linear ▸ id, differenceLogic ▸ id⟩

theorem countTrue_mono {theories theories' : TheoryId → Bool} (isLess : ∀ id, theories id = true → theories' id = true)
    : countTrue theories ≤ countTrue theories' := by
  refine List.countP_mono_left fun id _ enabled => ?_
  rw [Bool.and_eq_true] at enabled ⊢
  exact ⟨enabled.1, isLess id enabled.2⟩

/-- A comparison looks at the theories first, then for an inconsistency, and last at the flags. -/
theorem comparison_cases {differs flags : Bool} {inconsistent P Q : Prop} [Decidable inconsistent] {msg : String}
    (isDifferent : differs = false ↔ P) (isConsistent : P → ¬inconsistent) (isFlags : P → (flags = true ↔ Q))
    {result : Except String Bool}
    (isResult : result = if differs then .ok false else if inconsistent then .error msg else .ok flags)
    : result = .ok true ∧ P ∧ Q ∨ result = .ok false ∧ ¬(P ∧ Q) := by
  subst isResult
  cases differs with
  | true => exact Or.inr ⟨rfl, fun both => nomatch isDifferent.mpr both.1⟩
  | false =>
      have same := isDifferent.mp rfl
      rw [if_neg Bool.false_ne_true, if_neg (isConsistent same)]
      cases flags with
      | true => exact Or.inl ⟨rfl, same, (isFlags same).mp rfl⟩
      | false => exact Or.inr ⟨rfl, fun both => nomatch (isFlags same).mpr both.2⟩

theorem compareFlags_iff {both flags : Bool} : compareFlags both flags = true ↔ (both = true → flags = true) := by
  cases both <;> simp [compareFlags]

section Comparisons

variable {other : LogicInfo} (consistent : info.Consistent) (consistent' : other.Consistent) (locked : info.locked = true)
  (locked' : other.locked = true)

include consistent consistent' locked locked'

theorem eq_cases : info.eq other = .ok true ∧ Same info other ∨ info.eq other = .ok false ∧ ¬Same info other := by
  have isResult := LogicInfo.eq.eq_def info other
  rw [locked, locked', if_neg (by decide)] at isResult
  refine comparison_cases ?_ (fun theories => ?_) (fun theories => ?_) isResult
  · simp [TheoryId.mem_all, funext_iff]
  · rw [consistent.sharing, consistent'.sharing, theories]
    exact not_not.mpr rfl
  · simp only [compareFlags_iff, Bool.and_eq_true, beq_iff_eq, and_assoc]

theorem le_cases : info.le other = .ok true ∧ Below info other ∨ info.le other = .ok false ∧ ¬Below info other := by
  have isResult := LogicInfo.le.eq_def info other
  rw [locked, locked', if_neg (by decide)] at isResult
  refine comparison_cases ?_ (fun theories => ?_) (fun theories => ?_) isResult
  · simp [TheoryId.mem_all]
  · rw [consistent.sharing, consistent'.sharing]
    exact not_not.mpr (countTrue_mono theories)
  · simp only [compareFlags_iff, Bool.and_eq_true, Bool.or_eq_true, Bool.not_eq_true', and_imp, and_assoc,
      ← Bool.not_eq_true, ← imp_iff_not_or, ← imp_iff_or_not]

theorem ge_cases : info.ge other = .ok true ∧ Below other info ∨ info.ge other = .ok false ∧ ¬Below other info := by
  have isResult := LogicInfo.ge.eq_def info other
  rw [locked, locked', if_neg (by decide)] at isResult
  refine comparison_cases ?_ (fun theories => ?_) (fun theories => ?_) isResult
  · simp only [List.any_eq_false, TheoryId.mem_all, forall_const, Bool.and_eq_true, Bool.not_eq_true', not_and,
      Bool.not_eq_true]
    exact forall_congr' fun id => by cases info.theories id <;> cases other.theories id <;> decide
  · rw [consistent.sharing, consistent'.sharing]
    exact not_not.mpr (countTrue_mono theories)
  · simp only [compareFlags_iff, Bool.and_eq_true, Bool.or_eq_true, Bool.not_eq_true', and_imp, and_assoc,
      ← Bool.not_eq_true, ← imp_iff_not_or, ← imp_iff_or_not]
    exact ⟨fun flags second first => flags first second, fun flags first second => flags second first⟩

end Comparisons

end LogicInfo

end Ava6.Theory

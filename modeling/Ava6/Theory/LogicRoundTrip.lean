import Ava6.Theory.LogicRuns
import Mathlib.Data.List.TakeWhile

/-! The name that is made for a logic is read back as that logic, where arithmetic has integers or reals if it is used.
Where it has neither, its name is one that is not read, so the name of the logic is not accepted.
-/

namespace Ava6.Theory

namespace LogicInfo

variable {info : LogicInfo}

/-- The name is accepted, and read as an equal logic. -/
def RoundTrips (info : LogicInfo) : Prop :=
  ∃ name info', info.getLogicString = .ok name ∧ ofString name = .ok info' ∧ info.eq info' = .ok true

theorem Same.trans {other third : LogicInfo} (first : Same info other) (second : Same other third) : Same info third := by
  rw [← below_antisymm_iff] at first second ⊢
  exact ⟨first.1.trans second.1, second.2.trans first.2⟩

theorem RoundTrips.intro {name : List Char} {info' : LogicInfo} (consistent : info.Consistent) (locked : info.locked = true)
    (isName : info.getLogicString = .ok name) (accepted : ofString name = .ok info') (same : Same info info')
    : info.RoundTrips := by
  obtain ⟨sound, locked', _⟩ := ofString_ok accepted
  refine ⟨name, info', isName, accepted, ?_⟩
  rcases eq_cases consistent sound.1 locked locked' with isEq | notEq
  · exact isEq.1
  · exact absurd same notEq.2

/-- The name is read as a C string as a whole. -/
def noNull (p : List Char) : Bool := p.all (· != Char.ofNat 0)

theorem noNull_append (p rest : List Char) : noNull (p ++ rest) = (noNull p && noNull rest) := List.all_append

theorem cString_eq_self {p : List Char} (isWhole : noNull p = true) : cString p = p :=
  List.takeWhile_eq_self_iff.mpr fun c isMem => decide_eq_true (bne_iff_ne.mp (List.all_eq_true.mp isWhole c isMem))

theorem noNull_front {quantified : Bool} {p : List Char} (isWhole : noNull p = true)
    : noNull (front quantified ++ p) = true := by
  have isWhole' : noNull (front quantified) = true := by cases quantified <;> decide
  rw [noNull_append, isWhole', isWhole]
  rfl

theorem ofString_front {quantified : Bool} {p : List Char} {st : ParseState} (notNil : p ≠ [])
    (isWhole : noNull p = true) (isRead : readTheories ⟨startOf quantified, "", p⟩ = .ok st) (ends : Ends st.p)
    : ofString (front quantified ++ p)
      = if st.p = [] then .ok { st.info with logicString := front quantified ++ p, locked := true }
        else .error (junkError (front quantified ++ p) st.p) := by
  rw [ofString_eq, cString_eq_self (noNull_front isWhole), parseLogic_front notNil isRead ends]
  rfl

theorem noNull_printIf {enabled : Bool} {name : String} (isWhole : noNull name.toList = true)
    : noNull (printIf enabled name) = true := by
  cases enabled with
  | false => rfl
  | true => exact isWhole

theorem noNull_arithString (info : LogicInfo) : noNull info.arithString = true := by
  rw [arithString]
  cases info.integers <;> cases info.reals <;> cases info.linear <;> cases info.differenceLogic <;> decide

theorem noNull_theoriesString (info : LogicInfo) : noNull info.theoriesString = true := by
  have arithmetic : noNull (if info.theories .arith then info.arithString else []) = true := by
    split
    · exact info.noNull_arithString
    · rfl
  have arrays : noNull (printIf (info.theories .arrays) (if info.sharingTheories = 1 then "AX" else "A")) = true := by
    split <;> exact noNull_printIf (by decide)
  simp only [theoriesString, noNull_append, Bool.and_eq_true]
  exact ⟨arrays, noNull_printIf (by decide), noNull_printIf (by decide), noNull_printIf (by decide),
    noNull_printIf (by decide), arithmetic, noNull_printIf (by decide)⟩

theorem seen_eq (theories : TheoryId → Bool) : namedTheories.countP theories = countTrue theories := by
  simp only [namedTheories, countTrue, TheoryId.all, List.countP_cons, List.countP_nil, isTrueTheory]
  simp
  omega

theorem consistent_qfAllSupported : qfAllSupported.Consistent := consistent_general.withoutTheory.lock

theorem getLogicString_all (consistent : info.Consistent) (noName : info.logicString = []) (locked : info.locked = true)
    (isAll : Same info qfAllSupported ∨ Same info general.lock)
    : info.getLogicString = .ok (front (info.theories .quantifiers) ++ "ALL".toList) := by
  rw [getLogicString, locked, if_neg (by decide), if_neg (not_not.mpr noName)]
  simp only
  rcases eq_cases consistent consistent_qfAllSupported locked rfl with isEq | notEq
  · rw [isEq.1]
    rfl
  · rw [notEq.1]
    simp only
    rw [hasEverything, locked, if_pos rfl]
    rcases eq_cases consistent consistent_general.lock locked rfl with isEq' | notEq'
    · rw [isEq'.1]
      rfl
    · exact absurd isAll (not_or.mpr ⟨notEq.2, notEq'.2⟩)

theorem getLogicString_theories (consistent : info.Consistent) (noName : info.logicString = [])
    (locked : info.locked = true) (notAll : ¬(Same info qfAllSupported ∨ Same info general.lock))
    : info.getLogicString
      = .ok (front (info.theories .quantifiers)
          ++ (info.theoriesString ++ printIf (countTrue info.theories == 0) "SAT")) := by
  obtain ⟨notQf, notEverything⟩ := not_or.mp notAll
  rw [getLogicString, locked, if_neg (by decide), if_neg (not_not.mpr noName)]
  simp only
  rcases eq_cases consistent consistent_qfAllSupported locked rfl with isEq | notEq
  · exact absurd isEq.2 notQf
  · rw [notEq.1]
    simp only
    rw [hasEverything, locked, if_pos rfl]
    rcases eq_cases consistent consistent_general.lock locked rfl with isEq' | notEq'
    · exact absurd isEq'.2 notEverything
    · rw [notEq'.1]
      simp only
      rw [seen_eq, consistent.sharing, if_neg (not_not.mpr rfl)]
      rfl

theorem theories_startOf (consistent : info.Consistent) {id : TheoryId} (isOther : id ∉ namedTheories)
    : (startOf (info.theories .quantifiers)).theories id = info.theories id := by
  rw [startOf, theories_withTheoryIf]
  cases id with
  | builtin => exact consistent.builtin.symm
  | bool => exact consistent.bool.symm
  | quantifiers => exact (Function.update_self _ _ _).trans (Bool.or_false _)
  | _ => exact absurd (by decide) isOther

/-- A logic with the same theories where no arithmetic is used. -/
theorem same_of_start {other : LogicInfo} (consistent : info.Consistent) (noArithmetic : info.theories .arith = false)
    (named : ∀ id ∈ namedTheories, other.theories id = info.theories id)
    (others : ∀ id, id ∉ namedTheories → other.theories id = (startOf (info.theories .quantifiers)).theories id)
    : Same info other := by
  refine ⟨funext fun id => ?_, fun usesArithmetic => ?_⟩
  · by_cases isNamed : id ∈ namedTheories
    · exact (named id isNamed).symm
    · rw [others id isNamed, theories_startOf consistent isNamed]
  · rw [noArithmetic] at usesArithmetic
    cases usesArithmetic

theorem same_all (isAll : Same info qfAllSupported ∨ Same info general.lock)
    : ∃ info', ofString (front (info.theories .quantifiers) ++ "ALL".toList) = .ok info' ∧ Same info info' := by
  rcases isAll with isQf | isEverything
  · have notQuantified : info.theories .quantifiers = false := congrFun isQf.1 _
    rw [notQuantified]
    exact ⟨_, rfl, isQf.trans ⟨rfl, fun _ => ⟨rfl, rfl, rfl, rfl⟩⟩⟩
  · have quantified : info.theories .quantifiers = true := congrFun isEverything.1 _
    rw [quantified]
    exact ⟨_, rfl, isEverything.trans ⟨rfl, fun _ => ⟨rfl, rfl, rfl, rfl⟩⟩⟩

theorem theories_of_countTrue_zero {theories : TheoryId → Bool} (isZero : countTrue theories = 0)
    : ∀ id ∈ namedTheories, theories id = false := by
  rw [← seen_eq, List.countP_eq_zero] at isZero
  exact fun id isNamed => Bool.eq_false_iff.mpr (isZero id isNamed)

theorem theories_of_countTrue_one {theories : TheoryId → Bool} (isOne : countTrue theories = 1)
    (arrays : theories .arrays = true)
    : ∀ id ∈ namedTheories.tail, theories id = false := by
  rw [← seen_eq, namedTheories, List.countP_cons_of_pos arrays, Nat.add_eq_right, List.countP_eq_zero] at isOne
  exact fun id isNamed => Bool.eq_false_iff.mpr (isOne id isNamed)

theorem roundTrip_none (consistent : info.Consistent) (isZero : countTrue info.theories = 0)
    : ∃ info', ofString (front (info.theories .quantifiers) ++ (info.theoriesString
        ++ printIf (countTrue info.theories == 0) "SAT"))
      = .ok info' ∧ Same info info' := by
  have disabled := theories_of_countTrue_zero isZero
  have isEmpty : info.theoriesString = [] := by
    simp only [namedTheories, List.forall_mem_cons] at disabled
    simp [theoriesString, printIf, disabled]
  rw [isEmpty, isZero]
  refine ⟨{ startOf (info.theories .quantifiers) with
    logicString := front (info.theories .quantifiers) ++ "SAT".toList, locked := true }, ?_, ?_⟩
  · cases info.theories .quantifiers <;> rfl
  · refine same_of_start consistent (disabled .arith (by decide)) (fun id isNamed => ?_) fun id _ => rfl
    rw [disabled id isNamed]
    exact isStart_startOf _ id isNamed

theorem roundTrip_arrays (consistent : info.Consistent) (isOne : countTrue info.theories = 1)
    (arrays : info.theories .arrays = true)
    : ∃ info', ofString (front (info.theories .quantifiers) ++ (info.theoriesString
        ++ printIf (countTrue info.theories == 0) "SAT"))
      = .ok info' ∧ Same info info' := by
  have disabled := theories_of_countTrue_one isOne arrays
  have isArrays : info.theoriesString = "AX".toList := by
    simp only [namedTheories, List.tail_cons, List.forall_mem_cons] at disabled
    simp [theoriesString, printIf, disabled, arrays, consistent.sharing, isOne]
  rw [isArrays, isOne]
  refine ⟨{ (startOf (info.theories .quantifiers)).withTheory .arrays with
    logicString := front (info.theories .quantifiers) ++ "AX".toList, locked := true }, ?_, ?_⟩
  · cases info.theories .quantifiers <;> rfl
  · refine same_of_start consistent (disabled .arith (by decide)) (fun id isNamed => ?_) fun id isOther => ?_
    · rw [theories_withTheory]
      rcases List.mem_cons.mp isNamed with rfl | isNamed'
      · rw [Function.update_self, arrays]
      · rw [disabled id isNamed', Function.update_of_ne, isStart_startOf _ id isNamed]
        rintro rfl
        exact absurd isNamed' (by decide)
    · rw [theories_withTheory, Function.update_of_ne]
      rintro rfl
      exact isOther (by decide)

theorem arithString_ne_nil (info : LogicInfo) : info.arithString ≠ [] := by
  rw [arithString]
  cases info.integers <;> cases info.reals <;> cases info.linear <;> cases info.differenceLogic <;> decide

theorem printIf_eq_nil {enabled : Bool} {name : String} (isNil : printIf enabled name = []) (notNil : name.toList ≠ [])
    : enabled = false := by
  cases enabled with
  | false => rfl
  | true => exact absurd isNil notNil

theorem theoriesString_ne_nil (isSome : countTrue info.theories ≠ 0) : info.theoriesString ≠ [] := by
  intro isNil
  simp only [theoriesString, List.append_eq_nil_iff] at isNil
  obtain ⟨arrays, uf, bv, datatypes, strings, arith, sets⟩ := isNil
  have noArrays : info.theories .arrays = false := by
    split at arrays <;> exact printIf_eq_nil arrays (by decide)
  have noArith : info.theories .arith = false := by
    split at arith
    · exact absurd arith info.arithString_ne_nil
    · next disabled => exact Bool.eq_false_iff.mpr disabled
  refine isSome ?_
  rw [← seen_eq, namedTheories]
  simp [noArrays, printIf_eq_nil uf (by decide), printIf_eq_nil bv (by decide), printIf_eq_nil datatypes (by decide),
    printIf_eq_nil strings (by decide), noArith, printIf_eq_nil sets (by decide)]

section Theories

variable (consistent : info.Consistent) (isSome : countTrue info.theories ≠ 0)
  (notArrays : info.theories .arrays = true → countTrue info.theories ≠ 1)

include consistent notArrays in
theorem readTheories_theoriesString (quantified : Bool)
    : readTheories ⟨startOf quantified, "", info.theoriesString⟩
      = readTheories ⟨readFront info (startOf quantified), "",
          (if info.theories .arith then info.arithString else []) ++ printIf (info.theories .sets) "FS"⟩ := by
  rw [← readTheories_front (isStart_startOf quantified), theoriesString, consistent.sharing]
  cases arrays : info.theories .arrays with
  | false => rfl
  | true => rw [if_neg (notArrays arrays)]

include consistent isSome notArrays

theorem roundTrip_theories (hasNumbers : info.HasNumbers)
    : ∃ info', ofString (front (info.theories .quantifiers) ++ (info.theoriesString
        ++ printIf (countTrue info.theories == 0) "SAT"))
      = .ok info' ∧ Same info info' := by
  obtain ⟨name, isRead⟩ := readTheories_all (isStart_startOf (info.theories .quantifiers)) hasNumbers consistent.linear
  rw [← readTheories_theoriesString consistent notArrays] at isRead
  have notNone : (countTrue info.theories == 0) = false := beq_eq_false_iff_ne.mpr isSome
  rw [notNone, printIf, if_neg Bool.false_ne_true, List.append_nil,
    ofString_front (theoriesString_ne_nil isSome) info.noNull_theoriesString isRead (Or.inl rfl), if_pos rfl]
  refine ⟨_, rfl, funext fun id => ?_, fun usesArithmetic => ?_⟩
  · simp only [theories_readAll hasNumbers (isStart_startOf _)]
    split
    · rfl
    · next isOther => exact (theories_startOf consistent isOther).symm
  · have sameNumbers := numbers_readAll (startOf (info.theories .quantifiers)) usesArithmetic
    simp only [numbers, Prod.mk.injEq] at sameNumbers
    exact ⟨sameNumbers.1.symm, sameNumbers.2.1.symm, sameNumbers.2.2.1.symm, sameNumbers.2.2.2.symm⟩

/-- The name is not accepted. -/
theorem junk_theories (noNumbers : ¬info.HasNumbers)
    : ∃ msg, ofString (front (info.theories .quantifiers) ++ (info.theoriesString
        ++ printIf (countTrue info.theories == 0) "SAT"))
      = .error msg := by
  obtain ⟨usesArithmetic, noNumbers⟩ := Classical.not_imp.mp noNumbers
  have isRead := readTheories_theoriesString consistent notArrays (info.theories .quantifiers)
  rw [if_pos usesArithmetic, readTheories_noNumbers noNumbers] at isRead
  have ends : Ends (info.arithString ++ printIf (info.theories .sets) "FS") := by
    rw [not_or, Bool.not_eq_true, Bool.not_eq_true] at noNumbers
    simp only [arithString, noNumbers]
    cases info.differenceLogic <;> cases info.linear <;> simp [Ends, startsWith, printIf]
  have notNone : (countTrue info.theories == 0) = false := beq_eq_false_iff_ne.mpr isSome
  have notNil : info.arithString ++ printIf (info.theories .sets) "FS" ≠ [] :=
    fun isNil => info.arithString_ne_nil (List.append_eq_nil_iff.mp isNil).1
  rw [notNone, printIf, if_neg Bool.false_ne_true, List.append_nil,
    ofString_front (theoriesString_ne_nil isSome) info.noNull_theoriesString isRead ends, if_neg notNil]
  exact ⟨_, rfl⟩

end Theories

theorem roundTrips_iff_of_noName (consistent : info.Consistent) (noName : info.logicString = [])
    (locked : info.locked = true)
    : info.RoundTrips ↔ info.HasNumbers := by
  by_cases isAll : Same info qfAllSupported ∨ Same info general.lock
  · have hasNumbers : info.HasNumbers := by
      intro usesArithmetic
      refine Or.inl ?_
      exact isAll.elim (fun same => (same.2 usesArithmetic).1) fun same => (same.2 usesArithmetic).1
    obtain ⟨info', accepted, same⟩ := same_all isAll
    exact iff_of_true (.intro consistent locked (getLogicString_all consistent noName locked isAll) accepted same)
      hasNumbers
  · have isName := getLogicString_theories consistent noName locked isAll
    by_cases isZero : countTrue info.theories = 0
    · have hasNumbers : info.HasNumbers := by
        intro usesArithmetic
        rw [theories_of_countTrue_zero isZero .arith (by decide)] at usesArithmetic
        cases usesArithmetic
      obtain ⟨info', accepted, same⟩ := roundTrip_none consistent isZero
      exact iff_of_true (.intro consistent locked isName accepted same) hasNumbers
    · by_cases isArrays : info.theories .arrays = true ∧ countTrue info.theories = 1
      · have hasNumbers : info.HasNumbers := by
          intro usesArithmetic
          rw [theories_of_countTrue_one isArrays.2 isArrays.1 .arith (by decide)] at usesArithmetic
          cases usesArithmetic
        obtain ⟨info', accepted, same⟩ := roundTrip_arrays consistent isArrays.2 isArrays.1
        exact iff_of_true (.intro consistent locked isName accepted same) hasNumbers
      · have notArrays := not_and.mp isArrays
        by_cases hasNumbers : info.HasNumbers
        · obtain ⟨info', accepted, same⟩ := roundTrip_theories consistent isZero notArrays hasNumbers
          exact iff_of_true (.intro consistent locked isName accepted same) hasNumbers
        · refine iff_of_false ?_ hasNumbers
          rintro ⟨name, info', isName', accepted, _⟩
          obtain ⟨msg, isJunk⟩ := junk_theories consistent isZero notArrays hasNumbers
          cases isName.symm.trans isName'
          cases isJunk.symm.trans accepted

/-- A logic that was read from a name keeps it. -/
theorem roundTrips_of_name (consistent : info.Consistent) (notNil : info.logicString ≠ []) (locked : info.locked = true)
    (accepted : ofString info.logicString = .ok info)
    : info.RoundTrips := by
  refine .intro consistent locked ?_ accepted ⟨rfl, fun _ => ⟨rfl, rfl, rfl, rfl⟩⟩
  rw [getLogicString, locked, if_neg (by decide), if_pos notNil]

/-- Once it is locked, a logic is read back from its name just if arithmetic has integers or reals. -/
theorem roundTrips_iff (consistent : info.Consistent) (hasOwnName : info.HasOwnName)
    : info.lock.RoundTrips ↔ info.HasNumbers := by
  by_cases noName : info.logicString = []
  · exact roundTrips_iff_of_noName consistent.lock noName rfl
  · obtain ⟨locked, accepted⟩ := hasOwnName.resolve_left noName
    have isLocked : info.lock = info := by rw [lock, ← locked]
    rw [isLocked]
    exact iff_of_true (roundTrips_of_name consistent noName locked accepted) (ofString_ok accepted).1.2

/-- A comparison that has the value it should, and does not fail. -/
def Decides (result : Except String Bool) (P : Prop) : Prop := ∃ b, result = .ok b ∧ (b = true ↔ P)

theorem Decides.of_cases {result : Except String Bool} {P : Prop} (cases : result = .ok true ∧ P ∨ result = .ok false ∧ ¬P)
    : Decides result P := by
  rcases cases with ⟨isResult, holds⟩ | ⟨isResult, fails⟩
  · exact ⟨true, isResult, iff_of_true rfl holds⟩
  · exact ⟨false, isResult, iff_of_false Bool.false_ne_true fails⟩

theorem Decides.iff {result : Except String Bool} {P : Prop} (decides : Decides result P) : result = .ok true ↔ P := by
  obtain ⟨b, rfl, isValue⟩ := decides
  exact ⟨fun isTrue => isValue.mp (Except.ok.inj isTrue), fun holds => congrArg _ (isValue.mpr holds)⟩

theorem Decides.unique {result result' : Except String Bool} {P : Prop} (decides : Decides result P)
    (decides' : Decides result' P)
    : result = result' := by
  obtain ⟨b, rfl, isValue⟩ := decides
  obtain ⟨b', rfl, isValue'⟩ := decides'
  exact congrArg _ (Bool.eq_iff_iff.mpr (isValue.trans isValue'.symm))

section Reached

variable {other : LogicInfo} (reached : Reached info) (reached' : Reached other)

include reached reached'

theorem decides_eq : Decides (info.lock.eq other.lock) (Same info.lock other.lock) :=
  .of_cases (eq_cases reached.keeps.1.lock reached'.keeps.1.lock rfl rfl)

theorem decides_le : Decides (info.lock.le other.lock) (Below info.lock other.lock) :=
  .of_cases (le_cases reached.keeps.1.lock reached'.keeps.1.lock rfl rfl)

theorem decides_ge : Decides (info.lock.ge other.lock) (Below other.lock info.lock) :=
  .of_cases (ge_cases reached.keeps.1.lock reached'.keeps.1.lock rfl rfl)

end Reached

/-- The comparisons of logics that are reached and locked are a partial order, its equivalence and its converse. -/
structure IsOrder : Prop where
  total {info other : LogicInfo} (reached : Reached info) (reached' : Reached other)
    : ∃ b b', info.lock.le other.lock = .ok b ∧ info.lock.eq other.lock = .ok b'
  refl {info : LogicInfo} (reached : Reached info) : info.lock.le info.lock = .ok true
  trans {info other third : LogicInfo} (reached : Reached info) (reached' : Reached other) (reached'' : Reached third)
    : info.lock.le other.lock = .ok true → other.lock.le third.lock = .ok true → info.lock.le third.lock = .ok true
  antisymm {info other : LogicInfo} (reached : Reached info) (reached' : Reached other)
    : info.lock.le other.lock = .ok true ∧ other.lock.le info.lock = .ok true ↔ info.lock.eq other.lock = .ok true
  converse {info other : LogicInfo} (reached : Reached info) (reached' : Reached other)
    : info.lock.ge other.lock = other.lock.le info.lock

theorem isOrder : IsOrder where
  total reached reached' := by
    obtain ⟨b, isLe, _⟩ := decides_le reached reached'
    obtain ⟨b', isEq, _⟩ := decides_eq reached reached'
    exact ⟨b, b', isLe, isEq⟩
  refl reached := (decides_le reached reached).iff.mpr (.refl _)
  trans reached reached' reached'' first second := by
    rw [(decides_le reached reached').iff] at first
    rw [(decides_le reached' reached'').iff] at second
    exact (decides_le reached reached'').iff.mpr (first.trans second)
  antisymm reached reached' := by
    rw [(decides_le reached reached').iff, (decides_le reached' reached).iff, (decides_eq reached reached').iff]
    exact below_antisymm_iff
  converse reached reached' := (decides_ge reached reached').unique (decides_le reached' reached)

/-- A logic that is reached has the right count of theories, and a name that is read as it exactly where arithmetic has
integers or reals; it has them wherever the theory of arithmetic was never enabled without them.
-/
theorem logicInfo_roundTrips {info : LogicInfo} (reached : Reached info)
    : info.sharingTheories = countTrue info.theories
      ∧ (info.lock.RoundTrips ↔ info.HasNumbers)
      ∧ (Run KeepsNumbers info → info.lock.RoundTrips)
      ∧ IsOrder :=
  ⟨reached.keeps.1.sharing, roundTrips_iff reached.keeps.1 reached.keeps.2,
    fun run => (roundTrips_iff run.keeps.1 run.keeps.2).mpr run.hasNumbers, isOrder⟩

/-- Reals and their theory without strings, from the most general logic. -/
def onlyReals : LogicInfo := (general.withoutIntegers.withTheory .arith).withoutTheory .strings

theorem run_onlyReals {allowed : LogicInfo → Call → Prop} (isAllowed : ∀ info call, info.reals = true → allowed info call)
    : Run allowed onlyReals := by
  have noIntegers : Call.disableIntegers.apply general = .ok general.withoutIntegers := rfl
  have isTheory : (Call.enableTheory .arith).apply general.withoutIntegers = .ok (general.withoutIntegers.withTheory .arith) :=
    rfl
  have noStrings : (Call.disableTheory .strings).apply (general.withoutIntegers.withTheory .arith) = .ok onlyReals := rfl
  exact .step (.step (.step .general (isAllowed _ _ rfl) noIntegers) (isAllowed _ _ rfl) isTheory) (isAllowed _ _ rfl) noStrings

theorem logicInfo_roundTrips_onlyReals : Reached onlyReals ∧ onlyReals.lock.RoundTrips := by
  have reached : Reached onlyReals := run_onlyReals fun _ _ _ => trivial
  exact ⟨reached, (logicInfo_roundTrips reached).2.2.1 (run_onlyReals fun _ _ isReal _ => Or.inr isReal)⟩

/-- Arithmetic without integers and reals, from the most general logic. -/
def noNumbers : LogicInfo := (general.withoutIntegers.withoutReals).withTheory .arith

theorem logicInfo_noRoundTrip : Reached noNumbers ∧ ¬noNumbers.lock.RoundTrips := by
  constructor
  · have noIntegers : Call.disableIntegers.apply general = .ok general.withoutIntegers := rfl
    have noReals : Call.disableReals.apply general.withoutIntegers = .ok general.withoutIntegers.withoutReals := rfl
    have onlyTheory : (Call.enableTheory .arith).apply general.withoutIntegers.withoutReals = .ok noNumbers := rfl
    exact .step (.step (.step .general trivial noIntegers) trivial noReals) trivial onlyTheory
  · have isName : noNumbers.lock.getLogicString = .ok "AUFBVDTSNAFS".toList := rfl
    have isJunk : ofString "AUFBVDTSNAFS".toList = .error (junkError "AUFBVDTSNAFS".toList "NAFS".toList) := rfl
    rintro ⟨name, info', isName', accepted, _⟩
    cases isName.symm.trans isName'
    cases isJunk.symm.trans accepted

end LogicInfo

end Ava6.Theory

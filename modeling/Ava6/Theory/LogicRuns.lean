import Ava6.Theory.LogicReading

/-! Invariants of logics over all calls, and of what is read from a name. Enabling the theory of arithmetic on its own is
the only call that can leave arithmetic without integers and reals.
-/

namespace Ava6.Theory

namespace LogicInfo

variable {info other : LogicInfo} {id : TheoryId}

/-- Where arithmetic is used it has integers or reals. -/
def HasNumbers (info : LogicInfo) : Prop := info.theories .arith = true → info.integers = true ∨ info.reals = true

theorem HasNumbers.of_theories (hasNumbers : info.HasNumbers) (sameNumbers : other.numbers = info.numbers)
    (isLess : other.theories .arith = true → info.theories .arith = true)
    : other.HasNumbers := by
  intro usesArithmetic
  simp only [numbers, Prod.mk.injEq] at sameNumbers
  rw [sameNumbers.1, sameNumbers.2.1]
  exact hasNumbers (isLess usesArithmetic)

theorem HasNumbers.withTheory (hasNumbers : info.HasNumbers)
    (isOther : id = .arith → info.integers = true ∨ info.reals = true)
    : (info.withTheory id).HasNumbers := by
  by_cases isArith : id = .arith
  · have sameNumbers := numbers_withTheory id info
    simp only [numbers, Prod.mk.injEq] at sameNumbers
    intro _
    rw [sameNumbers.1, sameNumbers.2.1]
    exact isOther isArith
  · refine hasNumbers.of_theories (numbers_withTheory id info) fun usesArithmetic => ?_
    rw [theories_withTheory, Function.update_of_ne (Ne.symm isArith)] at usesArithmetic
    exact usesArithmetic

theorem HasNumbers.withoutTheory (hasNumbers : info.HasNumbers) : (info.withoutTheory id).HasNumbers := by
  refine hasNumbers.of_theories (numbers_withoutTheory id info) fun usesArithmetic => ?_
  by_cases isBase : id = .builtin ∨ id = .bool
  · rw [LogicInfo.withoutTheory] at usesArithmetic
    simp only [isBase, if_true] at usesArithmetic
    split at usesArithmetic <;> exact usesArithmetic
  · rw [theories_withoutTheory info (not_or.mp isBase), Function.update_apply] at usesArithmetic
    split at usesArithmetic
    · cases usesArithmetic
    · exact usesArithmetic

theorem hasNumbers_withIntegers (info : LogicInfo) : info.withIntegers.HasNumbers :=
  fun _ => Or.inl (congrArg (·.1) info.numbers_withIntegers)

theorem hasNumbers_withReals (info : LogicInfo) : info.withReals.HasNumbers :=
  fun _ => Or.inr (congrArg (·.2.1) info.numbers_withReals)

theorem hasNumbers_withoutIntegers (info : LogicInfo) : info.withoutIntegers.HasNumbers := by
  intro usesArithmetic
  rw [theories_withoutIntegers] at usesArithmetic
  split at usesArithmetic
  · next hasReals => exact Or.inr ((congrArg (·.2.1) info.numbers_withoutIntegers).trans hasReals)
  · rw [Function.update_self] at usesArithmetic
    cases usesArithmetic

theorem hasNumbers_withoutReals (info : LogicInfo) : info.withoutReals.HasNumbers := by
  intro usesArithmetic
  rw [theories_withoutReals] at usesArithmetic
  split at usesArithmetic
  · next hasIntegers => exact Or.inl ((congrArg (·.1) info.numbers_withoutReals).trans hasIntegers)
  · rw [Function.update_self] at usesArithmetic
    cases usesArithmetic

/-- What reading a name keeps. -/
def Sound (info : LogicInfo) : Prop := info.Consistent ∧ info.HasNumbers

theorem Sound.withTheory (sound : info.Sound) (isOther : id ≠ .arith) : (info.withTheory id).Sound :=
  ⟨sound.1.withTheory, sound.2.withTheory fun isArith => absurd isArith isOther⟩

theorem Sound.withoutTheory (sound : info.Sound) : (info.withoutTheory id).Sound :=
  ⟨sound.1.withoutTheory, sound.2.withoutTheory⟩

theorem Sound.withArithmetic (sound : info.Sound) {linear differenceLogic : Bool}
    (isLinear : differenceLogic = true → linear = true)
    : (info.withArithmetic linear differenceLogic).Sound :=
  ⟨sound.1.withArithmetic isLinear, sound.2⟩

theorem Sound.withArithmeticTheory (sound : info.Sound) {integers reals linear differenceLogic : Bool}
    (isLinear : differenceLogic = true → linear = true)
    : (info.withArithmeticTheory integers reals linear differenceLogic).Sound := by
  rw [LogicInfo.withArithmeticTheory]
  have afterIntegers : Sound (if integers then info.withIntegers else info.withoutIntegers) := by
    split
    · exact ⟨sound.1.withIntegers, info.hasNumbers_withIntegers⟩
    · exact ⟨sound.1.withoutIntegers, info.hasNumbers_withoutIntegers⟩
  generalize (if integers then info.withIntegers else info.withoutIntegers) = info at afterIntegers
  refine Sound.withArithmetic ?_ isLinear
  split
  · exact ⟨afterIntegers.1.withReals, info.hasNumbers_withReals⟩
  · exact ⟨afterIntegers.1.withoutReals, info.hasNumbers_withoutReals⟩

theorem sound_general : general.Sound := ⟨consistent_general, fun _ => Or.inl rfl⟩

theorem sound_base : (base false false).Sound := by
  refine ⟨consistent_base false false, fun usesArithmetic => ?_⟩
  cases usesArithmetic

/-- No theory of a token is arithmetic, and arithmetic with difference logic is linear. -/
def Token.isSound : Token → Bool
  | .theory id => decide (id ≠ .arith)
  | .arithmetic _ _ linear differenceLogic => !differenceLogic || linear
  | .unsupported => true

theorem tokens_isSound : ∀ entry ∈ tokens, entry.2.isSound = true := by decide

theorem Sound.apply {name : String} {token : Token} (isToken : (name, token) ∈ tokens) {st st' : ParseState}
    (sound : st.info.Sound) (isResult : token.apply name st = .ok st')
    : st'.info.Sound := by
  cases token with
  | theory id =>
      rw [Token.apply] at isResult
      split at isResult
      · cases isResult
      · cases isResult
        exact sound.withTheory (of_decide_eq_true (tokens_isSound _ isToken))
  | unsupported => cases isResult
  | arithmetic integers reals linear differenceLogic =>
      rw [Token.apply] at isResult
      split at isResult
      · cases isResult
      · cases isResult
        have isLinear := tokens_isSound _ isToken
        simp only [Token.isSound, Bool.or_eq_true, Bool.not_eq_true'] at isLinear
        exact sound.withArithmeticTheory fun isDifference => isLinear.resolve_left (by simp [isDifference])

theorem Sound.parseTheories {fuel : Nat} {st st' : ParseState} (sound : st.info.Sound)
    (isResult : parseTheories fuel st = .ok st')
    : st'.info.Sound := by
  induction fuel generalizing st with
  | zero =>
      cases isResult
      exact sound
  | succ fuel ih =>
      rw [LogicInfo.parseTheories] at isResult
      split at isResult
      · cases isResult
        exact sound
      · next isFound =>
          split at isResult
          · cases isResult
          · next isStep => exact ih (sound.apply (findToken_mem isFound).1 isStep) isResult

theorem Sound.parseName (sound : info.Sound) {p : List Char} {result : LogicInfo × List Char}
    (isResult : parseName info p = .ok result)
    : result.1.Sound := by
  have afterFront
      : Sound (if startsWith "QF_" p then (info.withoutTheory .quantifiers, p.drop 3)
          else (info.withTheory .quantifiers, p)).1 := by
    split
    · exact sound.withoutTheory
    · exact sound.withTheory (by decide)
  rw [LogicInfo.parseName] at isResult
  generalize (if startsWith "QF_" p then (info.withoutTheory .quantifiers, p.drop 3)
    else (info.withTheory .quantifiers, p)) = split at isResult afterFront
  simp only at isResult
  split at isResult
  · cases isResult
  · split at isResult
    · cases isResult
      exact afterFront.withTheory (by decide)
    · split at isResult
      · cases isResult
      · next isRead =>
          cases isResult
          have sound : Sound (ParseState.info ⟨split.1, "", split.2⟩) := afterFront
          exact sound.parseTheories isRead

theorem Sound.parseLogic (sound : info.Sound) {p : List Char} {result : LogicInfo × List Char}
    (isResult : parseLogic info p = .ok result)
    : result.1.Sound := by
  rw [LogicInfo.parseLogic] at isResult
  split_ifs at isResult
  · cases isResult
    exact sound
  · cases isResult
    exact sound
  · cases isResult
    exact sound.withTheory (by decide)
  · cases isResult
    exact sound_general.withoutTheory.withArithmetic fun isDifference => by cases isDifference
  · cases isResult
    exact (sound_general.withTheory (by decide)).withArithmetic fun isDifference => by cases isDifference
  · cases isResult
    exact (sound_general.withTheory (by decide)).withArithmetic fun isDifference => by cases isDifference
  · exact sound.parseName isResult

theorem ofString_eq (logicString : List Char)
    : ofString logicString
      = (parseLogic (base false false) (cString logicString)).bind fun (info, p) =>
          if p = [] then .ok { info with logicString := logicString, locked := true }
          else .error (junkError logicString p) := by
  rw [ofString, setLogicString]
  simp only [blank, Bool.false_eq_true, if_false]
  cases isParsed : LogicInfo.parseLogic (base false false) (cString logicString) with
  | error msg =>
      have isParsed' := isParsed
      simp only [base, blank] at isParsed'
      rw [isParsed']
      rfl
  | ok result =>
      have isParsed' := isParsed
      simp only [base, blank] at isParsed'
      rw [isParsed']
      simp only [Except.bind]
      by_cases atEnd : result.2 = []
      · simp [atEnd, lock]
      · simp [atEnd]

/-- A logic that is read from a name is locked, and has that name. -/
theorem ofString_ok {logicString : List Char} (accepted : ofString logicString = .ok info)
    : info.Sound ∧ info.locked = true ∧ info.logicString = logicString := by
  rw [ofString_eq] at accepted
  cases isParsed : LogicInfo.parseLogic (base false false) (cString logicString) with
  | error msg =>
      rw [isParsed] at accepted
      cases accepted
  | ok result =>
      rw [isParsed] at accepted
      simp only [Except.bind] at accepted
      split at accepted
      · cases accepted
        have sound := sound_base.parseLogic isParsed
        exact ⟨⟨sound.1.of_same rfl rfl sound.1.linear, sound.2⟩, rfl, rfl⟩
      · cases accepted

/-- The logic has no name yet, or the one it was read from. -/
def HasOwnName (info : LogicInfo) : Prop :=
  info.logicString = [] ∨ info.locked = true ∧ ofString info.logicString = .ok info

/-- What a call does to a logic that is not locked. -/
def Call.Changes (info result : LogicInfo) : Call → Prop
  | .enableTheory id => result = info.withTheory id
  | .disableTheory id => result = info.withoutTheory id
  | .enableIntegers => result = info.withIntegers
  | .disableIntegers => result = info.withoutIntegers
  | .enableReals => result = info.withReals
  | .disableReals => result = info.withoutReals
  | .arithOnlyDifference => result = info.withArithmetic true true
  | .arithOnlyLinear => result = info.withArithmetic true false
  | .arithNonLinear => result = info.withArithmetic false false
  | .enableEverything => result = LogicInfo.general
  | .disableEverything => ofString [] = .ok result

theorem modify_ok {change : LogicInfo → LogicInfo} {result : LogicInfo} (isResult : modify change info = .ok result)
    : info.locked = false ∧ result = change info := by
  rw [modify] at isResult
  split at isResult
  · cases isResult
  · next unlocked =>
      cases isResult
      exact ⟨Bool.eq_false_iff.mpr unlocked, rfl⟩

theorem apply_ok {call : Call} {result : LogicInfo} (isResult : call.apply info = .ok result)
    : info.locked = false ∧ call.Changes info result := by
  cases call with
  | disableEverything =>
      have isResult : LogicInfo.disableEverything info = .ok result := isResult
      rw [LogicInfo.disableEverything] at isResult
      split at isResult
      · cases isResult
      · next unlocked => exact ⟨Bool.eq_false_iff.mpr unlocked, isResult⟩
  | enableEverything =>
      have isResult : modify (fun _ => LogicInfo.general) info = .ok result := isResult
      exact modify_ok isResult
  | _ => exact modify_ok isResult

/-- Each call keeps a logic consistent, by cases on the call. -/
theorem consistent_apply {call : Call} {result : LogicInfo} (consistent : info.Consistent)
    (isResult : call.apply info = .ok result)
    : result.Consistent := by
  have changes := (apply_ok isResult).2
  cases call with
  | enableTheory id => exact changes ▸ consistent.withTheory
  | disableTheory id => exact changes ▸ consistent.withoutTheory
  | enableIntegers => exact changes ▸ consistent.withIntegers
  | disableIntegers => exact changes ▸ consistent.withoutIntegers
  | enableReals => exact changes ▸ consistent.withReals
  | disableReals => exact changes ▸ consistent.withoutReals
  | arithOnlyDifference => exact changes ▸ consistent.withArithmetic fun _ => rfl
  | arithOnlyLinear => exact changes ▸ consistent.withArithmetic fun _ => rfl
  | arithNonLinear => exact changes ▸ consistent.withArithmetic fun isDifference => by cases isDifference
  | enableEverything => exact changes ▸ consistent_general
  | disableEverything => exact (ofString_ok changes).1.1

theorem logicString_withTheory (noName : info.logicString = []) : (info.withTheory id).logicString = [] := by
  rw [withTheory]
  split
  · exact noName
  · rfl

theorem logicString_withoutTheory (noName : info.logicString = []) : (info.withoutTheory id).logicString = [] := by
  rw [withoutTheory]
  simp only
  split
  · split
    · exact noName
    · rfl
  · exact noName

theorem hasOwnName_apply {call : Call} {result : LogicInfo} (hasOwnName : info.HasOwnName)
    (isResult : call.apply info = .ok result)
    : result.HasOwnName := by
  obtain ⟨unlocked, changes⟩ := apply_ok isResult
  have noName : info.logicString = [] := hasOwnName.resolve_right fun isRead => by simp [unlocked] at isRead
  cases call with
  | enableTheory id => exact Or.inl (changes ▸ logicString_withTheory noName)
  | disableTheory id => exact Or.inl (changes ▸ logicString_withoutTheory noName)
  | enableIntegers => exact Or.inl (changes ▸ logicString_withTheory rfl)
  | enableReals => exact Or.inl (changes ▸ logicString_withTheory rfl)
  | disableIntegers =>
      refine Or.inl (changes ▸ ?_)
      rw [withoutIntegers]
      simp only
      split
      · rfl
      · exact logicString_withoutTheory rfl
  | disableReals =>
      refine Or.inl (changes ▸ ?_)
      rw [withoutReals]
      simp only
      split
      · rfl
      · exact logicString_withoutTheory rfl
  | arithOnlyDifference => exact Or.inl (changes ▸ rfl)
  | arithOnlyLinear => exact Or.inl (changes ▸ rfl)
  | arithNonLinear => exact Or.inl (changes ▸ rfl)
  | enableEverything => exact Or.inl (changes ▸ rfl)
  | disableEverything => exact Or.inl (ofString_ok changes).2.2

/-- The theory of arithmetic is enabled on its own only where there are integers or reals. -/
def KeepsNumbers (info : LogicInfo) (call : Call) : Prop :=
  call = .enableTheory .arith → info.integers = true ∨ info.reals = true

theorem hasNumbers_apply {call : Call} {result : LogicInfo} (hasNumbers : info.HasNumbers)
    (isResult : call.apply info = .ok result) (keepsNumbers : KeepsNumbers info call)
    : result.HasNumbers := by
  have changes := (apply_ok isResult).2
  cases call with
  | enableTheory id => exact changes ▸ hasNumbers.withTheory fun isArith => keepsNumbers (congrArg _ isArith)
  | disableTheory id => exact changes ▸ hasNumbers.withoutTheory
  | enableIntegers => exact changes ▸ info.hasNumbers_withIntegers
  | disableIntegers => exact changes ▸ info.hasNumbers_withoutIntegers
  | enableReals => exact changes ▸ info.hasNumbers_withReals
  | disableReals => exact changes ▸ info.hasNumbers_withoutReals
  | arithOnlyDifference => exact changes ▸ hasNumbers
  | arithOnlyLinear => exact changes ▸ hasNumbers
  | arithNonLinear => exact changes ▸ hasNumbers
  | enableEverything => exact changes ▸ sound_general.2
  | disableEverything => exact (ofString_ok changes).1.2

/-- Every run keeps a logic consistent and its name right, by induction on the calls. -/
theorem Run.keeps {allowed : LogicInfo → Call → Prop} (run : Run allowed info) : info.Consistent ∧ info.HasOwnName := by
  induction run with
  | general => exact ⟨consistent_general, Or.inl rfl⟩
  | ofString accepted =>
      obtain ⟨sound, locked, isName⟩ := ofString_ok accepted
      exact ⟨sound.1, Or.inr ⟨locked, isName ▸ accepted⟩⟩
  | step _ _ isResult ih => exact ⟨consistent_apply ih.1 isResult, hasOwnName_apply ih.2 isResult⟩

theorem Run.hasNumbers (run : Run KeepsNumbers info) : info.HasNumbers := by
  induction run with
  | general => exact sound_general.2
  | ofString accepted => exact (ofString_ok accepted).1.2
  | step _ keepsNumbers isResult ih => exact hasNumbers_apply ih isResult keepsNumbers

end LogicInfo

end Ava6.Theory

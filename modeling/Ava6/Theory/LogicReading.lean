import Ava6.Theory.LogicString

/-! Names of logics that are read back. A name is read one theory at a time, so that what is read is settled by the name
of each theory in front of any rest; the special names are told apart since none of them is read as theories to its end.
-/

namespace Ava6.Theory

namespace LogicInfo

variable {name : String} {token : Token}

theorem findToken_append (isToken : (name, token) ∈ tokens) (rest : List Char)
    : findToken (name.toList ++ rest) = some (name, token) := by
  simp only [tokens, List.mem_cons, Prod.mk.injEq, List.not_mem_nil, or_false] at isToken
  rcases isToken with ⟨rfl, rfl⟩ | ⟨rfl, rfl⟩ | ⟨rfl, rfl⟩ | ⟨rfl, rfl⟩ | ⟨rfl, rfl⟩ | ⟨rfl, rfl⟩ | ⟨rfl, rfl⟩
    | ⟨rfl, rfl⟩ | ⟨rfl, rfl⟩ | ⟨rfl, rfl⟩ | ⟨rfl, rfl⟩ | ⟨rfl, rfl⟩ | ⟨rfl, rfl⟩ | ⟨rfl, rfl⟩ | ⟨rfl, rfl⟩
    | ⟨rfl, rfl⟩ | ⟨rfl, rfl⟩ <;> rfl

theorem length_pos_of_token {entry : String × Token} (isToken : entry ∈ tokens) : 0 < entry.1.length := by
  have all : ∀ name ∈ tokens.map Prod.fst, 0 < name.length := by decide
  exact all entry.1 (List.mem_map_of_mem isToken)

theorem drop_append (name : String) (rest : List Char) : (name.toList ++ rest).drop name.length = rest := by
  rw [← String.length_toList]
  exact List.drop_left

variable {st : ParseState}

theorem Token.p_apply {st' : ParseState} (isResult : token.apply name st = .ok st')
    : st'.p = st.p.drop name.length := by
  cases token with
  | theory id =>
      rw [Token.apply] at isResult
      split at isResult
      · cases isResult
      · cases isResult
        rfl
  | unsupported => cases isResult
  | arithmetic integers reals linear differenceLogic =>
      rw [Token.apply] at isResult
      split at isResult
      · cases isResult
      · cases isResult
        rfl

/-- Reading with as much fuel as the name can use. -/
def readTheories (st : ParseState) : Except String ParseState := parseTheories st.p.length st

variable {p : List Char}

theorem findToken_mem {entry : String × Token} (isFound : findToken p = some entry)
    : entry ∈ tokens ∧ p ≠ [] := by
  refine ⟨List.mem_of_find?_eq_some isFound, fun isNil => ?_⟩
  subst isNil
  have none : findToken [] = none := rfl
  rw [none] at isFound
  cases isFound

theorem parseTheories_fuel {fuel fuel' : Nat} (enough : st.p.length ≤ fuel)
    (enough' : st.p.length ≤ fuel')
    : parseTheories fuel st = parseTheories fuel' st := by
  -- with no fuel nothing is left to be found
  have atEnd {fuel : Nat} {st : ParseState} (isNil : st.p.length ≤ 0) : parseTheories fuel st = .ok st := by
    have none : findToken st.p = none := by
      rw [List.eq_nil_of_length_eq_zero (Nat.le_zero.mp isNil)]
      rfl
    cases fuel with
    | zero => rfl
    | succ fuel => rw [parseTheories, none]
  induction fuel generalizing fuel' st with
  | zero => rw [atEnd enough, atEnd enough]
  | succ fuel ih =>
      cases fuel' with
      | zero => rw [atEnd enough', atEnd enough']
      | succ fuel' =>
          rw [parseTheories, parseTheories]
          cases isFound : findToken st.p with
          | none => rfl
          | some entry =>
              cases isResult : entry.2.apply entry.1 st with
              | error msg => simp only [isResult]
              | ok st' =>
                  simp only [isResult]
                  have isPos := length_pos_of_token (findToken_mem isFound).1
                  have lengthEq : st'.p.length = st.p.length - entry.1.length := by
                    rw [Token.p_apply isResult, List.length_drop]
                  exact ih (by omega) (by omega)

theorem readTheories_none (isNone : findToken st.p = none) : readTheories st = .ok st := by
  rw [readTheories]
  cases st.p.length with
  | zero => rfl
  | succ fuel => rw [parseTheories, isNone]

theorem readTheories_some {rest : List Char}
    (isToken : (name, token) ∈ tokens) (isFront : st.p = name.toList ++ rest)
    : readTheories st = (token.apply name st).bind readTheories := by
  have isFound : findToken st.p = some (name, token) := isFront ▸ findToken_append isToken rest
  have isPos := length_pos_of_token isToken
  have isLong : st.p.length = (st.p.length - 1) + 1 := by
    have notNil := List.length_pos_iff.mpr (findToken_mem isFound).2
    omega
  rw [readTheories, isLong, parseTheories, isFound]
  cases isResult : token.apply name st with
  | error msg => simp only [isResult]; rfl
  | ok st' =>
      simp only [isResult]
      have lengthEq : st'.p.length = st.p.length - name.length := by rw [Token.p_apply isResult, List.length_drop]
      exact parseTheories_fuel (by simp only at isPos; omega) (Nat.le_refl _)

def withTheoryIf (enabled : Bool) (id : TheoryId) (info : LogicInfo) : LogicInfo :=
  if enabled then info.withTheory id else info

theorem theories_withTheoryIf (enabled : Bool) (id : TheoryId) (info : LogicInfo)
    : (info.withTheoryIf enabled id).theories = Function.update info.theories id (enabled || info.theories id) := by
  cases enabled with
  | false => simp [withTheoryIf]
  | true => simp [withTheoryIf, theories_withTheory]

variable {info start : LogicInfo} {arithmeticTheory : String} {rest : List Char}

theorem readTheories_theory {id : TheoryId} (isToken : (name, .theory id) ∈ tokens) (enabled : Bool)
    (isNew : start.theories id = false)
    : readTheories ⟨start, arithmeticTheory, printIf enabled name ++ rest⟩
      = readTheories ⟨start.withTheoryIf enabled id, arithmeticTheory, rest⟩ := by
  cases enabled with
  | false => rfl
  | true =>
      rw [readTheories_some isToken rfl, Token.apply, isNew]
      simp only [printIf, if_true, drop_append]
      rfl

theorem arithString_mem (hasNumbers : info.integers = true ∨ info.reals = true)
    (isLinear : info.differenceLogic = true → info.linear = true)
    : ∃ name, (name, .arithmetic info.integers info.reals info.linear info.differenceLogic) ∈ tokens
      ∧ info.arithString = name.toList := by
  obtain ⟨_, _, _, integers, reals, linear, differenceLogic, _⟩ := info
  simp only [arithString] at *
  cases integers <;> cases reals <;> cases linear <;> cases differenceLogic
    <;> first
      | exact absurd (isLinear rfl) Bool.false_ne_true
      | exact absurd hasNumbers (by decide)
      | skip
  · exact ⟨"NRA", by simp [tokens], rfl⟩
  · exact ⟨"LRA", by simp [tokens], rfl⟩
  · exact ⟨"RDL", by simp [tokens], rfl⟩
  · exact ⟨"NIA", by simp [tokens], rfl⟩
  · exact ⟨"LIA", by simp [tokens], rfl⟩
  · exact ⟨"IDL", by simp [tokens], rfl⟩
  · exact ⟨"NIRA", by simp [tokens], rfl⟩
  · exact ⟨"LIRA", by simp [tokens], rfl⟩
  · exact ⟨"IRDL", by simp [tokens], rfl⟩

/-- The fields for arithmetic. -/
def numbers (info : LogicInfo) : Bool × Bool × Bool × Bool :=
  (info.integers, info.reals, info.linear, info.differenceLogic)

theorem numbers_withTheory (id : TheoryId) (info : LogicInfo) : (info.withTheory id).numbers = info.numbers := by
  rw [withTheory]
  split <;> rfl

theorem numbers_withoutTheory (id : TheoryId) (info : LogicInfo) : (info.withoutTheory id).numbers = info.numbers := by
  rw [withoutTheory]
  simp only
  split
  · split <;> rfl
  · rfl

theorem numbers_withTheoryIf (enabled : Bool) (id : TheoryId) (info : LogicInfo)
    : (info.withTheoryIf enabled id).numbers = info.numbers := by
  cases enabled with
  | false => rfl
  | true => exact numbers_withTheory id info

section Arithmetic

variable (info : LogicInfo)

theorem numbers_withIntegers
    : info.withIntegers.numbers = (true, info.reals, info.linear, info.differenceLogic) := by
  have same := numbers_withTheory .arith { info with logicString := [] }
  simp only [numbers, Prod.mk.injEq] at same ⊢
  exact ⟨rfl, same.2⟩

theorem numbers_withReals
    : info.withReals.numbers = (info.integers, true, info.linear, info.differenceLogic) := by
  have same := numbers_withTheory .arith { info with logicString := [] }
  simp only [numbers, Prod.mk.injEq] at same ⊢
  exact ⟨same.1, rfl, same.2.2⟩

theorem numbers_withoutIntegers
    : info.withoutIntegers.numbers = (false, info.reals, info.linear, info.differenceLogic) := by
  rw [withoutIntegers]
  simp only
  split
  · rfl
  · exact numbers_withoutTheory .arith _

theorem numbers_withoutReals
    : info.withoutReals.numbers = (info.integers, false, info.linear, info.differenceLogic) := by
  rw [withoutReals]
  simp only
  split
  · rfl
  · exact numbers_withoutTheory .arith _

theorem theories_withIntegers : info.withIntegers.theories = Function.update info.theories .arith true :=
  theories_withTheory .arith { info with logicString := [] }

theorem theories_withReals : info.withReals.theories = Function.update info.theories .arith true :=
  theories_withTheory .arith { info with logicString := [] }

theorem theories_withoutIntegers
    : info.withoutIntegers.theories
      = if info.reals then info.theories else Function.update info.theories .arith false := by
  rw [withoutIntegers]
  simp only
  split
  · rfl
  · exact theories_withoutTheory _ (by decide)

theorem theories_withoutReals
    : info.withoutReals.theories
      = if info.integers then info.theories else Function.update info.theories .arith false := by
  rw [withoutReals]
  simp only
  split
  · rfl
  · exact theories_withoutTheory _ (by decide)

theorem numbers_withArithmeticTheory (integers reals linear differenceLogic : Bool)
    : (info.withArithmeticTheory integers reals linear differenceLogic).numbers
      = (integers, reals, linear, differenceLogic) := by
  have afterIntegers : (if integers then info.withIntegers else info.withoutIntegers).integers = integers := by
    cases integers with
    | false => exact congrArg (·.1) info.numbers_withoutIntegers
    | true => exact congrArg (·.1) info.numbers_withIntegers
  rw [withArithmeticTheory]
  generalize (if integers then info.withIntegers else info.withoutIntegers) = info at afterIntegers
  subst afterIntegers
  simp only [withArithmetic, numbers, Prod.mk.injEq, and_true]
  cases reals with
  | false => exact ⟨congrArg (·.1) info.numbers_withoutReals, congrArg (·.2.1) info.numbers_withoutReals⟩
  | true => exact ⟨congrArg (·.1) info.numbers_withReals, congrArg (·.2.1) info.numbers_withReals⟩

theorem theories_withArithmeticTheory {integers reals : Bool} (linear differenceLogic : Bool)
    (hasNumbers : integers = true ∨ reals = true)
    : (info.withArithmeticTheory integers reals linear differenceLogic).theories
      = Function.update info.theories .arith true := by
  rw [withArithmeticTheory, withArithmetic]
  cases integers with
  | false =>
      rw [hasNumbers.resolve_left Bool.false_ne_true]
      simp only [if_true, theories_withReals, Bool.false_eq_true, if_false, theories_withoutIntegers]
      split
      · rfl
      · rw [Function.update_idem]
  | true =>
      have integers : info.withIntegers.integers = true := rfl
      cases reals with
      | false => simp [theories_withoutReals, theories_withIntegers, integers]
      | true => simp [theories_withReals, theories_withIntegers]

end Arithmetic

/-- The theories before arithmetic. -/
def readFront (info start : LogicInfo) : LogicInfo :=
  [TheoryId.arrays, .uf, .bv, .datatypes, .strings].foldl (fun start id => start.withTheoryIf (info.theories id) id) start

/-- The theories of a name. -/
def readAll (info start : LogicInfo) : LogicInfo :=
  let front := readFront info start
  withTheoryIf (info.theories .sets) .sets
    (if info.theories .arith
      then front.withArithmeticTheory info.integers info.reals info.linear info.differenceLogic
      else front)

/-- Nothing is enabled that has a name. -/
def IsStart (start : LogicInfo) : Prop := ∀ id ∈ namedTheories, start.theories id = false

theorem readTheories_front (isStart : start.IsStart)
    : readTheories ⟨start, arithmeticTheory, printIf (info.theories .arrays) "A" ++ (printIf (info.theories .uf) "UF"
        ++ (printIf (info.theories .bv) "BV" ++ (printIf (info.theories .datatypes) "DT"
          ++ (printIf (info.theories .strings) "S" ++ rest))))⟩
      = readTheories ⟨readFront info start, arithmeticTheory, rest⟩ := by
  have isNew : ∀ id ∈ namedTheories, start.theories id = false := isStart
  simp only [namedTheories, List.forall_mem_cons] at isNew
  have arrays : ("A", Token.theory .arrays) ∈ tokens := by simp [tokens]
  have uf : ("UF", Token.theory .uf) ∈ tokens := by simp [tokens]
  have bv : ("BV", Token.theory .bv) ∈ tokens := by simp [tokens]
  have datatypes : ("DT", Token.theory .datatypes) ∈ tokens := by simp [tokens]
  have strings : ("S", Token.theory .strings) ∈ tokens := by simp [tokens]
  rw [readTheories_theory arrays, readTheories_theory uf, readTheories_theory bv, readTheories_theory datatypes,
    readTheories_theory strings]
  · rfl
  all_goals simp [theories_withTheoryIf, isNew]

/-- A name with all of its theories is read to its end. -/
theorem readTheories_all (isStart : start.IsStart)
    (hasNumbers : info.theories .arith = true → info.integers = true ∨ info.reals = true)
    (isLinear : info.differenceLogic = true → info.linear = true)
    : ∃ name, readTheories ⟨readFront info start, "", (if info.theories .arith then info.arithString else [])
        ++ printIf (info.theories .sets) "FS"⟩
      = .ok ⟨readAll info start, name, []⟩ := by
  have sets : ("FS", Token.theory .sets) ∈ tokens := by simp [tokens]
  have isNew : (readFront info start).theories .sets = false := by
    simp [readFront, theories_withTheoryIf, isStart .sets (by decide)]
  cases usesArithmetic : info.theories .arith with
  | false =>
      refine ⟨"", ?_⟩
      rw [if_neg Bool.false_ne_true, List.nil_append, ← List.append_nil (printIf _ _), readTheories_theory sets _ isNew,
        readTheories_none rfl, readAll, usesArithmetic]
      rfl
  | true =>
      obtain ⟨name, isToken, isName⟩ := arithString_mem (hasNumbers usesArithmetic) isLinear
      refine ⟨name, ?_⟩
      have isNew' := theories_withArithmeticTheory (readFront info start) info.linear info.differenceLogic
        (hasNumbers usesArithmetic)
      rw [if_pos rfl, isName, readTheories_some isToken rfl, Token.apply, if_neg (not_not.mpr rfl)]
      simp only [drop_append, Except.bind]
      rw [← List.append_nil (printIf _ _), readTheories_theory sets _ (by simp [isNew', isNew]), readTheories_none rfl,
        readAll, usesArithmetic]
      rfl

theorem theories_readAll
    (hasNumbers : info.theories .arith = true → info.integers = true ∨ info.reals = true) (isStart : start.IsStart)
    : (readAll info start).theories = fun id => if id ∈ namedTheories then info.theories id else start.theories id := by
  have isNew : ∀ id ∈ namedTheories, start.theories id = false := isStart
  simp only [namedTheories, List.forall_mem_cons] at isNew
  have withArithmetic (front : LogicInfo)
      : (if info.theories .arith
          then front.withArithmeticTheory info.integers info.reals info.linear info.differenceLogic
          else front).theories
        = Function.update front.theories .arith (info.theories .arith || front.theories .arith) := by
    cases usesArithmetic : info.theories .arith with
    | false => simp
    | true => simp [theories_withArithmeticTheory _ _ _ (hasNumbers usesArithmetic)]
  funext id
  rw [readAll, theories_withTheoryIf, withArithmetic, readFront]
  cases id <;> simp [theories_withTheoryIf, namedTheories, isNew]

theorem numbers_readAll (start : LogicInfo) (usesArithmetic : info.theories .arith = true)
    : (readAll info start).numbers = info.numbers := by
  rw [readAll, numbers_withTheoryIf, usesArithmetic, if_pos rfl, numbers_withArithmeticTheory]
  rfl

/-- Where arithmetic has neither integers nor reals its name is not one that is read. -/
theorem readTheories_noNumbers (noNumbers : ¬(info.integers = true ∨ info.reals = true)) (rest : List Char)
    : readTheories ⟨start, arithmeticTheory, info.arithString ++ rest⟩
      = .ok ⟨start, arithmeticTheory, info.arithString ++ rest⟩ := by
  refine readTheories_none ?_
  rw [not_or, Bool.not_eq_true, Bool.not_eq_true] at noNumbers
  simp only [arithString, noNumbers]
  cases info.differenceLogic <;> cases info.linear <;> rfl

/-- What can be left over where the name of a logic was read as theories. -/
def Ends (p : List Char) : Prop :=
  p = [] ∨ startsWith "DL" p = true ∨ startsWith "LA" p = true ∨ startsWith "NA" p = true

theorem readTheories_theory_ok {id : TheoryId} (isToken : (name, .theory id) ∈ tokens)
    (isRead : readTheories ⟨start, arithmeticTheory, name.toList ++ rest⟩ = .ok st)
    : readTheories ⟨start.withTheory id, arithmeticTheory, rest⟩ = .ok st := by
  rw [readTheories_some isToken rfl, Token.apply] at isRead
  split at isRead
  · cases isRead
  · simp only [drop_append] at isRead
    exact isRead

/-- None of the special names, and no name in front of a logic, is read as theories. -/
theorem startsWith_special (isRead : readTheories ⟨start, arithmeticTheory, p⟩ = .ok st)
    (ends : Ends st.p)
    : ∀ name ∈ ["HO_", "QF_", "SEP_", "AX", "ALL", "SAT", "HORN"], startsWith name p = false := by
  have stops {start : LogicInfo} {p : List Char} (isNone : findToken p = none) (notEnds : ¬Ends p)
      (isRead : readTheories ⟨start, arithmeticTheory, p⟩ = .ok st)
      : False := by
    rw [readTheories_none isNone] at isRead
    cases isRead
    exact notEnds ends
  have arrays : ("A", Token.theory .arrays) ∈ tokens := by simp [tokens]
  have strings : ("S", Token.theory .strings) ∈ tokens := by simp [tokens]
  intro name isSpecial
  by_contra isFront
  obtain ⟨rest, rfl⟩ := List.isPrefixOf_iff_prefix.mp (Bool.not_eq_false _ ▸ isFront : startsWith name p = true)
  simp only [List.mem_cons, List.not_mem_nil, or_false] at isSpecial
  rcases isSpecial with rfl | rfl | rfl | rfl | rfl | rfl | rfl
  · exact stops rfl (by simp [Ends, startsWith]) isRead
  · exact stops rfl (by simp [Ends, startsWith]) isRead
  · -- strings, and then separation logic is no theory
    have isRead : readTheories ⟨start.withTheory .strings, arithmeticTheory, "EP_".toList ++ rest⟩ = .ok st :=
      readTheories_theory_ok strings isRead
    exact stops rfl (by simp [Ends, startsWith]) isRead
  · have isRead : readTheories ⟨start.withTheory .arrays, arithmeticTheory, "X".toList ++ rest⟩ = .ok st :=
      readTheories_theory_ok arrays isRead
    exact stops rfl (by simp [Ends, startsWith]) isRead
  · have isRead : readTheories ⟨start.withTheory .arrays, arithmeticTheory, "LL".toList ++ rest⟩ = .ok st :=
      readTheories_theory_ok arrays isRead
    exact stops rfl (by simp [Ends, startsWith]) isRead
  · have isRead : readTheories ⟨start.withTheory .strings, arithmeticTheory, "AT".toList ++ rest⟩ = .ok st :=
      readTheories_theory_ok strings isRead
    have isRead
        : readTheories ⟨(start.withTheory .strings).withTheory .arrays, arithmeticTheory, "T".toList ++ rest⟩ = .ok st :=
      readTheories_theory_ok arrays isRead
    exact stops rfl (by simp [Ends, startsWith]) isRead
  · exact stops rfl (by simp [Ends, startsWith]) isRead

/-- Where the theories of a name are read from. -/
def startOf (quantified : Bool) : LogicInfo := (base false false).withTheoryIf quantified .quantifiers

def front (quantified : Bool) : List Char := printIf (!quantified) "QF_"

theorem isStart_startOf (quantified : Bool) : (startOf quantified).IsStart := by
  cases quantified <;> exact List.forall_mem_cons.mpr (by decide)

/-- A name of theories is none of the special names, so it is read one theory at a time. -/
theorem parseLogic_front {quantified : Bool} (notNil : p ≠ [])
    (isRead : readTheories ⟨startOf quantified, "", p⟩ = .ok st) (ends : Ends st.p)
    : parseLogic (base false false) (front quantified ++ p) = .ok (st.info, st.p) := by
  have special := startsWith_special isRead ends
  have differs {name : String} (isSpecial : name ∈ ["HO_", "QF_", "SEP_", "AX", "ALL", "SAT", "HORN"])
      : p ≠ name.toList := by
    rintro rfl
    have isFront : startsWith name name.toList = true := List.isPrefixOf_iff_prefix.mpr (List.prefix_refl _)
    rw [special name isSpecial] at isFront
    cases isFront
  have noFront : startsWith "QF_" p = false := special "QF_" (by decide)
  generalize isWhole : front quantified ++ p = whole
  have isSplit
      : (if startsWith "QF_" whole then ((base false false).withoutTheory .quantifiers, whole.drop 3)
          else ((base false false).withTheory .quantifiers, whole))
        = (startOf quantified, p) := by
    subst isWhole
    cases quantified with
    | false => rfl
    | true =>
        rw [show front true ++ p = p from rfl, noFront]
        rfl
  have isOther : startsWith "HO_" whole = false ∧ whole ≠ [] ∧ whole ≠ "QF_SAT".toList ∧ whole ≠ "SAT".toList
      ∧ whole ≠ "QF_ALL".toList ∧ whole ≠ "ALL".toList ∧ whole ≠ "HORN".toList := by
    subst isWhole
    cases quantified with
    | false =>
        refine ⟨rfl, by simp [front, printIf], fun isSat => ?_, by simp [front, printIf], fun isAll => ?_,
          by simp [front, printIf], by simp [front, printIf]⟩
        · have isSat : p = "SAT".toList := List.append_cancel_left isSat
          exact differs (by decide) isSat
        · have isAll : p = "ALL".toList := List.append_cancel_left isAll
          exact differs (by decide) isAll
    | true =>
        have notFront {name : String} (isFront : startsWith "QF_" name.toList = true) : p ≠ name.toList := by
          rintro rfl
          rw [noFront] at isFront
          cases isFront
        exact ⟨special "HO_" (by decide), notNil, notFront rfl, differs (by decide), notFront rfl, differs (by decide),
          differs (by decide)⟩
  obtain ⟨notHigherOrder, notEmpty, notQfSat, notSat, notQfAll, notAll, notHorn⟩ := isOther
  rw [parseLogic, notHigherOrder, if_neg Bool.false_ne_true, if_neg notEmpty, if_neg notQfSat, if_neg notSat,
    if_neg notQfAll, if_neg notAll, if_neg notHorn, parseName, isSplit]
  simp only
  rw [special "SEP_" (by decide), special "AX" (by decide), if_neg Bool.false_ne_true, if_neg Bool.false_ne_true]
  rw [readTheories] at isRead
  simp only at isRead
  rw [isRead]

end LogicInfo

end Ava6.Theory

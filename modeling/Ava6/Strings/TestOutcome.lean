import Ava6.Strings.TestConstString

/-! What the test by search for splits answers: as far as no counter overflows it ends, with the answer for the language
that has no long concatenations.
-/

namespace Ava6.Strings.RegExpTest

open Computability

variable {I : Interpretation} {bound fuel : Nat} {tests : List Test} {Ls : List (Language Nat)} {s w : Word} {index : Nat}

-----------------------------------------------------------------------------------------
-- Short words are tested for the language itself
-----------------------------------------------------------------------------------------

theorem mem_kstar_iff_take {L : Language Nat} {w : Word} (isNonEmpty : w ≠ [])
    : w ∈ L∗ ↔ ∃ k, 0 < k ∧ k ≤ w.length ∧ w.take k ∈ L ∧ w.drop k ∈ L∗ := by
  rw [mem_kstar_iff]
  constructor
  · rintro (isEmpty | ⟨u, v, notEmpty, first, later, rfl⟩)
    · exact absurd isEmpty isNonEmpty
    · refine ⟨u.length, List.length_pos_iff.mpr notEmpty, ?_, ?_, ?_⟩
      · rw [List.length_append]
        exact Nat.le_add_right _ _
      · rwa [List.take_left]
      · rwa [List.drop_left]
  · rintro ⟨k, isPositive, within, first, later⟩
    refine Or.inr ⟨w.take k, w.drop k, fun isEmpty => ?_, first, later, List.take_append_drop k w⟩
    have lengths := congrArg List.length isEmpty
    rw [List.length_take, List.length_nil] at lengths
    omega

theorem exists_longest {P : Nat → Prop} {n : Nat} (within : ∀ k, P k → k ≤ n) (isSome : ∃ k, P k)
    : ∃ k, P k ∧ ∀ j, k < j → ¬P j := by
  classical
  obtain ⟨k, isAt⟩ := isSome
  refine ⟨Nat.findGreatest P n, Nat.findGreatest_spec (within k isAt) isAt, fun j isLater isAt' => ?_⟩
  exact Nat.findGreatest_is_greatest isLater (within j isAt') isAt'

theorem mem_kstar_congr {L M : Language Nat} {n : Nat} (same : ∀ u, u.length ≤ n → (u ∈ L ↔ u ∈ M)) (w : Word)
    (isShort : w.length ≤ n)
    : w ∈ L∗ ↔ w ∈ M∗ := by
  induction isLength : w.length using Nat.strong_induction_on generalizing w with
  | _ length ih =>
      rcases eq_or_ne w [] with rfl | isNonEmpty
      · exact iff_of_true (Language.nil_mem_kstar L) (Language.nil_mem_kstar M)
      · rw [mem_kstar_iff_take isNonEmpty, mem_kstar_iff_take isNonEmpty]
        refine exists_congr fun k => and_congr_right fun isPositive => and_congr_right fun within => and_congr ?_ ?_
        · exact same _ (by rw [List.length_take]; omega)
        · exact ih _ (by rw [List.length_drop]; omega) _ (by rw [List.length_drop]; omega) rfl

theorem mem_cutLanguage_concat {children : RegExps}
    : w ∈ cutLanguage I (.concat children) ↔ w ∈ (RegExp.concat children).language I ∧ w.length ≤ intMax :=
  Iff.rfl

mutual
theorem mem_cutLanguage_iff (r : RegExp) (w : Word) (isShort : w.length ≤ intMax)
    : w ∈ cutLanguage I r ↔ w ∈ r.language I := by
  match r with
  | .concat children => exact mem_cutLanguage_concat.trans (and_iff_left isShort)
  | .union children => exact mem_cutUnion_iff children w isShort
  | .inter children => exact mem_cutInter_iff children w isShort
  | .star body =>
      rw [mem_star]
      exact mem_kstar_congr (fun u isShort => mem_cutLanguage_iff body u isShort) w isShort
  | .complement body => exact not_congr (mem_cutLanguage_iff body w isShort)
  | .toRegExp _ | .range _ _ | .none | .allchar | .var _ | .all | .diff _ _ => rfl

theorem mem_cutUnion_iff (children : RegExps) (w : Word) (isShort : w.length ≤ intMax)
    : w ∈ cutUnion I children ↔ w ∈ children.unionLanguage I := by
  match children with
  | .nil => rfl
  | .cons r rest => exact or_congr (mem_cutLanguage_iff r w isShort) (mem_cutUnion_iff rest w isShort)

theorem mem_cutInter_iff (children : RegExps) (w : Word) (isShort : w.length ≤ intMax)
    : w ∈ cutInter I children ↔ w ∈ children.interLanguage I := by
  match children with
  | .nil => rfl
  | .cons r rest => exact and_congr (mem_cutLanguage_iff r w isShort) (mem_cutInter_iff rest w isShort)
end

theorem starReached_of_short {D : Word → Prop} {L : Language Nat} {n : Nat} (all : ∀ u, u.length < n → D u) (w : Word)
    (isShort : w.length < n)
    : StarReached D L w := by
  induction isLength : w.length using Nat.strong_induction_on generalizing w with
  | _ length ih =>
      rw [StarReached]
      intro i isPositive within _
      refine ⟨all _ (by rw [List.length_take]; omega), fun _ _ => ?_⟩
      exact ih _ (by rw [List.length_drop]; omega) _ (by rw [List.length_drop]; omega) rfl

mutual
theorem reachedWithin_of_short (r : RegExp) (w : Word) (isShort : w.length < intMax) (isLess : intMax ≤ bound)
    : ReachedWithin I bound r w := by
  match r with
  | .concat children => exact ⟨by omega, fun _ => splitsReached_of_short children w isShort isLess⟩
  | .union children => exact unionReached_of_short children w isShort isLess
  | .inter children => exact interReached_of_short children w isShort isLess
  | .star body => exact starReached_of_short (fun u isShort => reachedWithin_of_short body u isShort isLess) w isShort
  | .complement body => exact reachedWithin_of_short body w isShort isLess
  | .toRegExp _ | .range _ _ | .none | .allchar | .var _ | .all | .diff _ _ => trivial

theorem unionReached_of_short (children : RegExps) (w : Word) (isShort : w.length < intMax) (isLess : intMax ≤ bound)
    : UnionReached I bound children w := by
  match children with
  | .nil => trivial
  | .cons r rest =>
      exact ⟨reachedWithin_of_short r w isShort isLess, fun _ => unionReached_of_short rest w isShort isLess⟩

theorem interReached_of_short (children : RegExps) (w : Word) (isShort : w.length < intMax) (isLess : intMax ≤ bound)
    : InterReached I bound children w := by
  match children with
  | .nil => trivial
  | .cons r rest =>
      exact ⟨reachedWithin_of_short r w isShort isLess, fun _ => interReached_of_short rest w isShort isLess⟩

theorem splitsReached_of_short (children : RegExps) (w : Word) (isShort : w.length < intMax) (isLess : intMax ≤ bound)
    : SplitsReached I bound children w := by
  match children with
  | .nil => trivial
  | .cons r .nil => exact reachedWithin_of_short r w isShort isLess
  | .cons r (.cons r' rest) =>
      refine ⟨fun k _ _ => ⟨?_, fun _ => ?_⟩, fun isLimit => by omega⟩
      · exact reachedWithin_of_short r _ (by rw [List.length_take]; omega) isLess
      · exact splitsReached_of_short (.cons r' rest) _ (by rw [List.length_drop]; omega) isLess
end

-----------------------------------------------------------------------------------------
-- Where only short concatenations are reached, cutting them off makes no difference
-----------------------------------------------------------------------------------------

/-- By induction on the word; the longest piece that starts a split is reached, and it is one for both
languages.
-/
theorem StarReached.agrees {D : Word → Prop} {L M : Language Nat} (agrees : ∀ u, D u → (u ∈ L ↔ u ∈ M)) (w : Word)
    (reached : StarReached D L w)
    : w ∈ L∗ ↔ w ∈ M∗ := by
  induction isLength : w.length using Nat.strong_induction_on generalizing w with
  | _ length ih =>
      rcases eq_or_ne w [] with rfl | isNonEmpty
      · exact iff_of_true (Language.nil_mem_kstar L) (Language.nil_mem_kstar M)
      rw [StarReached] at reached
      have ofReached {k : Nat} (isPositive : 0 < k) (within : k ≤ w.length)
          (last : ∀ j, k < j → j ≤ w.length → ¬(w.take j ∈ L ∧ w.drop j ∈ L∗))
          : w.take k ∈ L ∧ w.drop k ∈ L∗ ↔ w.take k ∈ M ∧ w.drop k ∈ M∗ := by
        obtain ⟨isReached, later⟩ := reached k isPositive within last
        rw [← agrees _ isReached]
        refine and_congr_right fun first => ?_
        rcases Nat.lt_or_eq_of_le within with isLess | rfl
        · exact ih _ (by rw [List.length_drop]; omega) _ (later first isLess) rfl
        · rw [List.drop_length]
          exact iff_of_true (Language.nil_mem_kstar L) (Language.nil_mem_kstar M)
      rw [mem_kstar_iff_take isNonEmpty, mem_kstar_iff_take isNonEmpty]
      constructor
      · intro isSplit
        -- the longest split is the one that the loop comes to
        obtain ⟨k, ⟨isPositive, within, split⟩, last⟩ := exists_longest (n := w.length) (fun k split => split.2.1) isSplit
        refine ⟨k, isPositive, within, (ofReached isPositive within fun j isLater isWithin isSplit => ?_).mp split⟩
        exact last j isLater ⟨by omega, isWithin, isSplit⟩
      · rintro ⟨k, isPositive, within, split⟩
        by_contra noSplit
        have last (j : Nat) (isLater : k < j) (isWithin : j ≤ w.length) : ¬(w.take j ∈ L ∧ w.drop j ∈ L∗) :=
          fun isSplit => noSplit ⟨j, by omega, isWithin, isSplit⟩
        exact noSplit ⟨k, isPositive, within, (ofReached isPositive within last).mpr split⟩

mutual
/-- Cutting off long words makes no difference where no long concatenation is reached, by induction on the
expression.
-/
theorem ReachedWithin.agrees (r : RegExp) (w : Word) (reached : ReachedWithin I intMax r w)
    : w ∈ cutLanguage I r ↔ w ∈ r.language I := by
  match r with
  | .concat children => exact mem_cutLanguage_concat.trans (and_iff_left reached.1)
  | .union children => exact UnionReached.agrees children w reached
  | .inter children => exact InterReached.agrees children w reached
  | .star body =>
      rw [mem_star]
      exact StarReached.agrees (fun u reached => ReachedWithin.agrees body u reached) w reached
  | .complement body => exact not_congr (ReachedWithin.agrees body w reached)
  | .toRegExp _ | .range _ _ | .none | .allchar | .var _ | .all | .diff _ _ => rfl

theorem UnionReached.agrees (children : RegExps) (w : Word) (reached : UnionReached I intMax children w)
    : w ∈ cutUnion I children ↔ w ∈ children.unionLanguage I := by
  match children with
  | .nil => rfl
  | .cons r rest =>
      have first := ReachedWithin.agrees r w reached.1
      by_cases member : w ∈ cutLanguage I r
      · exact iff_of_true (Or.inl member) (Or.inl (first.mp member))
      · exact or_congr first (UnionReached.agrees rest w (reached.2 member))

theorem InterReached.agrees (children : RegExps) (w : Word) (reached : InterReached I intMax children w)
    : w ∈ cutInter I children ↔ w ∈ children.interLanguage I := by
  match children with
  | .nil => rfl
  | .cons r rest =>
      have first := ReachedWithin.agrees r w reached.1
      by_cases member : w ∈ cutLanguage I r
      · exact and_congr first (InterReached.agrees rest w (reached.2 member))
      · exact iff_of_false (fun both => member both.1) (fun both => member (first.mpr both.1))
end

-----------------------------------------------------------------------------------------
-- Answers
-----------------------------------------------------------------------------------------

/-- A test has a result as far as it is defined, and tells then whether something is found. -/
def Answers (answer : Option Bool) (defined found : Prop) : Prop :=
  (defined ∧ ∃ result, answer = some result ∧ (result = true ↔ found)) ∨ (¬defined ∧ answer = none)

theorem Answers.congr {answer : Option Bool} {defined defined' found found' : Prop} (answers : Answers answer defined found)
    (sameDefined : defined ↔ defined') (sameFound : found ↔ found')
    : Answers answer defined' found' := by
  rwa [Answers, ← sameDefined, ← sameFound]

/-- Strings have at most `String::maxSize()` characters. -/
def Outcome (test : Test) (defined : Word → Prop) (L : Language Nat) : Prop :=
  ∀ s index, index ≤ s.length → s.length - index ≤ maxSize
    → Answers (test s index) (defined (s.drop index)) (s.drop index ∈ L)

def OutcomeOf (I : Interpretation) (fuel : Nat) (r : RegExp) : Prop :=
  Outcome (testConstStringInRegExpInternal fuel r) (ReachedWithin I maxSize r) (cutLanguage I r)

def OutcomesOf (I : Interpretation) (fuel : Nat) : RegExps → Prop
  | .nil => True
  | .cons r rest => OutcomeOf I fuel r ∧ OutcomesOf I fuel rest

variable {r : RegExp}

/-- Children are tested until one accepts, by induction on the children. -/
theorem answers_testAny {children : RegExps} (outcomes : OutcomesOf I fuel children) (within : index ≤ s.length)
    (isLess : s.length - index ≤ maxSize)
    : Answers (testAny (testChildren fuel children) s index) (UnionReached I maxSize children (s.drop index))
        (s.drop index ∈ cutUnion I children) := by
  match children with
  | .nil => exact Or.inl ⟨trivial, false, rfl, iff_of_false Bool.false_ne_true (Language.notMem_zero _)⟩
  | .cons r rest =>
      have ofRest := answers_testAny outcomes.2 within isLess
      rw [testChildren, testAny]
      rcases outcomes.1 s index within isLess with ⟨isReached, result, isResult, iff⟩ | ⟨notReached, isNone⟩
      · rw [isResult]
        cases result with
        | true =>
            have member := iff.mp rfl
            exact Or.inl ⟨⟨isReached, fun notMember => absurd member notMember⟩, true, rfl, iff_of_true rfl (Or.inl member)⟩
        | false =>
            have notMember : s.drop index ∉ cutLanguage I r := fun member => Bool.false_ne_true (iff.mpr member)
            exact ofRest.congr ⟨fun later => ⟨isReached, fun _ => later⟩, fun reached => reached.2 notMember⟩
              (or_iff_right notMember).symm
      · rw [isNone]
        exact Or.inr ⟨fun reached => notReached reached.1, rfl⟩

/-- Children are tested until one does not accept, by induction on the children. -/
theorem answers_testAll {children : RegExps} (outcomes : OutcomesOf I fuel children) (within : index ≤ s.length)
    (isLess : s.length - index ≤ maxSize)
    : Answers (testAll (testChildren fuel children) s index) (InterReached I maxSize children (s.drop index))
        (s.drop index ∈ cutInter I children) := by
  match children with
  | .nil => exact Or.inl ⟨trivial, true, rfl, iff_of_true rfl trivial⟩
  | .cons r rest =>
      have ofRest := answers_testAll outcomes.2 within isLess
      rw [testChildren, testAll]
      rcases outcomes.1 s index within isLess with ⟨isReached, result, isResult, iff⟩ | ⟨notReached, isNone⟩
      · rw [isResult]
        cases result with
        | true =>
            have member := iff.mp rfl
            exact ofRest.congr ⟨fun later => ⟨isReached, fun _ => later⟩, fun reached => reached.2 member⟩
              (and_iff_right member).symm
        | false =>
            have notMember : s.drop index ∉ cutLanguage I r := fun member => Bool.false_ne_true (iff.mpr member)
            exact Or.inl ⟨⟨isReached, fun member => absurd member notMember⟩, false, rfl,
              iff_of_false Bool.false_ne_true (fun both => notMember both.1)⟩
      · rw [isNone]
        exact Or.inr ⟨fun reached => notReached reached.1, rfl⟩

theorem intMax_le_maxSize : intMax ≤ maxSize := by norm_num [intMax, maxSize]

-----------------------------------------------------------------------------------------
-- Concatenations
-----------------------------------------------------------------------------------------

theorem toInt32_of_le {n : Nat} (isLess : n ≤ intMax) : toInt32 n = n := by
  rw [intMax_eq] at isLess
  refine Int.bmod_eq_of_le_mul_two ?_ ?_
  · push_cast
    omega
  · push_cast
    omega

theorem toInt32_neg {n : Nat} (isLong : 2 ^ 31 ≤ n) (isLess : n < 2 ^ 32) : toInt32 n < 0 := by
  have isValue : toInt32 n = (n : Int) - (2 ^ 32 : Nat) := by
    refine (Int.sub_bmod_right n _).symm.trans (Int.bmod_eq_of_le_mul_two ?_ ?_)
    · push_cast
      omega
    · push_cast
      omega
  rw [isValue]
  push_cast
  omega

/-- Short words are tested for the language itself. -/
theorem OutcomeOf.answers (outcome : OutcomeOf I fuel r) (within : index ≤ s.length) (isLess : s.length - index ≤ intMax)
    : Answers (testConstStringInRegExpInternal fuel r s index) (ReachedWithin I maxSize r (s.drop index))
        (s.drop index ∈ r.language I) :=
  (outcome s index within (isLess.trans intMax_le_maxSize)).congr Iff.rfl
    (mem_cutLanguage_iff r _ (by rwa [List.length_drop]))

/-- The iterations at a level that is followed by some number of others. -/
def levelBound : Nat → Nat
  | 0 => 1
  | later + 1 => (intMax + 2) * (levelBound later + 1)

/-- From a level on, the search has no result unless it is `reached`; it ends within some iterations if `found`, and
otherwise steps back to the level before, where no counter has changed.
-/
def Searched (tests : List Test) (s : Word) (index limit : Nat) (reached found : Prop) (i start left : Nat)
    (vecK : Nat → Int)
    : Prop :=
  ∃ used < limit,
    reached ∧ found ∧ (∀ rest, splitLoop tests s index (rest + used + 1) ⟨i, start, left, vecK⟩ = some true)
    ∨ reached ∧ ¬found ∧ (∃ vecK', (∀ j < i, vecK' j = vecK j)
        ∧ ∀ rest, splitLoop tests s index (rest + used + 1) ⟨i, start, left, vecK⟩
          = splitLoop tests s index rest (SplitState.stepBack ⟨i, start, left, vecK'⟩))
    ∨ ¬reached ∧ ∀ rest, splitLoop tests s index (rest + used + 1) ⟨i, start, left, vecK⟩ = none

theorem searched_last {i start left : Nat} {vecK : Nat → Int} (isTest : tests.drop i = testChildren fuel (.cons r .nil))
    (outcome : OutcomeOf I fuel r) (isRest : index + start + left = s.length) (isLess : left ≤ intMax)
    : Searched tests s index 1 (ReachedWithin I maxSize r (s.drop (index + start))) (s.drop (index + start) ∈ r.language I)
        i start left vecK := by
  have isStep (rest : Nat) : splitLoop tests s index (rest + 1) ⟨i, start, left, vecK⟩ = _ := splitLoop_last isTest
  refine ⟨0, Nat.one_pos, ?_⟩
  have isWithin : index + start ≤ s.length := by omega
  rcases outcome.answers isWithin (by omega) with ⟨isReached, result, isResult, iff⟩ | ⟨notReached, isNone⟩
  · simp only [isResult, Option.bind_some] at isStep
    cases result with
    | true => exact Or.inl ⟨isReached, iff.mp rfl, isStep⟩
    | false => exact Or.inr (Or.inl ⟨isReached, fun member => Bool.false_ne_true (iff.mpr member), vecK, fun _ _ => rfl, isStep⟩)
  · simp only [isNone, Option.bind_none] at isStep
    exact Or.inr (Or.inr ⟨notReached, isStep⟩)

theorem mem_mul_iff_take {L M : Language Nat} : w ∈ L * M ↔ ∃ k ≤ w.length, w.take k ∈ L ∧ w.drop k ∈ M := by
  constructor
  · rintro ⟨u, first, v, rest, rfl⟩
    refine ⟨u.length, by simp, ?_, ?_⟩
    · rwa [List.take_left]
    · rwa [List.drop_left]
  · rintro ⟨k, -, first, rest⟩
    exact ⟨_, first, _, rest, List.take_append_drop k w⟩

/-- No split starts with a piece that the counter has passed, and the search below it has come back. -/
def Passed (I : Interpretation) (r : RegExp) (rest : RegExps) (w : Word) (k : Nat) : Prop :=
  ¬(w.take k ∈ r.language I ∧ w.drop k ∈ rest.concatLanguage I)
    ∧ ReachedWithin I maxSize r (w.take k) ∧ (w.take k ∈ r.language I → SplitsReached I maxSize rest (w.drop k))

theorem Passed.isEarlier {rest : RegExps} {k k0 : Nat} (before : ∀ k < k0, Passed I r rest w k) (isPassed : Passed I r rest w k0)
    (isBefore : k < k0 + 1)
    : Passed I r rest w k := by
  rcases Nat.lt_or_eq_of_le (Nat.lt_succ_iff.mp isBefore) with isBefore | rfl
  · exact before k isBefore
  · exact isPassed

section Level

variable {i start left limit : Nat} {vecK : Nat → Int} {reached found : Prop}

theorem searched_of_none (noResult : ∀ rest, splitLoop tests s index (rest + 1) ⟨i, start, left, vecK⟩ = none)
    (notReached : ¬reached) (isSome : 0 < limit)
    : Searched tests s index limit reached found i start left vecK :=
  ⟨0, isSome, Or.inr (Or.inr ⟨notReached, noResult⟩)⟩

theorem Searched.mono {more : Nat} (searched : Searched tests s index limit reached found i start left vecK) (isMore : limit ≤ more)
    : Searched tests s index more reached found i start left vecK := by
  obtain ⟨used, isBound, result⟩ := searched
  exact ⟨used, isBound.trans_le isMore, result⟩

/-- Iterations that only change this counter and later ones may come before. -/
theorem Searched.after {vecK' : Nat → Int} (searched : Searched tests s index limit reached found i start left vecK') (spent : Nat)
    (unchanged : ∀ j < i, vecK' j = vecK j)
    (goesOn : ∀ rest, splitLoop tests s index (rest + spent + 1) ⟨i, start, left, vecK⟩
      = splitLoop tests s index (rest + 1) ⟨i, start, left, vecK'⟩)
    : Searched tests s index (limit + spent) reached found i start left vecK := by
  obtain ⟨used, isBound, result⟩ := searched
  have isSame (rest : Nat) : splitLoop tests s index (rest + (used + spent) + 1) ⟨i, start, left, vecK⟩
      = splitLoop tests s index (rest + used + 1) ⟨i, start, left, vecK'⟩ := by
    rw [← Nat.add_assoc, goesOn]
  refine ⟨used + spent, by omega, ?_⟩
  simp only [isSame]
  refine result.imp_right (Or.imp_left (fun ⟨isReached, notFound, vecK'', unchanged', stepsBack⟩ =>
    ⟨isReached, notFound, vecK'', fun j isBefore => ?_, stepsBack⟩))
  rw [unchanged' j isBefore, unchanged j isBefore]

variable {r' : RegExp} {rest : RegExps} {k0 : Nat}

/-- A counter that has passed all pieces overflows, or the search steps back. -/
theorem searched_exhausted (isTest : tests.drop i = testChildren fuel (.cons r (.cons r' rest))) (isLength : w.length = left)
    (isLess : left ≤ intMax) (isCounter : vecK i = left) (before : ∀ k < left + 1, Passed I r (.cons r' rest) w k) (isSome : 0 < limit)
    : Searched tests s index limit (SplitsReached I maxSize (.cons r (.cons r' rest)) w)
        (w ∈ (RegExps.cons r (.cons r' rest)).concatLanguage I) i start left vecK := by
  have notFound : w ∉ (RegExps.cons r (.cons r' rest)).concatLanguage I := by
    rw [RegExps.concatLanguage, mem_mul_iff_take]
    rintro ⟨k, isWithin, isSplit⟩
    exact (before k (by omega)).1 isSplit
  by_cases isLimit : left = intMax
  · refine searched_of_none (fun _ => splitLoop_overflow isTest (by omega)) (fun reached => notFound ?_) isSome
    exact reached.2 (isLength.trans isLimit)
  · have isReached : SplitsReached I maxSize (.cons r (.cons r' rest)) w :=
      ⟨fun k isWithin _ => (before k (by omega)).2, fun isLimit' => absurd (isLength.symm.trans isLimit') isLimit⟩
    refine ⟨0, isSome, Or.inr (Or.inl ⟨isReached, notFound, Function.update vecK i (left + 1), fun j isBefore => ?_, fun _ => ?_⟩)⟩
    · exact Function.update_of_ne (Nat.ne_of_lt isBefore) _ _
    · exact splitLoop_exhausted isTest isCounter (by omega)

/-- A counter that overflows where no piece was one starts no split. -/
theorem not_splitsReached_of_overflow (isLength : w.length ≤ intMax) (isLimit : k0 = intMax) (within : k0 ≤ w.length)
    (noEarlier : ∀ k < k0, ¬(w.take k ∈ r.language I ∧ w.drop k ∈ (RegExps.cons r' rest).concatLanguage I))
    (notPiece : w.take k0 ∉ r.language I)
    : ¬SplitsReached I maxSize (.cons r (.cons r' rest)) w := by
  intro reached
  have member := reached.2 (by omega)
  rw [RegExps.concatLanguage, mem_mul_iff_take] at member
  obtain ⟨k, isWithin, isSplit⟩ := member
  rcases Nat.lt_or_eq_of_le (show k ≤ k0 by omega) with isBefore | rfl
  · exact noEarlier k isBefore isSplit
  · exact notPiece isSplit.1

/-- The state before a piece was taken is the one that is stepped back to. -/
theorem stepBack_eq {vecK' : Nat → Int} (within : k0 ≤ left) (isCounter : vecK' i = k0)
    : SplitState.stepBack ⟨((i + 1 : Nat) : Int), ((start + k0 : Nat) : Int), ((left - k0 : Nat) : Int), vecK'⟩
      = ⟨i, start, left, vecK'⟩ := by
  have isIndex : ((i + 1 : Nat) : Int) - 1 = i := by omega
  simp only [SplitState.stepBack, isIndex, Int.toNat_natCast, isCounter]
  rw [if_pos (Int.natCast_nonneg i), Nat.cast_add, Nat.cast_sub within, add_sub_cancel_right, sub_add_cancel]

/-- By induction on the number of the pieces that the counter has not passed. A piece that is none, or that no split starts
with, is passed; the search below one that is a piece may end with a split, or without a result.
-/
theorem searched_counter (isTest : tests.drop i = testChildren fuel (.cons r (.cons r' rest))) (outcome : OutcomeOf I fuel r)
    (isWord : s.drop (index + start) = w) (isLength : w.length = left) (isLess : left ≤ intMax)
    (below : ∀ k ≤ left, ∀ vecK' : Nat → Int, vecK' (i + 1) = -1
      → Searched tests s index limit (SplitsReached I maxSize (.cons r' rest) (w.drop k))
          (w.drop k ∈ (RegExps.cons r' rest).concatLanguage I) (i + 1) (start + k) (left - k) vecK')
    (within : k0 ≤ left + 1) (isCounter : vecK i = (k0 : Int) - 1)
    (before : ∀ k < k0, Passed I r (.cons r' rest) w k)
    : Searched tests s index ((left + 2 - k0) * (limit + 1)) (SplitsReached I maxSize (.cons r (.cons r' rest)) w)
        (w ∈ (RegExps.cons r (.cons r' rest)).concatLanguage I) i start left vecK := by
  induction isMeasure : left + 1 - k0 using Nat.strong_induction_on generalizing k0 vecK with
  | _ measure ih =>
      have isSome : 0 < (left + 2 - k0) * (limit + 1) := Nat.mul_pos (by omega) (Nat.succ_pos _)
      rcases Nat.lt_or_eq_of_le within with isLess' | isLast
      · have isStep (rest : Nat) : splitLoop tests s index (rest + 1) ⟨i, start, left, vecK⟩ = _ :=
          splitLoop_piece isTest isCounter (Nat.lt_succ_iff.mp isLess') isLess
        have pieces := outcome.answers (Nat.zero_le (w.take k0).length) (by rw [List.length_take]; omega)
        rw [List.drop_zero] at pieces
        rw [isWord] at isStep
        have noEarlier (j : Nat) (isBefore : j < k0) := (before j isBefore).1
        have isMore : left + 2 - k0 = left + 2 - (k0 + 1) + 1 := by omega
        -- the search from the next piece on
        have next (vecK' : Nat → Int) (isCounter' : vecK' i = k0) (isPassed : Passed I r (.cons r' rest) w k0)
            : Searched tests s index ((left + 2 - (k0 + 1)) * (limit + 1)) _ _ i start left vecK' :=
          ih (left + 1 - (k0 + 1)) (by omega) (by omega) (by omega) (fun k isBefore => .isEarlier before isPassed isBefore) rfl
        rcases pieces with ⟨isReached, piece, isPiece, iff⟩ | ⟨notReached, isNone⟩
        · simp only [isPiece, Option.bind_some] at isStep
          cases piece with
          | false =>
              have notPiece : w.take k0 ∉ r.language I := fun member => Bool.false_ne_true (iff.mpr member)
              simp only [Bool.false_eq_true, if_false] at isStep
              by_cases isLimit : k0 = intMax
              · simp only [if_pos isLimit] at isStep
                exact searched_of_none isStep (not_splitsReached_of_overflow (by omega) isLimit (by omega) noEarlier notPiece) isSome
              · simp only [if_neg isLimit] at isStep
                have isPassed : Passed I r (.cons r' rest) w k0 :=
                  ⟨fun isSplit => notPiece isSplit.1, isReached, fun member => absurd member notPiece⟩
                refine ((next _ (Function.update_self ..) isPassed).after 0 (fun j isBefore => ?_) isStep).mono ?_
                · exact Function.update_of_ne (Nat.ne_of_lt isBefore) _ _
                · exact Nat.mul_le_mul_right _ (by omega)
          | true =>
              have isPieceOf := iff.mp rfl
              simp only [if_true] at isStep
              obtain ⟨used, isBound, result⟩ := below k0 (by omega) _ (Function.update_self _ _ _)
              have isFirst : used + 1 < (left + 2 - k0) * (limit + 1) :=
                lt_of_lt_of_le (Nat.succ_lt_succ isBound) (Nat.le_mul_of_pos_left _ (by omega))
              rcases result with ⟨isReached', isFound, ends⟩ | ⟨isReached', notFound, vecK', unchanged, stepsBack⟩ | ⟨notReached, noResult⟩
              · have isMember : w ∈ (RegExps.cons r (.cons r' rest)).concatLanguage I :=
                  ⟨_, isPieceOf, _, isFound, List.take_append_drop k0 w⟩
                refine ⟨used + 1, isFirst, Or.inl ⟨⟨fun k isWithin none => ?_, fun _ => isMember⟩, isMember, fun rest => ?_⟩⟩
                · rcases Nat.lt_trichotomy k k0 with isBefore | rfl | isAfter
                  · exact (before k isBefore).2
                  · exact ⟨isReached, fun _ => isReached'⟩
                  · exact absurd ⟨isPieceOf, isFound⟩ (none k0 isAfter)
                · rw [← Nat.add_assoc, isStep, ends]
              · have isSame (j : Nat) (isBefore : j < i + 1) : vecK' j = Function.update vecK i (k0 : Int) j := by
                  rw [unchanged j isBefore, Function.update_of_ne (Nat.ne_of_lt isBefore)]
                have isCounter' : vecK' i = k0 := (isSame i (Nat.lt_succ_self i)).trans (Function.update_self ..)
                have isPassed : Passed I r (.cons r' rest) w k0 := ⟨fun isSplit => notFound isSplit.2, isReached, fun _ => isReached'⟩
                refine ((next vecK' isCounter' isPassed).after (used + 2) (fun j isBefore => ?_) fun rest => ?_).mono ?_
                · rw [isSame j (Nat.lt_succ_of_lt isBefore), Function.update_of_ne (Nat.ne_of_lt isBefore)]
                · rw [isStep, show rest + (used + 2) = rest + 1 + used + 1 by omega, stepsBack, stepBack_eq (by omega) isCounter']
                · rw [isMore, Nat.succ_mul]
                  omega
              · refine ⟨used + 1, isFirst, Or.inr (Or.inr ⟨fun reached => notReached ?_, fun rest => ?_⟩)⟩
                · exact (reached.1 k0 (by omega) noEarlier).2 isPieceOf
                · rw [← Nat.add_assoc, isStep, noResult]
        · simp only [isNone, Option.bind_none] at isStep
          exact searched_of_none isStep (fun reached => notReached (reached.1 k0 (by omega) noEarlier).1) isSome
      · exact searched_exhausted isTest isLength isLess (by omega) (fun k isBefore => before k (by omega)) isSome

end Level

theorem searched_children {children : RegExps} {i start left : Nat} {vecK : Nat → Int} (notNil : children ≠ .nil)
    (isTest : tests.drop i = testChildren fuel children) (outcomes : OutcomesOf I fuel children)
    (isRest : index + start + left = s.length) (isLess : left ≤ intMax) (isCounter : vecK i = -1)
    : Searched tests s index (levelBound (children.toList.length - 1)) (SplitsReached I maxSize children (s.drop (index + start)))
        (s.drop (index + start) ∈ children.concatLanguage I) i start left vecK := by
  match children with
  | .nil => exact absurd rfl notNil
  | .cons r .nil =>
      have isLanguage : (RegExps.cons r .nil).concatLanguage I = r.language I := mul_one _
      rw [isLanguage]
      exact searched_last isTest outcomes.1 isRest isLess
  | .cons r (.cons r' rest) =>
      have isLater : tests.drop (i + 1) = testChildren fuel (.cons r' rest) := by
        rw [← List.drop_drop, isTest]
        rfl
      have isLength : (s.drop (index + start)).length = left := by
        rw [List.length_drop]
        omega
      have below (k : Nat) (isWithin : k ≤ left) (vecK' : Nat → Int) (isStart : vecK' (i + 1) = -1)
          : Searched tests s index (levelBound rest.toList.length)
              (SplitsReached I maxSize (.cons r' rest) ((s.drop (index + start)).drop k))
              ((s.drop (index + start)).drop k ∈ (RegExps.cons r' rest).concatLanguage I) (i + 1) (start + k) (left - k) vecK' := by
        rw [List.drop_drop, Nat.add_assoc]
        have notNil : RegExps.cons r' rest ≠ .nil := fun isNil => nomatch isNil
        exact searched_children notNil isLater outcomes.2 (by omega) (by omega) isStart
      obtain ⟨used, isBound, result⟩ := searched_counter isTest outcomes.1 rfl isLength isLess below (Nat.zero_le _)
        (by simpa using isCounter) (fun k isBefore => absurd isBefore (Nat.not_lt_zero k))
      exact ⟨used, isBound.trans_le (Nat.mul_le_mul_right _ (by omega)), result⟩

theorem nil_mem_concatLanguage (children : RegExps) : [] ∈ children.concatLanguage I ↔ [] ∈ children.interLanguage I := by
  match children with
  | .nil => exact iff_of_true rfl trivial
  | .cons r rest =>
      rw [RegExps.concatLanguage, mem_mul_iff_take]
      constructor
      · rintro ⟨k, -, first, later⟩
        rw [List.take_nil] at first
        rw [List.drop_nil] at later
        exact ⟨first, (nil_mem_concatLanguage rest).mp later⟩
      · rintro ⟨first, later⟩
        exact ⟨0, le_rfl, first, (nil_mem_concatLanguage rest).mpr later⟩

/-- A test of the end of a string asks every child for the empty word, others search for a split. -/
theorem outcomeOf_concat {children : RegExps} (arity : 2 ≤ children.toList.length) (outcomes : OutcomesOf I fuel children)
    (enough : levelBound (children.toList.length - 1) + 2 ≤ fuel)
    : OutcomeOf I fuel (.concat children) := by
  intro s index within isLess
  have lengthDrop : (s.drop index).length = s.length - index := List.length_drop
  have isMember : s.drop index ∈ (RegExp.concat children).language I ↔ s.drop index ∈ children.concatLanguage I := by
    rw [RegExp.language]
  match children with
  | .nil | .cons _ .nil => simp [RegExps.toList] at arity
  | .cons r (.cons r' rest) =>
      rw [testConstStringInRegExpInternal, testConcat]
      by_cases isEnd : s.length = index
      · have isEmpty : s.drop index = [] := by rw [← isEnd, List.drop_length]
        have isShort : (s.drop index).length < intMax := by
          rw [isEmpty]
          decide
        rw [if_neg (not_not.mpr isEnd)]
        refine (answers_testAll outcomes within isLess).congr ?_ ?_
        · exact iff_of_true (interReached_of_short _ _ isShort intMax_le_maxSize) (reachedWithin_of_short _ _ isShort intMax_le_maxSize)
        · rw [mem_cutInter_iff _ _ isShort.le, mem_cutLanguage_concat, and_iff_left isShort.le, isMember, isEmpty]
          exact nil_mem_concatLanguage _ |>.symm
      rcases Nat.lt_or_ge intMax (s.length - index) with isLong | isShort
      · have isNegative : toInt32 (s.length - index) < 0 :=
          toInt32_neg (by rw [intMax_eq] at isLong; omega) (by rw [maxSize] at isLess; omega)
        rw [if_pos isEnd, show fuel = fuel - 2 + 2 by omega]
        refine Or.inl ⟨⟨by omega, fun isShort => by omega⟩, false, splitLoop_negative isNegative,
          iff_of_false Bool.false_ne_true ?_⟩
        rw [mem_cutLanguage_concat]
        omega
      · have notNil : RegExps.cons r (.cons r' rest) ≠ .nil := fun isNil => nomatch isNil
        have search : Searched (testChildren fuel (.cons r (.cons r' rest))) s index _ _ _ 0 0 (s.length - index) fun _ => -1 :=
          searched_children notNil rfl outcomes (by omega) isShort rfl
        obtain ⟨used, isBound, result⟩ := search
        obtain ⟨spare, rfl⟩ : ∃ spare, fuel = spare + 1 + used + 1 := ⟨fuel - used - 2, by omega⟩
        rw [if_pos isEnd, toInt32_of_le isShort]
        rcases result with ⟨isReached, isFound, ends⟩ | ⟨isReached, notFound, vecK', -, stepsBack⟩ | ⟨notReached, noResult⟩
        · refine Or.inl ⟨⟨by omega, fun _ => isReached⟩, true, ends _, iff_of_true rfl ?_⟩
          exact mem_cutLanguage_concat.mpr ⟨isMember.mpr isFound, by omega⟩
        · refine Or.inl ⟨⟨by omega, fun _ => isReached⟩, false, (stepsBack _).trans splitLoop_start,
            iff_of_false Bool.false_ne_true (fun member => notFound (isMember.mp member.1))⟩
        · exact Or.inr ⟨fun reached => notReached (reached.2 (by omega)), noResult _⟩

-----------------------------------------------------------------------------------------
-- Stars
-----------------------------------------------------------------------------------------

/-- What the loop of a star reaches from a length of the first piece on. -/
def StarReachedFrom (D : Word → Prop) (L : Language Nat) (w : Word) (n : Nat) : Prop :=
  ∀ i, 0 < i → i ≤ n → (∀ j, i < j → j ≤ w.length → ¬(w.take j ∈ L ∧ w.drop j ∈ L∗))
    → D (w.take i) ∧ (w.take i ∈ L → i < w.length → StarReached D L (w.drop i))

/-- By induction on the length of the first piece, where no longer one is the start of a split. -/
theorem answers_starFrom {body : Test} {D : Word → Prop} {L : Language Nat} {again : Nat → Option Bool}
    (outcome : Outcome body D L) (isLess : (s.drop index).length ≤ maxSize)
    (answersAgain : ∀ k, 0 < k → k < (s.drop index).length
      → Answers (again (index + k)) (StarReached D L ((s.drop index).drop k)) ((s.drop index).drop k ∈ L∗))
    {i : Nat} (within : i ≤ (s.drop index).length)
    (noLonger : ∀ j, i < j → j ≤ (s.drop index).length → ¬((s.drop index).take j ∈ L ∧ (s.drop index).drop j ∈ L∗))
    : Answers (starFrom body again s index i) (StarReachedFrom D L (s.drop index) i)
        (∃ k, 0 < k ∧ k ≤ i ∧ (s.drop index).take k ∈ L ∧ (s.drop index).drop k ∈ L∗) := by
  have lengthDrop : (s.drop index).length = s.length - index := List.length_drop
  generalize isWord : s.drop index = w at *
  induction i with
  | zero => exact Or.inl ⟨fun i isPositive isZero => by omega, false, rfl, by simp⟩
  | succ i ih =>
      have lengthTake : (w.take (i + 1)).length = i + 1 := List.length_take_of_le within
      -- where the first piece fails, the loop goes on with a shorter one
      have ofShorter (isReached : D (w.take (i + 1)))
          (ofRest : w.take (i + 1) ∈ L → i + 1 < w.length → StarReached D L (w.drop (i + 1)))
          (noSplit : ¬(w.take (i + 1) ∈ L ∧ w.drop (i + 1) ∈ L∗))
          : Answers (starFrom body again s index i) (StarReachedFrom D L w (i + 1))
              (∃ k, 0 < k ∧ k ≤ i + 1 ∧ w.take k ∈ L ∧ w.drop k ∈ L∗) := by
        have noLonger' (j : Nat) (isLater : i < j) (inside : j ≤ w.length) : ¬(w.take j ∈ L ∧ w.drop j ∈ L∗) := by
          rcases Nat.eq_or_lt_of_le isLater with rfl | isLater'
          · exact noSplit
          · exact noLonger j isLater' inside
        refine (ih (by omega) noLonger').congr ⟨fun shorter k isPositive isWithin none => ?_, fun all k isPositive isWithin =>
          all k isPositive (by omega)⟩ ⟨?_, ?_⟩
        · rcases Nat.lt_or_eq_of_le isWithin with isLess | rfl
          · exact shorter k isPositive (by omega) none
          · exact ⟨isReached, ofRest⟩
        · rintro ⟨k, isPositive, isWithin, isSplit⟩
          exact ⟨k, isPositive, by omega, isSplit⟩
        · rintro ⟨k, isPositive, isWithin, isSplit⟩
          rcases Nat.lt_or_eq_of_le isWithin with isLess | rfl
          · exact ⟨k, isPositive, by omega, isSplit⟩
          · exact absurd isSplit noSplit
      -- the longest split is found, whatever the shorter pieces are
      have ofSplit (isReached : D (w.take (i + 1)))
          (ofRest : w.take (i + 1) ∈ L → i + 1 < w.length → StarReached D L (w.drop (i + 1)))
          (isSplit : w.take (i + 1) ∈ L ∧ w.drop (i + 1) ∈ L∗)
          : Answers (some true) (StarReachedFrom D L w (i + 1)) (∃ k, 0 < k ∧ k ≤ i + 1 ∧ w.take k ∈ L ∧ w.drop k ∈ L∗) := by
        refine Or.inl ⟨fun k isPositive isWithin none => ?_, true, rfl, iff_of_true rfl ⟨i + 1, Nat.succ_pos i, le_rfl, isSplit⟩⟩
        rcases Nat.lt_or_eq_of_le isWithin with isLess | rfl
        · exact absurd isSplit (none (i + 1) isLess within)
        · exact ⟨isReached, ofRest⟩
      have pieces := outcome (w.take (i + 1)) 0 (Nat.zero_le _) (by omega)
      rw [List.drop_zero] at pieces
      rw [starFrom, isWord]
      rcases pieces with ⟨isReached, piece, isPiece, iff⟩ | ⟨notReached, isNone⟩
      · rw [isPiece]
        cases piece with
        | false =>
            have notPiece : w.take (i + 1) ∉ L := fun member => Bool.false_ne_true (iff.mpr member)
            exact ofShorter isReached (fun member => absurd member notPiece) (fun isSplit => notPiece isSplit.1)
        | true =>
            have isPieceOf := iff.mp rfl
            simp only
            split
            · next isEnd =>
                refine ofSplit isReached (fun _ isLess => by omega) ⟨isPieceOf, ?_⟩
                rw [List.drop_of_length_le (by omega)]
                exact Language.nil_mem_kstar L
            · next notEnd =>
                rcases answersAgain (i + 1) (Nat.succ_pos i) (by omega) with ⟨isReached', rest, isRest, iff'⟩ | ⟨notReached, isNone⟩
                · rw [isRest]
                  cases rest with
                  | true => exact ofSplit isReached (fun _ _ => isReached') ⟨isPieceOf, iff'.mp rfl⟩
                  | false =>
                      exact ofShorter isReached (fun _ _ => isReached') (fun isSplit => Bool.false_ne_true (iff'.mpr isSplit.2))
                · rw [isNone]
                  exact Or.inr ⟨fun all => notReached ((all (i + 1) (Nat.succ_pos i) le_rfl noLonger).2 isPieceOf (by omega)), rfl⟩
      · rw [isNone]
        exact Or.inr ⟨fun all => notReached (all (i + 1) (Nat.succ_pos i) le_rfl noLonger).1, rfl⟩

/-- By induction on the fuel, of which a longer suffix needs more. -/
theorem answers_testStar {body : Test} {D : Word → Prop} {L : Language Nat} (outcome : Outcome body D L)
    (within : index ≤ s.length) (isLess : s.length - index ≤ maxSize) (enough : s.length - index < fuel)
    : Answers (testStar body fuel s index) (StarReached D L (s.drop index)) (s.drop index ∈ L∗) := by
  induction fuel generalizing index with
  | zero => omega
  | succ fuel ih =>
      have lengthDrop : (s.drop index).length = s.length - index := List.length_drop
      rw [testStar]
      split
      · next notEnd =>
          have notEmpty : s.drop index ≠ [] := by
            rw [ne_eq, List.drop_eq_nil_iff]
            omega
          have again (k : Nat) (isPositive : 0 < k) (inside : k < (s.drop index).length)
              : Answers (testStar body fuel s (index + k)) (StarReached D L ((s.drop index).drop k))
                  ((s.drop index).drop k ∈ L∗) := by
            rw [List.drop_drop]
            exact ih (by omega) (by omega) (by omega)
          have answers := answers_starFrom outcome (by omega) again (le_of_eq lengthDrop.symm) (fun j isLater isWithin => by omega)
          refine answers.congr ?_ ?_
          · rw [StarReached, StarReachedFrom, ← lengthDrop]
          · rw [mem_kstar_iff_take notEmpty, lengthDrop]
      · next isEnd =>
          rw [← not_not.mp isEnd, List.drop_length]
          refine Or.inl ⟨?_, true, rfl, iff_of_true rfl (Language.nil_mem_kstar L)⟩
          rw [StarReached]
          intro i isPositive isWithin
          exact absurd isWithin (by simpa using isPositive.ne')

-----------------------------------------------------------------------------------------
-- Regular expressions
-----------------------------------------------------------------------------------------

theorem mem_range_iff {lower upper : StringTerm} (isRange : isCharacterRange lower upper = true) {w : Word}
    : w ∈ (RegExp.range lower upper).language I
      ↔ w.length = 1 ∧ lower.front ≤ w.getLastD 0 ∧ w.getLastD 0 ≤ upper.front := by
  unfold isCharacterRange at isRange
  split at isRange
  · next a b =>
      rw [mem_characterRange]
      constructor
      · rintro ⟨c, rfl, isGreater, isLess⟩
        exact ⟨rfl, isGreater, isLess⟩
      · rintro ⟨isSingle, isGreater, isLess⟩
        obtain ⟨c, rfl⟩ := List.length_eq_one_iff.mp isSingle
        exact ⟨c, rfl, isGreater, isLess⟩
  · cases isRange

theorem getLastD_drop (inside : index < s.length) : (s.drop index).getLastD 0 = s.getLastD 0 := by
  rw [List.getLastD_eq_getLast?, List.getLastD_eq_getLast?, List.getLast?_drop, if_neg (by omega)]

mutual
/-- With enough fuel every test has its outcome; the fuel is for the searches and the stars of an expression. -/
theorem outcomeOf (I : Interpretation) (r : RegExp) (arity : r.wellFormed = true) (eliminated : isEliminated r = true)
    : ∃ least, ∀ fuel ≥ least, OutcomeOf I fuel r := by
  match r with
  | .toRegExp s =>
      match s with
      | .const w =>
          refine ⟨0, fun fuel _ s index within _ => Or.inl ⟨trivial, _, rfl, ?_⟩⟩
          rw [decide_eq_true_eq, List.take_of_length_le (by rw [List.length_drop])]
          exact (mem_toRegExp.trans (by rw [eval_const])).symm
      | .var _ | .concat _ | .unit _ | .substr _ _ _ | .replace _ _ _ | .fromInt _ => cases eliminated
  | .range lower upper =>
      refine ⟨0, fun fuel _ s index within _ => ?_⟩
      have lengthDrop : (s.drop index).length = s.length - index := List.length_drop
      have isMember : s.drop index ∈ cutLanguage I (.range lower upper) ↔ _ := mem_range_iff eliminated
      rw [testConstStringInRegExpInternal, isMember]
      simp only
      split
      · next isLast =>
          refine Or.inl ⟨trivial, _, rfl, ?_⟩
          rw [decide_eq_true_eq, getLastD_drop (by omega)]
          exact (and_iff_right (by omega)).symm
      · next notLast =>
          exact Or.inl ⟨trivial, false, rfl, iff_of_false Bool.false_ne_true (fun member => notLast (by omega))⟩
  | .allchar =>
      refine ⟨0, fun fuel _ s index within _ => Or.inl ⟨trivial, _, rfl, ?_⟩⟩
      have isMember : s.drop index ∈ cutLanguage I .allchar ↔ _ := mem_allchar
      rw [decide_eq_true_eq, isMember, List.length_drop]
      omega
  | .none => exact ⟨0, fun fuel _ s index within _ => Or.inl ⟨trivial, false, rfl, iff_of_false Bool.false_ne_true notMem_none⟩⟩
  | .concat children =>
      rw [RegExp.wellFormed, Bool.and_eq_true, decide_eq_true_eq] at arity
      obtain ⟨least, outcomes⟩ := outcomesOf I children arity.2 eliminated
      refine ⟨max least (levelBound (children.toList.length - 1) + 2), fun fuel isMore => ?_⟩
      exact outcomeOf_concat arity.1 (outcomes fuel (le_trans (le_max_left _ _) isMore)) (le_trans (le_max_right _ _) isMore)
  | .union children =>
      rw [RegExp.wellFormed, Bool.and_eq_true] at arity
      obtain ⟨least, outcomes⟩ := outcomesOf I children arity.2 eliminated
      exact ⟨least, fun fuel isMore s index within isLess => answers_testAny (outcomes fuel isMore) within isLess⟩
  | .inter children =>
      rw [RegExp.wellFormed, Bool.and_eq_true] at arity
      obtain ⟨least, outcomes⟩ := outcomesOf I children arity.2 eliminated
      exact ⟨least, fun fuel isMore s index within isLess => answers_testAll (outcomes fuel isMore) within isLess⟩
  | .star body =>
      obtain ⟨least, outcome⟩ := outcomeOf I body arity eliminated
      refine ⟨max least (maxSize + 1), fun fuel isMore s index within isLess => ?_⟩
      have enough : s.length - index < fuel := by
        have isGreater := le_trans (le_max_right _ _) isMore
        omega
      exact answers_testStar (outcome fuel (le_trans (le_max_left _ _) isMore)) within isLess enough
  | .complement body =>
      obtain ⟨least, outcome⟩ := outcomeOf I body arity eliminated
      refine ⟨least, fun fuel isMore s index within isLess => ?_⟩
      rw [testConstStringInRegExpInternal]
      rcases outcome fuel isMore s index within isLess with ⟨isReached, result, isResult, iff⟩ | ⟨notReached, isNone⟩
      · refine Or.inl ⟨isReached, !result, by simp only [isResult, Option.map_some], ?_⟩
        have isMember : s.drop index ∈ cutLanguage I (.complement body) ↔ s.drop index ∉ cutLanguage I body := Iff.rfl
        rw [isMember, ← iff]
        cases result <;> simp
      · exact Or.inr ⟨notReached, by simp only [isNone, Option.map_none]⟩
  | .var _ | .all | .diff _ _ => cases eliminated

theorem outcomesOf (I : Interpretation) (children : RegExps) (arity : children.wellFormed = true)
    (eliminated : areEliminated children = true)
    : ∃ least, ∀ fuel ≥ least, OutcomesOf I fuel children := by
  match children with
  | .nil => exact ⟨0, fun _ _ => trivial⟩
  | .cons r rest =>
      rw [RegExps.wellFormed, Bool.and_eq_true] at arity
      rw [areEliminated, Bool.and_eq_true] at eliminated
      obtain ⟨least, outcome⟩ := outcomeOf I r arity.1 eliminated.1
      obtain ⟨least', outcomes⟩ := outcomesOf I rest arity.2 eliminated.2
      exact ⟨max least least', fun fuel isMore =>
        ⟨outcome fuel (le_trans (le_max_left _ _) isMore), outcomes fuel (le_trans (le_max_right _ _) isMore)⟩⟩
end

-----------------------------------------------------------------------------------------
-- A bound on what is reached
-----------------------------------------------------------------------------------------

theorem StarReached.mono {D D' : Word → Prop} {L : Language Nat} (implies : ∀ u, D u → D' u) (w : Word)
    (reached : StarReached D L w)
    : StarReached D' L w := by
  induction isLength : w.length using Nat.strong_induction_on generalizing w with
  | _ length ih =>
      rw [StarReached] at reached ⊢
      intro i isPositive within noLonger
      obtain ⟨isReached, later⟩ := reached i isPositive within noLonger
      exact ⟨implies _ isReached, fun first isLess => ih _ (by rw [List.length_drop]; omega) _ (later first isLess) rfl⟩

mutual
/-- A larger bound reaches no less, by induction on the expression. -/
theorem ReachedWithin.mono (isLess : bound ≤ maxSize) (r : RegExp) (w : Word) (reached : ReachedWithin I bound r w)
    : ReachedWithin I maxSize r w := by
  match r with
  | .concat children =>
      exact ⟨le_trans reached.1 isLess, fun isShort => SplitsReached.mono isLess children w (reached.2 isShort)⟩
  | .union children => exact UnionReached.mono isLess children w reached
  | .inter children => exact InterReached.mono isLess children w reached
  | .star body => exact StarReached.mono (fun u => ReachedWithin.mono isLess body u) w reached
  | .complement body => exact ReachedWithin.mono isLess body w reached
  | .toRegExp _ | .range _ _ | .none | .allchar | .var _ | .all | .diff _ _ => trivial

theorem UnionReached.mono (isLess : bound ≤ maxSize) (children : RegExps) (w : Word) (reached : UnionReached I bound children w)
    : UnionReached I maxSize children w := by
  match children with
  | .nil => trivial
  | .cons r rest =>
      exact ⟨ReachedWithin.mono isLess r w reached.1, fun notMember => UnionReached.mono isLess rest w (reached.2 notMember)⟩

theorem InterReached.mono (isLess : bound ≤ maxSize) (children : RegExps) (w : Word) (reached : InterReached I bound children w)
    : InterReached I maxSize children w := by
  match children with
  | .nil => trivial
  | .cons r rest =>
      exact ⟨ReachedWithin.mono isLess r w reached.1, fun member => InterReached.mono isLess rest w (reached.2 member)⟩

theorem SplitsReached.mono (isLess : bound ≤ maxSize) (children : RegExps) (w : Word) (reached : SplitsReached I bound children w)
    : SplitsReached I maxSize children w := by
  match children with
  | .nil => trivial
  | .cons r .nil => exact ReachedWithin.mono isLess r w reached
  | .cons r (.cons r' rest) =>
      refine ⟨fun k within none => ?_, reached.2⟩
      obtain ⟨isReached, later⟩ := reached.1 k within none
      exact ⟨ReachedWithin.mono isLess r _ isReached, fun member => SplitsReached.mono isLess (.cons r' rest) _ (later member)⟩
end

-----------------------------------------------------------------------------------------
-- The tests
-----------------------------------------------------------------------------------------

/-- Where the automaton is used it gives the result of the search. -/
theorem testConstStringInRegExp_eq {r : RegExp} {result : Bool} (arity : r.wellFormed = true)
    (isResult : testConstStringInRegExpInternal fuel r s 0 = some result) (iff : result = true ↔ s ∈ r.language I)
    : testConstStringInRegExp fuel s r = some result := by
  have isEvaluated (evaluable : canEvaluate r = true) : evaluate s r = result := by
    rw [Bool.eq_iff_iff, evaluate_iff I evaluable arity, iff]
  unfold testConstStringInRegExp
  split
  · split
    · next evaluable => rw [isEvaluated evaluable]
    · exact isResult
  · split
    · next evaluable => rw [isEvaluated evaluable]
    · exact isResult
  · split
    · next evaluable => rw [isEvaluated evaluable]
    · exact isResult
  · exact isResult

/-- The test of a suffix ends with the right answer, and the automaton makes no difference. -/
def TestsExactly (I : Interpretation) (r : RegExp) (s : Word) (index : Nat) : Prop :=
  ∃ least result, (∀ fuel ≥ least, testConstStringInRegExpInternal fuel r s index = some result)
    ∧ (result = true ↔ s.drop index ∈ r.language I)
    ∧ (index = 0 → ∀ fuel ≥ least, testConstStringInRegExp fuel s r = some result)

/-- The test is exact just where no counter overflows and long concatenations make no difference to the suffix; so it is
where no concatenation is reached on more characters than an `int` counts.
-/
theorem testConstString_exact (I : Interpretation) (r : RegExp) (s : Word) (index : Nat) (arity : r.wellFormed = true)
    (eliminated : isEliminated r = true) (within : index ≤ s.length) (isString : s.length - index ≤ maxSize)
    : (TestsExactly I r s index
        ↔ ReachedWithin I maxSize r (s.drop index) ∧ (s.drop index ∈ cutLanguage I r ↔ s.drop index ∈ r.language I))
      ∧ (ReachedWithin I intMax r (s.drop index) → TestsExactly I r s index) := by
  obtain ⟨least, outcome⟩ := outcomeOf I r arity eliminated
  have exact_iff : TestsExactly I r s index
      ↔ ReachedWithin I maxSize r (s.drop index) ∧ (s.drop index ∈ cutLanguage I r ↔ s.drop index ∈ r.language I) := by
    constructor
    · rintro ⟨least', result, ends, iff, -⟩
      rcases outcome (max least least') (le_max_left _ _) s index within isString
        with ⟨isReached, result', isResult, iff'⟩ | ⟨-, isNone⟩
      · rw [ends _ (le_max_right _ _), Option.some_inj] at isResult
        exact ⟨isReached, by rw [← iff', ← isResult, iff]⟩
      · rw [ends _ (le_max_right _ _)] at isNone
        cases isNone
    · rintro ⟨isReached, same⟩
      have answers (fuel : Nat) (isMore : fuel ≥ least)
          : ∃ result, testConstStringInRegExpInternal fuel r s index = some result
            ∧ (result = true ↔ s.drop index ∈ r.language I) := by
        rcases outcome fuel isMore s index within isString with ⟨-, result, isResult, iff⟩ | ⟨notReached, -⟩
        · exact ⟨result, isResult, iff.trans same⟩
        · exact absurd isReached notReached
      obtain ⟨result, -, iff⟩ := answers least le_rfl
      have isSame (fuel : Nat) (isMore : fuel ≥ least) : testConstStringInRegExpInternal fuel r s index = some result := by
        obtain ⟨result', isResult', iff'⟩ := answers fuel isMore
        rw [isResult', Bool.eq_iff_iff.mpr (iff'.trans iff.symm)]
      refine ⟨least, result, isSame, iff, fun isStart fuel isMore => ?_⟩
      rw [isStart] at isSame iff
      exact testConstStringInRegExp_eq arity (isSame fuel isMore) iff
  refine ⟨exact_iff, fun isReached => exact_iff.mpr ⟨?_, ?_⟩⟩
  · exact ReachedWithin.mono intMax_le_maxSize r _ isReached
  · exact ReachedWithin.agrees r _ isReached

/-- `(re.union (re.comp re.none) (re.++ (str.to_re "a") (str.to_re "b")))` -/
def anyOrPair : RegExp :=
  .union (.ofList [.complement .none, .concat (.ofList [.toRegExp (.const [97]), .toRegExp (.const [98])])])

/-- The first child accepts every string, so that a long one does not reach the concatenation. -/
theorem testConstString_exact_anyOrPair
    : TestsExactly ⟨⟨fun _ => [], fun _ => 0⟩, fun _ => 0⟩ anyOrPair (List.replicate (2 ^ 31) 97) 0 := by
  have isString : (List.replicate (2 ^ 31) 97).length - 0 ≤ maxSize := by
    rw [List.length_replicate]
    decide
  exact (testConstString_exact _ anyOrPair _ 0 (by decide) (by decide) (Nat.zero_le _) isString).2
    ⟨trivial, fun notMember => absurd notMem_none notMember⟩

/-- Any two strings. -/
def anyTwice : RegExp := .concat (.ofList [.complement .none, .complement .none])

theorem anyTwice_language (I : Interpretation) (w : Word)
    : w ∈ anyTwice.language I := by
  have anyMember (u : Word) : u ∈ (RegExp.complement .none).language I := by
    rw [mem_complement]
    exact notMem_none
  rw [anyTwice, mem_concat, RegExps.toList_ofList, mem_languageOf_cons]
  exact ⟨[], anyMember [], w, languageOf_singleton ▸ anyMember w, rfl⟩

theorem testConcat_overflow {children : RegExps} (arity : 2 ≤ children.toList.length) (isLong : 2 ^ 31 ≤ s.length - index)
    (isString : s.length - index < 2 ^ 32) (enough : 2 ≤ fuel)
    : testConstStringInRegExpInternal fuel (.concat children) s index = some false := by
  have isNegative := toInt32_neg isLong isString
  match children with
  | .nil | .cons _ .nil => simp [RegExps.toList] at arity
  | .cons r (.cons r' rest) =>
      rw [testConstStringInRegExpInternal, testConcat, if_pos (by omega), show fuel = fuel - 2 + 2 by omega]
      exact splitLoop_negative isNegative

theorem anyTwice_isFalse {s : Word} (isLong : 2 ^ 31 ≤ s.length) (isString : s.length < 2 ^ 32) (enough : 2 ≤ fuel)
    : testConstStringInRegExpInternal fuel anyTwice s 0 = some false
      ∧ testConstStringInRegExp fuel s anyTwice = some false := by
  have isFalse : testConstStringInRegExpInternal fuel anyTwice s 0 = some false :=
    testConcat_overflow (by decide) (by rwa [Nat.sub_zero]) (by rwa [Nat.sub_zero]) enough
  exact ⟨isFalse, isFalse⟩

/-- A string that is too long for an `int` is tested not to be a concatenation of any two strings. -/
theorem testConstString_overflow
    : ∃ s : Word, (∀ fuel ≥ 2, testConstStringInRegExpInternal fuel anyTwice s 0 = some false
        ∧ testConstStringInRegExp fuel s anyTwice = some false)
      ∧ ∀ I, s ∈ anyTwice.language I := by
  have isLength (n : Nat) : (List.replicate n 97).length = n := List.length_replicate
  exact ⟨List.replicate (2 ^ 31) 97,
    fun fuel => anyTwice_isFalse (isLength _).ge ((isLength _).trans_lt (by decide)), fun I => anyTwice_language I _⟩

end Ava6.Strings.RegExpTest

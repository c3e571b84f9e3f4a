import Mathlib.Computability.Language
import Ava6.Strings.Term

/-! The search for a split of a string into one piece for each child of a concatenation, with a counter for every child
but the last, and with steps back when a counter is exhausted. A test of a child is given a string and where it starts,
and may have no result. Counters are of type `int`: an overflow has no result.
-/

namespace Ava6.Strings.RegExpTest

def intMax : Nat := 2 ^ 31 - 1

/-- The largest length of a string constant. -/
def maxSize : Nat := 2 ^ 32 - 1

theorem intMax_eq : intMax = 2147483647 := by norm_num [intMax]

/-- The conversion of a size to `int`. -/
def toInt32 (n : Nat) : Int := Int.bmod n (2 ^ 32)

abbrev Test := Word → Nat → Option Bool

structure SplitState where
  i : Int
  start : Int
  left : Int
  vecK : Nat → Int

/-- The `for` loop over the counter, which is bounded by `left`; its end, and whether a piece was found. -/
def findSplit (test : Test) (s : Word) (pos : Nat) (left : Int) : Nat → Int → Option (Bool × Int)
  | 0, _ => none
  | bound + 1, k =>
      if k ≤ left then
        match test ((s.drop pos).take k.toNat) 0 with
        | none => none
        | some true => some (true, k)
        | some false => if k = intMax then none else findSplit test s pos left bound (k + 1)
      else some (false, k)

def SplitState.stepBack (st : SplitState) : SplitState :=
  let i := st.i - 1
  if 0 ≤ i then { st with i := i, start := st.start - st.vecK i.toNat, left := st.left + st.vecK i.toNat }
  else { st with i := i }

/-- The body of the loop: the next state, or the result. -/
def splitStep (tests : List Test) (s : Word) (index : Nat) (st : SplitState) : Option (SplitState ⊕ Bool) :=
  match tests[st.i.toNat]? with
  | none => none
  | some test =>
      if st.i = tests.length - 1 then
        match test s (index + st.start).toNat with
        | none => none
        | some true => some (.inr true)
        | some false => some (.inl st.stepBack)
      else if st.i = -1 then some (.inr false)
      else if st.vecK st.i.toNat = intMax then none
      else
        let k := st.vecK st.i.toNat + 1
        match findSplit test s (index + st.start).toNat st.left ((st.left + 1 - k).toNat + 1) k with
        | none => none
        | some (true, k) =>
            some (.inl {
              i := st.i + 1
              start := st.start + k
              left := st.left - k
              vecK := Function.update (Function.update st.vecK st.i.toNat k) (st.i + 1).toNat (-1)
            })
        | some (false, k) => some (.inl { st with vecK := Function.update st.vecK st.i.toNat k }.stepBack)

def splitLoop (tests : List Test) (s : Word) (index : Nat) : Nat → SplitState → Option Bool
  | 0, _ => none
  | fuel + 1, st =>
      if st.i < tests.length then
        match splitStep tests s index st with
        | none => none
        | some (.inr result) => some result
        | some (.inl st) => splitLoop tests s index fuel st
      else some false

variable {tests : List Test} {test later : Test} {laters : List Test} {s : Word} {index i start left : Nat} {vecK : Nat → Int}
  {fuel : Nat}

/-- The last child takes what is left. -/
theorem splitLoop_last (isTest : tests.drop i = [test])
    : splitLoop tests s index (fuel + 1) ⟨i, start, left, vecK⟩ = (test s (index + start)).bind fun result =>
        if result then some true else splitLoop tests s index fuel (SplitState.stepBack ⟨i, start, left, vecK⟩) := by
  have isLength : tests.length = i + 1 := by
    have lengths := congrArg List.length isTest
    rw [List.length_drop, List.length_singleton] at lengths
    omega
  have isFirst : tests[i]? = some test := by
    rw [← List.head?_drop, isTest]
    rfl
  have isPos : ((index : Int) + (start : Int)).toNat = index + start := by omega
  rw [splitLoop, if_pos (by simp only [isLength]; omega), splitStep]
  simp only [Int.toNat_natCast, isFirst, isPos]
  rw [if_pos (by omega)]
  match test s (index + start) with
  | none | some true | some false => rfl

theorem splitLoop_inner (isTest : tests.drop i = test :: later :: laters)
    : splitLoop tests s index (fuel + 1) ⟨i, start, left, vecK⟩
      = if vecK i = intMax then none
        else (findSplit test s (index + start) left ((left + 1 - (vecK i + 1) : Int).toNat + 1) (vecK i + 1)).bind fun found =>
          splitLoop tests s index fuel
            (if found.1 then
              ⟨i + 1, start + found.2, left - found.2, Function.update (Function.update vecK i found.2) (i + 1) (-1)⟩
            else SplitState.stepBack ⟨i, start, left, Function.update vecK i found.2⟩) := by
  have isLonger : i + 1 < tests.length := by
    have lengths := congrArg List.length isTest
    rw [List.length_drop, List.length_cons, List.length_cons] at lengths
    omega
  have isFirst : tests[i]? = some test := by
    rw [← List.head?_drop, isTest]
    rfl
  have isPos : ((index : Int) + (start : Int)).toNat = index + start := by omega
  have isNext : ((i : Int) + 1).toNat = i + 1 := by omega
  rw [splitLoop, if_pos (by simp only; omega), splitStep]
  simp only [Int.toNat_natCast, isFirst, isPos, isNext]
  rw [if_neg (by omega), if_neg (by omega)]
  by_cases isLast : vecK i = intMax
  · rw [if_pos isLast, if_pos isLast]
  · rw [if_neg isLast, if_neg isLast]
    match findSplit test s (index + start) left ((left + 1 - (vecK i + 1) : Int).toNat + 1) (vecK i + 1) with
    | none | some (true, _) | some (false, _) => rfl

theorem splitLoop_overflow (isTest : tests.drop i = test :: later :: laters) (isLast : vecK i = intMax)
    : splitLoop tests s index (fuel + 1) ⟨i, start, left, vecK⟩ = none := by
  rw [splitLoop_inner isTest, if_pos isLast]

theorem splitLoop_exhausted (isTest : tests.drop i = test :: later :: laters) (isCounter : vecK i = left) (noOverflow : left < intMax)
    : splitLoop tests s index (fuel + 1) ⟨i, start, left, vecK⟩
      = splitLoop tests s index fuel (SplitState.stepBack ⟨i, start, left, Function.update vecK i (left + 1)⟩) := by
  rw [splitLoop_inner isTest, if_neg (by omega), findSplit, if_neg (by omega), Option.bind_some, if_neg Bool.false_ne_true,
    isCounter]

/-- The first piece that the counter has not passed, of `k` characters, decides how the search goes on. -/
theorem splitLoop_piece {k : Nat} (isTest : tests.drop i = test :: later :: laters) (isCounter : vecK i = (k : Int) - 1)
    (within : k ≤ left) (isLess : left ≤ intMax)
    : splitLoop tests s index (fuel + 1) ⟨i, start, left, vecK⟩
      = (test ((s.drop (index + start)).take k) 0).bind fun result =>
        if result then
          splitLoop tests s index fuel
            ⟨(i + 1 : Nat), (start + k : Nat), (left - k : Nat), Function.update (Function.update vecK i k) (i + 1) (-1)⟩
        else if k = intMax then none
        else splitLoop tests s index (fuel + 1) ⟨i, start, left, Function.update vecK i k⟩ := by
  have isNext : vecK i + 1 = (k : Int) := by omega
  have isFuel : ((left : Int) + 1 - (k : Int)).toNat = (left + 1 - (k + 1) : Int).toNat + 1 := by omega
  rw [splitLoop_inner isTest, if_neg (by omega), isNext, findSplit, if_pos (by omega), Int.toNat_natCast]
  match test ((s.drop (index + start)).take k) 0 with
  | none => rfl
  | some true =>
      simp only [Option.bind_some, if_true]
      rw [Nat.cast_add, Nat.cast_add, Nat.cast_sub within, Nat.cast_one]
  | some false =>
      simp only [Option.bind_some, Bool.false_eq_true, if_false]
      by_cases isLast : k = intMax
      · rw [if_pos (by omega), if_pos isLast, Option.bind_none]
      · rw [if_neg (by omega), if_neg isLast, splitLoop_inner isTest, Function.update_self, if_neg (by omega), isFuel]
        simp only [Function.update_idem]

/-- Before the first level there is nothing to step back to. -/
theorem splitLoop_start {test test' : Test} {start left : Int}
    : splitLoop (test :: test' :: tests) s index (fuel + 1) ⟨-1, start, left, vecK⟩ = some false := by
  rw [splitLoop, if_pos (by simp only; omega), splitStep]
  have isFirst : (test :: test' :: tests)[(-1 : Int).toNat]? = some test := rfl
  simp only [isFirst, List.length_cons]
  rw [if_neg (by omega)]
  rfl

/-- The size of a long string is converted to a negative number, which no counter is bounded by. -/
theorem splitLoop_negative {test test' : Test} {left : Int} (isNegative : left < 0)
    : splitLoop (test :: test' :: tests) s index (fuel + 2) ⟨0, 0, left, fun _ => -1⟩ = some false := by
  have notFound (bound : Nat) : findSplit test s (index + 0 : Int).toNat left (bound + 1) (-1 + 1) = some (false, -1 + 1) := by
    rw [findSplit, if_neg (by omega)]
  rw [splitLoop, if_pos (by simp only [List.length_cons]; omega), splitStep]
  have isFirst : (test :: test' :: tests)[(0 : Int).toNat]? = some test := rfl
  simp only [isFirst, List.length_cons, notFound]
  rw [if_neg (by omega), if_neg (by decide)]
  exact splitLoop_start

end Ava6.Strings.RegExpTest

import Ava6.Strings.RegExpEval
import Ava6.Strings.SplitSearch

/-! The test whether a suffix of a constant string is in the language of a constant regular expression, by search for
splits. Where the suffix fits an `int`, the test ends with the right answer, as the automaton does.
-/

namespace Ava6.Strings.RegExpTest

open Computability

-- Test

def testAll : List Test → Test
  | [], _, _ => some true
  | test :: tests, s, index =>
      match test s index with
      | none => none
      | some false => some false
      | some true => testAll tests s index

def testAny : List Test → Test
  | [], _, _ => some false
  | test :: tests, s, index =>
      match test s index with
      | none => none
      | some true => some true
      | some false => testAny tests s index

def testConcat (tests : List Test) (fuel : Nat) : Test := fun s index =>
  if s.length ≠ index then splitLoop tests s index fuel ⟨0, 0, toInt32 (s.length - index), fun _ => -1⟩
  else testAll tests s index

/-- The loop over the length of a first piece, from the longest one on; `again` tests from later positions. -/
def starFrom (body : Test) (again : Nat → Option Bool) (s : Word) (index : Nat) : Nat → Option Bool
  | 0 => some false
  | i + 1 =>
      match body ((s.drop index).take (i + 1)) 0 with
      | none => none
      | some false => starFrom body again s index i
      | some true =>
          if index + (i + 1) = s.length then some true
          else
            match again (index + (i + 1)) with
            | none => none
            | some true => some true
            | some false => starFrom body again s index i

def testStar (body : Test) : Nat → Test
  | 0, _, _ => none
  | fuel + 1, s, index =>
      if s.length ≠ index then starFrom body (testStar body fuel s) s index (s.length - index)
      else some true

mutual
def testConstStringInRegExpInternal (fuel : Nat) : RegExp → Test
  | .toRegExp (.const w) => fun s index => some (decide ((s.drop index).take (s.length - index) = w))
  | .concat children => testConcat (testChildren fuel children) fuel
  | .union children => testAny (testChildren fuel children)
  | .inter children => testAll (testChildren fuel children)
  | .star body => testStar (testConstStringInRegExpInternal fuel body) fuel
  | .allchar => fun s index => some (decide (s.length = index + 1))
  | .range lower upper => fun s index =>
      if s.length = index + 1 then
        let c := s.getLastD 0
        some (decide (lower.front ≤ c ∧ c ≤ upper.front))
      else some false
  | .complement body => fun s index => (testConstStringInRegExpInternal fuel body s index).map not
  | .none | .toRegExp _ | .var _ | .all | .diff _ _ => fun _ _ => some false

def testChildren (fuel : Nat) : RegExps → List Test
  | .nil => []
  | .cons r rest => testConstStringInRegExpInternal fuel r :: testChildren fuel rest
end

/-- Compound expressions are evaluated by an automaton where one can be constructed. -/
def testConstStringInRegExp (fuel : Nat) (s : Word) (r : RegExp) : Option Bool :=
  match r with
  | .concat _ | .star _ | .union _ =>
      if canEvaluate r then some (evaluate s r) else testConstStringInRegExpInternal fuel r s 0
  | r => testConstStringInRegExpInternal fuel r s 0

mutual
/-- A constant expression of the operators that are left after elimination. -/
def isEliminated : RegExp → Bool
  | .toRegExp s => s.isConst
  | .range lower upper => isCharacterRange lower upper
  | .concat children | .union children | .inter children => areEliminated children
  | .star body | .complement body => isEliminated body
  | .none | .allchar => true
  | .var _ | .all | .diff _ _ => false

def areEliminated : RegExps → Bool
  | .nil => true
  | .cons r rest => isEliminated r && areEliminated rest
end

-----------------------------------------------------------------------------------------
-- What a test reaches
-----------------------------------------------------------------------------------------

variable (I : Interpretation)

mutual
/-- The language of an expression where no concatenation has words of more characters than an `int` counts. -/
def cutLanguage : RegExp → Language Nat
  | .concat children => {w | w ∈ (RegExp.concat children).language I ∧ w.length ≤ intMax}
  | .union children => cutUnion children
  | .inter children => cutInter children
  | .star body => (cutLanguage body)∗
  | .complement body => {w | w ∉ cutLanguage body}
  | r => r.language I

def cutUnion : RegExps → Language Nat
  | .nil => 0
  | .cons r rest => cutLanguage r + cutUnion rest

def cutInter : RegExps → Language Nat
  | .nil => {_w | True}
  | .cons r rest => {w | w ∈ cutLanguage r ∧ w ∈ cutInter rest}
end

/-- Every piece that the loop of a star tests is in `D`, for the words in `L`; the longest pieces are tested first. -/
def StarReached (D : Word → Prop) (L : Language Nat) (w : Word) : Prop :=
  ∀ i, (isPositive : 0 < i) → (within : i ≤ w.length)
    → (∀ j, i < j → j ≤ w.length → ¬(w.take j ∈ L ∧ w.drop j ∈ L∗))
    → D (w.take i) ∧ (w.take i ∈ L → i < w.length → StarReached D L (w.drop i))
termination_by w.length
decreasing_by
  rw [List.length_drop]
  omega

mutual
/-- The test of a suffix tests concatenations on at most `bound` characters only, and no counter overflows. -/
def ReachedWithin (bound : Nat) : RegExp → Word → Prop
  | .concat children, w => w.length ≤ bound ∧ (w.length ≤ intMax → SplitsReached bound children w)
  | .union children, w => UnionReached bound children w
  | .inter children, w => InterReached bound children w
  | .star body, w => StarReached (ReachedWithin bound body) (cutLanguage I body) w
  | .complement body, w => ReachedWithin bound body w
  | _, _ => True

def UnionReached (bound : Nat) : RegExps → Word → Prop
  | .nil, _ => True
  | .cons r rest, w => ReachedWithin bound r w ∧ (w ∉ cutLanguage I r → UnionReached bound rest w)

def InterReached (bound : Nat) : RegExps → Word → Prop
  | .nil, _ => True
  | .cons r rest, w => ReachedWithin bound r w ∧ (w ∈ cutLanguage I r → InterReached bound rest w)

/-- What the search for a split reaches: the shortest pieces are tested first, and the search ends with the first split.
Where as many characters are left as an `int` counts, the counter overflows unless there is a split.
-/
def SplitsReached (bound : Nat) : RegExps → Word → Prop
  | .nil, _ => True
  | .cons r .nil, w => ReachedWithin bound r w
  | .cons r (.cons r' rest), w =>
      (∀ k ≤ w.length, (∀ j < k, ¬(w.take j ∈ r.language I ∧ w.drop j ∈ (RegExps.cons r' rest).concatLanguage I))
          → ReachedWithin bound r (w.take k)
            ∧ (w.take k ∈ r.language I → SplitsReached bound (.cons r' rest) (w.drop k)))
        ∧ (w.length = intMax → w ∈ (RegExps.cons r (.cons r' rest)).concatLanguage I)
end

end Ava6.Strings.RegExpTest

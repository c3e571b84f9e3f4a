import Mathlib.Logic.Function.Basic
import Ava6.Strings.NameBound
import Ava6.Strings.RegExpLength

/-! The formulas that memberships are unfolded to: one that does not hold is split at every position, or at one position
where the length of a first or last component is fixed, and one that holds is split at the skolems of its components.
-/

namespace Ava6.Strings

open Computability

mutual
inductive Formula
  | eq (s t : StringTerm)
  | mem (s : StringTerm) (r : RegExp)
  | lt (a b : IntTerm)
  | leq (a b : IntTerm)
  | not (body : Formula)
  | and (children : Formulas)
  | or (children : Formulas)
  /-- An internal quantifier over an integer. -/
  | forallInt (name : Nat) (body : Formula)

inductive Formulas
  | nil
  | cons (head : Formula) (tail : Formulas)
end

def Formulas.ofList : List Formula → Formulas
  | [] => .nil
  | head :: tail => .cons head (ofList tail)

def mkAnd : List Formula → Formula
  | [child] => child
  | children => .and (.ofList children)

def mkOr (children : List Formula) : Formula := .or (.ofList children)

def Interpretation.withInt (I : Interpretation) (name : Nat) (n : Int) : Interpretation :=
  { I with int := Function.update I.int name n }

mutual
def Formula.Holds (I : Interpretation) : Formula → Prop
  | .eq s t => s.eval I.toAssignment = t.eval I.toAssignment
  | .mem s r => s.eval I.toAssignment ∈ r.language I
  | .lt a b => a.eval I.toAssignment < b.eval I.toAssignment
  | .leq a b => a.eval I.toAssignment ≤ b.eval I.toAssignment
  | .not body => ¬body.Holds I
  | .and children => children.AllHold I
  | .or children => children.SomeHolds I
  | .forallInt name body => ∀ n : Int, body.Holds (I.withInt name n)

def Formulas.AllHold (I : Interpretation) : Formulas → Prop
  | .nil => True
  | .cons head tail => head.Holds I ∧ tail.AllHold I

def Formulas.SomeHolds (I : Interpretation) : Formulas → Prop
  | .nil => False
  | .cons head tail => head.Holds I ∨ tail.SomeHolds I
end

-- Reductions

def mkPrefix (s : StringTerm) (n : IntTerm) : StringTerm := .substr s (.const 0) n

def mkSuffix (s : StringTerm) (n : IntTerm) : StringTerm := .substr s n (.sub (.length s) n)

def mkSuffixOfLen (s : StringTerm) (n : IntTerm) : StringTerm := .substr s (.sub (.length s) n) n

/-- The fixed length of the first component, or of the last one if the second result is set. -/
def getRegExpConcatFixed (children : List RegExp) : Option (Nat × Bool) :=
  match getFixedLengthForRegexp (children.headD .none) with
  | some reLen => some (reLen, false)
  | none => (getFixedLengthForRegexp (children.getLastD .none)).map (·, true)

/-- The child that is stripped off. -/
def strippedChild (isRev : Bool) (children : List RegExp) : RegExp :=
  if isRev then children.getLastD .none else children.headD .none

def otherChildren (isRev : Bool) (children : List RegExp) : RegExp :=
  match if isRev then children.dropLast else children.tail with
  | [r] => r
  | nvec => .concat (.ofList nvec)

/-- For a membership in a concatenation that does not hold; without a fixed length the index is a bound variable. -/
def reduceRegExpNegConcatFixed (indexVar : Nat) (s : StringTerm) (children : List RegExp) (reLen : Option Nat)
    (isRev : Bool)
    : Formula :=
  let lens := IntTerm.length s
  let b1 : IntTerm :=
    match reLen with
    | none => .var indexVar
    | some reLen => .const reLen
  let s1 := if isRev then mkSuffixOfLen s b1 else mkPrefix s b1
  let s2 := if isRev then mkPrefix s (.sub lens b1) else mkSuffix s b1
  let s1r1 := Formula.not (.mem s1 (strippedChild isRev children))
  let s2r2 := Formula.not (.mem s2 (otherChildren isRev children))
  match reLen with
  | none => .forallInt indexVar (mkOr [.lt b1 (.const 0), .lt lens b1, s1r1, s2r2])
  | some _ => mkOr [s1r1, s2r2]

/-- For a membership that does not hold; nothing for other kinds of regular expressions. -/
def reduceRegExpNeg (indexVar : Nat) (s : StringTerm) : RegExp → Option Formula
  | .concat children => some (reduceRegExpNegConcatFixed indexVar s children.toList none false)
  | .star body =>
      let b1 := IntTerm.var indexVar
      some (mkAnd [
        .not (.eq s (.const [])),
        .forallInt indexVar (mkOr [
          .leq b1 (.const 0),
          .lt (.length s) b1,
          .not (.mem (mkPrefix s b1) body),
          .not (.mem (mkSuffix s b1) (.star body))])])
  | _ => none

/-- The skolems of the components from some position on, and their memberships. A component that is a string is its own
skolem.
-/
def unfoldComponents (component : Nat → Nat) : Nat → List RegExp → List StringTerm × List Formula
  | _, [] => ([], [])
  | i, .toRegExp t :: rest =>
      let (newSkolems, nvec) := unfoldComponents component (i + 1) rest
      (t :: newSkolems, nvec)
  | i, r :: rest =>
      let (newSkolems, nvec) := unfoldComponents component (i + 1) rest
      (.var (component i) :: newSkolems, .mem (.var (component i)) r :: nvec)

def reduceConcatPos (component : Nat → Nat) (s : StringTerm) (children : List RegExp) : Formula :=
  let (newSkolems, nvec) := unfoldComponents component 0 children
  mkAnd (.eq s (.concat (.ofList newSkolems)) :: nvec)

/-- The first and the last of two or more words of a star are not empty. -/
def expandStar (body : RegExp) : List RegExp :=
  let rd := RegExp.diff body (.toRegExp (.const []))
  [rd, .star body, rd]

/-- For a membership that holds. -/
def reduceRegExpPos (component : Nat → Nat) (s : StringTerm) : RegExp → Option Formula
  | .concat children => some (reduceConcatPos component s children.toList)
  | .star body =>
      some (mkOr [.eq s (.const []), .mem s body, reduceConcatPos component s (expandStar body)])
  | _ => none

-- Splitting words

section Words

variable {w : Word} {L M : Language Nat}

theorem substr_zero (w : Word) (k : Nat) : w.substr 0 k = w.take k := by
  rw [Word.substr]
  split
  · simp
  · next outside =>
      have isEmpty : w = [] ∨ k = 0 := by
        rw [← List.length_eq_zero_iff]
        omega
      rcases isEmpty with rfl | rfl <;> simp

theorem substr_to_end (w : Word) (k : Nat) : w.substr k (w.length - k) = w.drop k := by
  rw [Word.substr]
  split
  · next inside =>
      rw [Int.toNat_natCast]
      exact List.take_of_length_le (by rw [List.length_drop]; omega)
  · next outside => exact (List.drop_eq_nil_of_le (by omega)).symm

theorem substr_zero_sub (w : Word) (k : Nat) : w.substr 0 (w.length - k) = w.take (w.length - k) := by
  rcases Nat.le_total k w.length with isShort | isLong
  · rw [← substr_zero, Nat.cast_sub isShort]
  · rw [Nat.sub_eq_zero_of_le isLong, List.take_zero, Word.substr, if_neg (by omega)]

theorem substr_sub (w : Word) {k : Nat} (isShort : k ≤ w.length) : w.substr (w.length - k) k = w.drop (w.length - k) := by
  have toEnd := substr_to_end w (w.length - k)
  rw [Nat.cast_sub isShort, sub_sub_cancel] at toEnd
  exact toEnd

/-- The piece that is stripped off at a distance from one end, and the other piece. -/
def cut (isRev : Bool) (w : Word) (k : Nat) : Word × Word :=
  if isRev then (w.drop (w.length - k), w.take (w.length - k)) else (w.take k, w.drop k)

/-- A language in front of another, or after it if `isRev`. -/
def attach (isRev : Bool) (L M : Language Nat) : Language Nat := if isRev then M * L else L * M

theorem length_cut (isRev : Bool) {k : Nat} (isShort : k ≤ w.length) : (cut isRev w k).1.length = k := by
  cases isRev with
  | false => simp [cut, isShort]
  | true =>
      simp [cut]
      omega

theorem mem_attach {isRev : Bool} : w ∈ attach isRev L M ↔ ∃ k ≤ w.length, (cut isRev w k).1 ∈ L ∧ (cut isRev w k).2 ∈ M := by
  cases isRev with
  | false =>
      rw [attach, if_neg Bool.false_ne_true, Language.mem_mul]
      constructor
      · rintro ⟨u, inL, v, inM, rfl⟩
        refine ⟨u.length, by simp, ?_⟩
        simp [cut, inL, inM]
      · rintro ⟨k, _, inL, inM⟩
        exact ⟨_, inL, _, inM, List.take_append_drop k w⟩
  | true =>
      rw [attach, if_pos rfl, Language.mem_mul]
      constructor
      · rintro ⟨u, inM, v, inL, rfl⟩
        refine ⟨v.length, by simp, ?_⟩
        simp [cut, inL, inM]
      · rintro ⟨k, _, inL, inM⟩
        exact ⟨_, inM, _, inL, List.take_append_drop (w.length - k) w⟩

/-- Where the piece has a fixed length there is only one position. -/
theorem mem_attach_fixed {isRev : Bool} {n : Nat} (fixed : ∀ u ∈ L, u.length = n)
    : w ∈ attach isRev L M ↔ n ≤ w.length ∧ (cut isRev w n).1 ∈ L ∧ (cut isRev w n).2 ∈ M := by
  rw [mem_attach]
  constructor
  · rintro ⟨k, isShort, inL, inM⟩
    obtain rfl : k = n := (length_cut isRev isShort).symm.trans (fixed _ inL)
    exact ⟨isShort, inL, inM⟩
  · rintro ⟨isShort, both⟩
    exact ⟨n, isShort, both⟩

end Words

-- Memberships that do not hold

variable {I : Interpretation} {s : StringTerm}

theorem holds_mkOr {children : List Formula} : (mkOr children).Holds I ↔ ∃ child ∈ children, child.Holds I := by
  rw [mkOr, Formula.Holds]
  induction children with
  | nil => simp [Formulas.ofList, Formulas.SomeHolds]
  | cons head tail ih => rw [Formulas.ofList, Formulas.SomeHolds, ih, List.exists_mem_cons_iff]

theorem holds_mkAnd {children : List Formula} : (mkAnd children).Holds I ↔ ∀ child ∈ children, child.Holds I := by
  have allHold : (Formula.and (.ofList children)).Holds I ↔ ∀ child ∈ children, child.Holds I := by
    rw [Formula.Holds]
    induction children with
    | nil => simp [Formulas.ofList, Formulas.AllHold]
    | cons head tail ih => rw [Formulas.ofList, Formulas.AllHold, ih, List.forall_mem_cons]
  unfold mkAnd
  split
  · rw [List.forall_mem_singleton]
  · exact allHold

theorem agree_withInt {next name : Nat} (isLater : next ≤ name) (I : Interpretation) (n : Int)
    : Agree next (I.withInt name n).toAssignment I.toAssignment :=
  ⟨fun _ _ => rfl, fun _ isLess => Function.update_of_ne (Nat.ne_of_lt (Nat.lt_of_lt_of_le isLess isLater)) _ _⟩

variable {children : List RegExp}

/-- A child is stripped off one end of a concatenation. -/
theorem exists_children (isRev : Bool) (isSome : children ≠ [])
    : ∃ r others, strippedChild isRev children = r
      ∧ (∀ I : Interpretation, (otherChildren isRev children).language I = languageOf I others)
      ∧ children = if isRev then others ++ [r] else r :: others := by
  have language_other (others : List RegExp) (I : Interpretation)
      : RegExp.language I (match others with | [r] => r | nvec => .concat (.ofList nvec)) = languageOf I others := by
    split
    · exact languageOf_singleton.symm
    · rw [RegExp.language, RegExps.concatLanguage_eq, RegExps.toList_ofList]
  cases isRev with
  | false =>
      obtain ⟨r, others, rfl⟩ := List.exists_cons_of_ne_nil isSome
      exact ⟨r, others, rfl, language_other others, rfl⟩
  | true =>
      refine ⟨children.getLast isSome, children.dropLast, ?_, language_other _, ?_⟩
      · rw [strippedChild, if_pos rfl, List.getLastD_eq_getLast?, List.getLast?_eq_some_getLast isSome, Option.getD_some]
      · exact (List.dropLast_append_getLast isSome).symm

variable {isRev : Bool}

theorem languageOf_children {others : List RegExp} {r : RegExp}
    (isChildren : children = if isRev then others ++ [r] else r :: others)
    : languageOf I children = attach isRev (r.language I) (languageOf I others) := by
  subst isChildren
  cases isRev with
  | false => exact languageOf_cons others
  | true => rw [if_pos rfl, languageOf_append, languageOf_singleton, attach, if_pos rfl]

/-- The two pieces of a string at an index that is in range. -/
theorem eval_pieces {A : Assignment} (isRev : Bool) {b1 : IntTerm} {k : Nat} (isIndex : b1.eval A = k)
    (isShort : k ≤ (s.eval A).length)
    : (if isRev then mkSuffixOfLen s b1 else mkPrefix s b1).eval A = (cut isRev (s.eval A) k).1
      ∧ (if isRev then mkPrefix s (.sub (.length s) b1) else mkSuffix s b1).eval A = (cut isRev (s.eval A) k).2 := by
  have zero : (IntTerm.const 0).eval A = 0 := by rw [IntTerm.eval]
  have fromEnd : (IntTerm.sub (.length s) b1).eval A = (s.eval A).length - k := by
    rw [IntTerm.eval, IntTerm.eval, isIndex]
  cases isRev with
  | false =>
      simp only [Bool.false_eq_true, if_false, mkPrefix, mkSuffix, cut, StringTerm.eval]
      rw [isIndex, zero, fromEnd, substr_zero, substr_to_end]
      exact ⟨rfl, rfl⟩
  | true =>
      simp only [if_true, mkPrefix, mkSuffixOfLen, cut, StringTerm.eval]
      rw [isIndex, zero, fromEnd, substr_sub _ isShort, substr_zero_sub]
      exact ⟨rfl, rfl⟩

/-- The formula without a fixed length says that no index splits the string. -/
theorem holds_negConcat {next indexVar : Nat} (isLater : next ≤ indexVar) (isRev : Bool)
    (isSome : children ≠ []) (sBelow : s.Below next) (below : ∀ r ∈ children, r.Below next)
    : (reduceRegExpNegConcatFixed indexVar s children none isRev).Holds I
      ↔ s.eval I.toAssignment ∉ languageOf I children := by
  obtain ⟨r, others, isStripped, isOther, isChildren⟩ := exists_children isRev isSome
  have rBelow : r.Below next := below r (by subst isChildren; cases isRev <;> simp)
  have othersBelow : ∀ r' ∈ others, r'.Below next :=
    fun r' isMem => below r' (by subst isChildren; cases isRev <;> simp [isMem])
  rw [languageOf_children isChildren, mem_attach]
  simp only [reduceRegExpNegConcatFixed, Formula.Holds, holds_mkOr, isStripped, List.mem_cons, List.not_mem_nil, or_false,
    exists_eq_or_imp, exists_eq_left, isOther]
  have index (n : Int) : (IntTerm.var indexVar).eval (I.withInt indexVar n).toAssignment = n := by
    rw [IntTerm.eval]
    exact Function.update_self _ _ _
  have agree (n : Int) := agree_withInt isLater I n
  have sEval (n : Int) : s.eval (I.withInt indexVar n).toAssignment = s.eval I.toAssignment :=
    eval_string_agree (agree n) sBelow
  have rLanguage (n : Int) : r.language (I.withInt indexVar n) = r.language I := language_agree (agree n) rfl rBelow
  have othersLanguage (n : Int) : languageOf (I.withInt indexVar n) others = languageOf I others :=
    languageOf_agree (agree n) rfl othersBelow
  have pieces (k : Nat) (isShort : k ≤ (s.eval I.toAssignment).length) :=
    eval_pieces (s := s) isRev (index k) (sEval k ▸ isShort)
  simp only [sEval] at pieces
  constructor
  · rintro holds ⟨k, isShort, inR, inOthers⟩
    rcases holds k with negative | outside | notR | notOthers
    · rw [index, IntTerm.eval] at negative
      omega
    · rw [index, IntTerm.eval, sEval] at outside
      omega
    · rw [(pieces k isShort).1, rLanguage] at notR
      exact notR inR
    · rw [(pieces k isShort).2, othersLanguage] at notOthers
      exact notOthers inOthers
  · intro notSplit n
    rw [index, IntTerm.eval, IntTerm.eval, sEval]
    by_contra notHolds
    simp only [not_or, not_not, not_lt] at notHolds
    obtain ⟨isPos, isShort, inR, inOthers⟩ := notHolds
    obtain ⟨k, rfl⟩ := Int.eq_ofNat_of_zero_le isPos
    have isShort : k ≤ (s.eval I.toAssignment).length := by omega
    rw [(pieces k isShort).1, rLanguage] at inR
    rw [(pieces k isShort).2, othersLanguage] at inOthers
    exact notSplit ⟨k, isShort, inR, inOthers⟩

theorem getFixedLength_of_concat {reLen : Nat}
    (found : getRegExpConcatFixed children = some (reLen, isRev))
    : getFixedLengthForRegexp (strippedChild isRev children) = some reLen := by
  rw [getRegExpConcatFixed] at found
  split at found
  · next isFixed =>
      cases found
      exact isFixed
  · obtain ⟨n, isFixed, isResult⟩ := Option.map_eq_some_iff.mp found
    cases isResult
    exact isFixed

/-- A piece of a length that the string does not have is shorter. -/
theorem length_piece {A : Assignment} (isRev : Bool) {b1 : IntTerm} {k : Nat} (isIndex : b1.eval A = k)
    (isLong : (s.eval A).length < k)
    : ((if isRev then mkSuffixOfLen s b1 else mkPrefix s b1).eval A).length < k := by
  have zero : (IntTerm.const 0).eval A = 0 := by rw [IntTerm.eval]
  cases isRev with
  | false =>
      rw [if_neg Bool.false_ne_true, mkPrefix, StringTerm.eval, isIndex, zero, substr_zero, List.length_take]
      omega
  | true =>
      have fromEnd : (IntTerm.sub (.length s) b1).eval A = (s.eval A).length - k := by
        rw [IntTerm.eval, IntTerm.eval, isIndex]
      rw [if_pos rfl, mkSuffixOfLen, StringTerm.eval, fromEnd, Word.substr, if_neg (by omega)]
      exact Nat.zero_lt_of_lt isLong

/-- Where a length is fixed, only the index at that distance is looked at; a shorter string has no piece of it. -/
theorem holds_negConcatFixed {indexVar reLen : Nat} (isSome : children ≠ [])
    (found : getRegExpConcatFixed children = some (reLen, isRev))
    : (reduceRegExpNegConcatFixed indexVar s children (some reLen) isRev).Holds I
      ↔ s.eval I.toAssignment ∉ languageOf I children := by
  obtain ⟨r, others, isStripped, isOther, isChildren⟩ := exists_children isRev isSome
  have isFixed := getFixedLength_of_concat found
  rw [isStripped] at isFixed
  have fixed : ∀ u ∈ r.language I, u.length = reLen := fun u inR => length_of_fixed isFixed inR
  rw [languageOf_children isChildren, mem_attach_fixed fixed]
  simp only [reduceRegExpNegConcatFixed, Formula.Holds, holds_mkOr, isStripped, List.mem_cons, List.not_mem_nil, or_false,
    exists_eq_or_imp, exists_eq_left, isOther]
  have index : (IntTerm.const reLen).eval I.toAssignment = reLen := by rw [IntTerm.eval]
  by_cases isShort : reLen ≤ (s.eval I.toAssignment).length
  · have pieces := eval_pieces isRev index isShort
    rw [pieces.1, pieces.2]
    simp only [isShort, true_and]
    exact not_and_or.symm
  · refine iff_of_true (Or.inl fun inR => ?_) fun split => isShort split.1
    exact Nat.ne_of_lt (length_piece isRev index (Nat.lt_of_not_le isShort)) (fixed _ inR)

variable {body : RegExp}

/-- A word of a star that is not empty starts with a word of the body that is not. -/
theorem holds_negStar {next indexVar : Nat} (isLater : next ≤ indexVar) (sBelow : s.Below next)
    (below : body.Below next)
    : ∀ conc, reduceRegExpNeg indexVar s (.star body) = some conc
      → (conc.Holds I ↔ s.eval I.toAssignment ∉ (RegExp.star body).language I) := by
  rintro conc ⟨⟩
  rw [mem_star, mem_kstar_iff]
  simp only [Formula.Holds, holds_mkAnd, holds_mkOr, List.mem_cons, List.not_mem_nil, or_false, exists_eq_or_imp,
    exists_eq_left, forall_eq_or_imp, forall_eq, eval_const]
  have index (n : Int) : (IntTerm.var indexVar).eval (I.withInt indexVar n).toAssignment = n := by
    rw [IntTerm.eval]
    exact Function.update_self _ _ _
  have agree (n : Int) := agree_withInt isLater I n
  have sEval (n : Int) : s.eval (I.withInt indexVar n).toAssignment = s.eval I.toAssignment :=
    eval_string_agree (agree n) sBelow
  have bodyLanguage (n : Int) : body.language (I.withInt indexVar n) = body.language I := language_agree (agree n) rfl below
  have starLanguage (n : Int) : (RegExp.star body).language (I.withInt indexVar n) = (RegExp.star body).language I :=
    language_agree (r := .star body) (agree n) rfl below
  have pieces (k : Nat) (isShort : k ≤ (s.eval I.toAssignment).length) :=
    eval_pieces (s := s) false (index k) (sEval k ▸ isShort)
  simp only [sEval, Bool.false_eq_true, if_false, cut] at pieces
  rw [not_or]
  refine and_congr_right fun notEmpty => ?_
  constructor
  · rintro holds ⟨u, v, uNonEmpty, inBody, inStar, isWhole⟩
    have isTake : (s.eval I.toAssignment).take u.length = u := by rw [← isWhole, List.take_left]
    have isDrop : (s.eval I.toAssignment).drop u.length = v := by rw [← isWhole, List.drop_left]
    have isShort : u.length ≤ (s.eval I.toAssignment).length := by simp [← isWhole]
    have isPos := List.length_pos_iff.mpr uNonEmpty
    rcases holds u.length with negative | outside | notBody | notStar
    · rw [index, IntTerm.eval] at negative
      omega
    · rw [index, IntTerm.eval, sEval] at outside
      omega
    · rw [(pieces _ isShort).1, bodyLanguage, isTake] at notBody
      exact notBody inBody
    · rw [(pieces _ isShort).2, starLanguage, isDrop, mem_star] at notStar
      exact notStar inStar
  · intro notSplit n
    rw [index, IntTerm.eval, IntTerm.eval, sEval]
    by_contra notHolds
    simp only [not_or, not_not, not_lt, not_le] at notHolds
    obtain ⟨isPos, isShort, inBody, inStar⟩ := notHolds
    obtain ⟨k, rfl⟩ := Int.eq_ofNat_of_zero_le isPos.le
    have isShort : k ≤ (s.eval I.toAssignment).length := by omega
    rw [(pieces k isShort).1, bodyLanguage] at inBody
    rw [(pieces k isShort).2, starLanguage, mem_star] at inStar
    refine notSplit ⟨_, _, ?_, inBody, inStar, List.take_append_drop k _⟩
    exact List.ne_nil_of_length_pos (by rw [List.length_take]; omega)

-- Memberships that hold

/-- Other values for the skolems of the components. -/
def Interpretation.WithSkolems (I J : Interpretation) (component : Nat → Nat) : Prop :=
  J.int = I.int ∧ J.regexp = I.regexp ∧ ∀ name, (∀ i, component i ≠ name) → J.string name = I.string name

variable {J : Interpretation} {component : Nat → Nat} {next : Nat}

theorem Interpretation.WithSkolems.agree (skolems : I.WithSkolems J component) (isLater : ∀ i, next ≤ component i)
    : Agree next J.toAssignment I.toAssignment := by
  refine ⟨fun name isLess => ?_, fun name _ => congrFun skolems.1 name⟩
  exact skolems.2.2 name fun i => Nat.ne_of_gt (Nat.lt_of_lt_of_le isLess (isLater i))

theorem Interpretation.WithSkolems.refl (I : Interpretation) (component : Nat → Nat) : I.WithSkolems I component :=
  ⟨rfl, rfl, fun _ _ => rfl⟩

theorem unfoldComponents_cons (component : Nat → Nat) (i : Nat) (r : RegExp) (rest : List RegExp)
    : ∃ sk nvec, unfoldComponents component i (r :: rest)
        = (sk :: (unfoldComponents component (i + 1) rest).1, nvec ++ (unfoldComponents component (i + 1) rest).2)
      ∧ (r = .toRegExp sk ∧ nvec = [] ∨ sk = .var (component i) ∧ nvec = [.mem sk r]) := by
  cases r with
  | toRegExp t => exact ⟨t, [], rfl, Or.inl ⟨rfl, rfl⟩⟩
  | _ => exact ⟨.var (component i), [.mem (.var (component i)) _], rfl, Or.inr ⟨rfl, rfl⟩⟩

theorem mem_of_unfoldComponents {i : Nat}
    (holds : ∀ child ∈ (unfoldComponents component i children).2, child.Holds J)
    : wordOf J.toAssignment (unfoldComponents component i children).1 ∈ languageOf J children := by
  induction children generalizing i with
  | nil => exact Language.nil_mem_one
  | cons r rest ih =>
      obtain ⟨sk, nvec, isUnfolded, isSkolem⟩ := unfoldComponents_cons component i r rest
      rw [isUnfolded] at holds ⊢
      rw [wordOf_cons, languageOf_cons]
      refine Language.append_mem_mul ?_ (ih fun child isMem => holds child (List.mem_append_right _ isMem))
      rcases isSkolem with ⟨rfl, _⟩ | ⟨_, rfl⟩
      · exact mem_toRegExp.mpr rfl
      · exact holds _ (List.mem_append_left _ (List.mem_singleton_self _))

/-- Values for the skolems from some position on, under which the components are the pieces of a word. -/
theorem exists_values {i : Nat} {w : Word} (below : ∀ r ∈ children, r.Below next)
    (isMem : w ∈ languageOf I children)
    : ∃ values : Nat → Word, ∀ J : Interpretation, Agree next J.toAssignment I.toAssignment → J.regexp = I.regexp
      → (∀ j ≥ i, J.string (component j) = values j)
      → wordOf J.toAssignment (unfoldComponents component i children).1 = w
        ∧ ∀ child ∈ (unfoldComponents component i children).2, child.Holds J := by
  induction children generalizing i w with
  | nil =>
      refine ⟨fun _ => [], fun J _ _ _ => ⟨?_, fun child isMem => absurd isMem List.not_mem_nil⟩⟩
      rw [languageOf_nil, Language.mem_one] at isMem
      exact isMem.symm
  | cons r rest ih =>
      obtain ⟨u, inR, v, inRest, rfl⟩ := mem_languageOf_cons.mp isMem
      have rBelow := below r List.mem_cons_self
      obtain ⟨values, areValues⟩ := ih (i := i + 1) (fun r' isRest => below r' (List.mem_cons_of_mem _ isRest)) inRest
      refine ⟨Function.update values i u, fun J agree same isValue => ?_⟩
      obtain ⟨isWord, hold⟩ := areValues J agree same fun j isLater => by
        rw [isValue j (by omega), Function.update_of_ne (by omega)]
      obtain ⟨sk, nvec, isUnfolded, isSkolem⟩ := unfoldComponents_cons component i r rest
      rw [isUnfolded, wordOf_cons, isWord, List.forall_mem_append]
      rcases isSkolem with ⟨rfl, rfl⟩ | ⟨rfl, rfl⟩
      · have isPiece : sk.eval J.toAssignment = u :=
          (eval_string_agree agree rBelow).trans (mem_toRegExp.mp inR).symm
        exact ⟨by rw [isPiece], fun child isMem => absurd isMem List.not_mem_nil, hold⟩
      · have isPiece : (StringTerm.var (component i)).eval J.toAssignment = u :=
          (isValue i (Nat.le_refl i)).trans (Function.update_self i u values)
        refine ⟨by rw [isPiece], List.forall_mem_singleton.mpr ?_, hold⟩
        rw [Formula.Holds, isPiece, language_agree agree same rBelow]
        exact inR

/-- A string is in a concatenation if there are values for the skolems of its components. -/
theorem holds_concatPos (isLater : ∀ i, next ≤ component i) (distinct : component.Injective)
    (sBelow : s.Below next) (below : ∀ r ∈ children, r.Below next)
    : (∃ J, I.WithSkolems J component ∧ (reduceConcatPos component s children).Holds J)
      ↔ s.eval I.toAssignment ∈ languageOf I children := by
  have holds_iff (J : Interpretation)
      : (reduceConcatPos component s children).Holds J
        ↔ s.eval J.toAssignment = wordOf J.toAssignment (unfoldComponents component 0 children).1
          ∧ ∀ child ∈ (unfoldComponents component 0 children).2, child.Holds J := by
    rw [reduceConcatPos, holds_mkAnd, List.forall_mem_cons, Formula.Holds, eval_concat, StringTerms.toList_ofList]
  constructor
  · rintro ⟨J, skolems, holds⟩
    obtain ⟨isWord, hold⟩ := (holds_iff J).mp holds
    have agree := skolems.agree isLater
    rw [← eval_string_agree agree sBelow, isWord, ← languageOf_agree agree skolems.2.1 below]
    exact mem_of_unfoldComponents hold
  · intro isMem
    obtain ⟨values, areValues⟩
        : ∃ values : Nat → Word, ∀ J : Interpretation, Agree next J.toAssignment I.toAssignment → J.regexp = I.regexp
          → (∀ j ≥ 0, J.string (component j) = values j)
          → wordOf J.toAssignment (unfoldComponents component 0 children).1 = s.eval I.toAssignment
            ∧ ∀ child ∈ (unfoldComponents component 0 children).2, child.Holds J :=
      exists_values below isMem
    let J : Interpretation := { I with string := Function.extend component values I.string }
    have skolems : I.WithSkolems J component :=
      ⟨rfl, rfl, fun name notSkolem => Function.extend_apply' _ _ _ fun ⟨i, isName⟩ => notSkolem i isName⟩
    have agree := skolems.agree isLater
    obtain ⟨isWord, hold⟩ := areValues J agree rfl fun j _ => distinct.extend_apply values I.string j
    refine ⟨J, skolems, (holds_iff J).mpr ⟨?_, hold⟩⟩
    rw [eval_string_agree agree sBelow, isWord]

/-- A word of a star is empty, one word of the body, or two or more of which the outer ones are not empty. -/
theorem mem_star_iff {w : Word}
    : w ∈ (RegExp.star body).language I
      ↔ w = [] ∨ w ∈ body.language I ∨ w ∈ languageOf I (expandStar body) := by
  have diff {u : Word} (inBody : u ∈ body.language I) (notEmpty : u ≠ [])
      : u ∈ (RegExp.diff body (.toRegExp (.const []))).language I :=
    mem_diff.mpr ⟨inBody, fun isEmpty => notEmpty ((mem_toRegExp.mp isEmpty).trans (eval_const []))⟩
  rw [mem_star, expandStar, languageOf_cons, languageOf_cons, languageOf_singleton]
  constructor
  · rw [Language.mem_kstar_iff_exists_nonempty]
    rintro ⟨pieces, rfl, each⟩
    match pieces with
    | [] => exact Or.inl rfl
    | [u] => exact Or.inr (Or.inl (by simpa using (each u (by simp)).1))
    | first :: second :: rest =>
        refine Or.inr (Or.inr ?_)
        have isSome : second :: rest ≠ [] := List.cons_ne_nil _ _
        have isSplit := List.dropLast_append_getLast isSome
        have isLast := List.getLast_mem isSome
        have firstPiece := each first List.mem_cons_self
        have lastPiece := each _ (List.mem_cons_of_mem first isLast)
        rw [List.flatten_cons, ← isSplit, List.flatten_append, List.flatten_singleton]
        refine Language.append_mem_mul (diff firstPiece.1 firstPiece.2)
          (Language.append_mem_mul ?_ (diff lastPiece.1 lastPiece.2))
        rw [mem_star]
        exact Language.join_mem_kstar fun u isMem =>
          (each u (List.mem_cons_of_mem first (List.mem_of_mem_dropLast isMem))).1
  · rintro (rfl | inBody | isExpanded)
    · exact Language.nil_mem_kstar _
    · have inStar := Language.join_mem_kstar (L := [w]) (List.forall_mem_singleton.mpr inBody)
      rw [List.flatten_singleton] at inStar
      exact inStar
    · obtain ⟨first, inFirst, others, isOthers, rfl⟩ := Language.mem_mul.mp isExpanded
      obtain ⟨middle, inMiddle, last, inLast, rfl⟩ := Language.mem_mul.mp isOthers
      obtain ⟨pieces, rfl, each⟩ := Language.mem_kstar.mp (mem_star.mp inMiddle)
      have isFlat : first ++ (pieces.flatten ++ last) = (first :: (pieces ++ [last])).flatten := by simp
      rw [isFlat]
      refine Language.join_mem_kstar (List.forall_mem_cons.mpr ⟨(mem_diff.mp inFirst).1, ?_⟩)
      exact List.forall_mem_append.mpr ⟨each, List.forall_mem_singleton.mpr (mem_diff.mp inLast).1⟩

/-- A membership in a star is reduced to three pieces, which the skolems of a model are chosen for and
conversely.
-/
theorem holds_starPos (isLater : ∀ i, next ≤ component i) (distinct : component.Injective)
    (sBelow : s.Below next) (below : body.Below next)
    : ∀ conc, reduceRegExpPos component s (.star body) = some conc
      → ((∃ J, I.WithSkolems J component ∧ conc.Holds J) ↔ s.eval I.toAssignment ∈ (RegExp.star body).language I) := by
  rintro conc ⟨⟩
  have expandBelow : ∀ r ∈ expandStar body, r.Below next := by
    have diffBelow : (RegExp.diff body (.toRegExp (.const []))).Below next := ⟨below, trivial⟩
    exact List.forall_mem_cons.mpr ⟨diffBelow, List.forall_mem_cons.mpr
      ⟨below, List.forall_mem_singleton.mpr diffBelow⟩⟩
  have isExpanded := holds_concatPos (I := I) isLater distinct sBelow expandBelow
  have holds_iff (J : Interpretation) (skolems : I.WithSkolems J component)
      : (mkOr [.eq s (.const []), .mem s body, reduceConcatPos component s (expandStar body)]).Holds J
        ↔ s.eval I.toAssignment = [] ∨ s.eval I.toAssignment ∈ body.language I
          ∨ (reduceConcatPos component s (expandStar body)).Holds J := by
    have agree := skolems.agree isLater
    simp only [holds_mkOr, Formula.Holds, List.mem_cons, List.not_mem_nil, or_false, exists_eq_or_imp, exists_eq_left,
      eval_const, eval_string_agree agree sBelow, language_agree agree skolems.2.1 below]
  rw [mem_star_iff, ← isExpanded]
  constructor
  · rintro ⟨J, skolems, holds⟩
    rcases (holds_iff J skolems).mp holds with isEmpty | inBody | expanded
    · exact Or.inl isEmpty
    · exact Or.inr (Or.inl inBody)
    · exact Or.inr (Or.inr ⟨J, skolems, expanded⟩)
  · have same := Interpretation.WithSkolems.refl I component
    rintro (isEmpty | inBody | ⟨J, skolems, expanded⟩)
    · exact ⟨I, same, (holds_iff I same).mpr (Or.inl isEmpty)⟩
    · exact ⟨I, same, (holds_iff I same).mpr (Or.inr (Or.inl inBody))⟩
    · exact ⟨J, skolems, (holds_iff J skolems).mpr (Or.inr (Or.inr expanded))⟩

/-- Each reduction is equivalent to the membership that it reduces, or to there being skolems for it. Variables that are
made have names from `next` on.
-/
theorem reductions_exact (I : Interpretation) {s : StringTerm} {next indexVar : Nat} {component : Nat → Nat}
    (sBelow : s.Below next) (indexLater : next ≤ indexVar) (isLater : ∀ i, next ≤ component i)
    (distinct : component.Injective)
    : (∀ body : RegExp, body.Below next → ∀ conc, reduceRegExpNeg indexVar s (.star body) = some conc
        → (conc.Holds I ↔ s.eval I.toAssignment ∉ (RegExp.star body).language I))
      ∧ (∀ children : List RegExp, children ≠ [] → (∀ r ∈ children, r.Below next) → ∀ isRev,
          ((reduceRegExpNegConcatFixed indexVar s children none isRev).Holds I
            ↔ s.eval I.toAssignment ∉ languageOf I children))
      ∧ (∀ children : List RegExp, children ≠ [] → ∀ reLen isRev, getRegExpConcatFixed children = some (reLen, isRev)
          → ((reduceRegExpNegConcatFixed indexVar s children (some reLen) isRev).Holds I
            ↔ s.eval I.toAssignment ∉ languageOf I children))
      ∧ (∀ r : RegExp, r.Below next → ∀ conc, reduceRegExpPos component s r = some conc
          → ((∃ J, I.WithSkolems J component ∧ conc.Holds J) ↔ s.eval I.toAssignment ∈ r.language I)) := by
  refine ⟨fun body below => holds_negStar indexLater sBelow below,
    fun children isSome below isRev => holds_negConcat indexLater isRev isSome sBelow below,
    fun children isSome reLen isRev found => holds_negConcatFixed isSome found, fun r below conc isReduced => ?_⟩
  cases r with
  | concat children =>
      cases isReduced
      rw [mem_concat]
      exact holds_concatPos isLater distinct sBelow (RegExps.below_iff.mp below)
  | star body =>
      have bodyBelow : body.Below next := below
      exact holds_starPos isLater distinct sBelow bodyBelow conc isReduced
  | _ => cases isReduced

/-- Every string is `aa`. -/
def doubleA : Interpretation := ⟨⟨fun _ => [97, 97], fun _ => 0⟩, fun _ => 0⟩

/-- The string `aa` is unfolded in the star of `a`. -/
theorem reductions_exact_doubleA
    : ∃ conc, reduceRegExpPos Nat.succ (.var 0) (.star (.toRegExp (.const [97]))) = some conc
      ∧ ∃ J, doubleA.WithSkolems J Nat.succ ∧ conc.Holds J := by
  have isExact := reductions_exact doubleA (s := .var 0) (Nat.lt_succ_self 0) (Nat.le_refl 1) (Nat.le_add_left 1)
    Nat.succ_injective
  refine ⟨_, rfl, (isExact.2.2.2 (.star (.toRegExp (.const [97]))) trivial _ rfl).mpr ?_⟩
  have each : ∀ u ∈ [[97], [97]], u ∈ (RegExp.toRegExp (.const [97])).language doubleA := by
    intro u isMem
    rw [mem_toRegExp, eval_const]
    simpa using isMem
  exact mem_star.mpr (Language.join_mem_kstar each)

end Ava6.Strings

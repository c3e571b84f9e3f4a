import Ava6.Strings.SymbolicLength

/-! Components of a concatenation that a substring of it includes or leaves out as a whole.
-/

namespace Ava6.Strings

inductive Rewrite
  | ssLenInclude | ssStripStartPt | ssStripEndPt
  deriving DecidableEq

/-- The term that is returned, the rule that is set and the components that are left and taken. -/
structure SubstrRewrite where
  ret : StringTerm
  rule : Rewrite
  ch1 : List StringTerm
  ch2 : List StringTerm
  deriving DecidableEq

variable (aent : ArithEntail) (s : StringTerm) (start length : IntTerm)

/-- Components that are included as a whole, if the substring starts at the first character. -/
def includePrefix (ch1 : List StringTerm) : Option StripResult :=
  if start = .const 0 then some (stripSymbolicLength aent ch1 1 length false) else none

/-- Components before the start point. -/
def stripStart (ch1 : List StringTerm) : Option StripResult :=
  if start ≠ .const 0 then some (stripSymbolicLength aent ch1 1 start false) else none

/-- Components after the end point. -/
def stripEnd (ch1 : List StringTerm) : Option StripResult :=
  if length ≠ .length s then
    let endPt := IntTerm.add (.cons start (.cons length .nil))
    some (stripSymbolicLength aent ch1 (-1) (aent.rewriteArith (.sub (.length s) endPt)) false)
  else none

/-- What is returned where an attempt succeeds. -/
def includeResult (stripped : StripResult) : SubstrRewrite :=
  let cpulled := mkConcat stripped.nr
  let resultLen := IntTerm.sub length (.length cpulled)
  let chr :=
    if stripped.curr ≠ .const 0 ∧ stripped.n1 ≠ [] then
      stripped.nr ++ [.substr (mkConcat stripped.n1) start resultLen]
    else stripped.nr
  ⟨mkConcat chr, .ssLenInclude, stripped.n1, stripped.nr⟩

def startResult (stripped : StripResult) : SubstrRewrite :=
  let cskipped := mkConcat stripped.nr
  let resultStart := IntTerm.sub start (.length cskipped)
  ⟨.substr (mkConcat stripped.n1) resultStart length, .ssStripStartPt, stripped.n1, stripped.nr⟩

def endResult (stripped : StripResult) : SubstrRewrite :=
  ⟨.substr (mkConcat stripped.n1) start length, .ssStripEndPt, stripped.n1, stripped.nr⟩

/-- The result of an attempt; otherwise the components as it leaves them. -/
def attempt (stripped : Option StripResult) (result : StripResult → SubstrRewrite) (ch1 : List StringTerm)
    : SubstrRewrite ⊕ List StringTerm :=
  match stripped with
  | some stripped => if stripped.ret then .inl (result stripped) else .inr stripped.n1
  | none => .inr ch1

/-- The attempts for `(str.substr s start length)`, one after the other on the same components. -/
def rewriteViaMacroSubstrStripSymLength : Option SubstrRewrite :=
  let ch1 := getConcat s
  match attempt (includePrefix aent start length ch1) (includeResult start length) ch1 with
  | .inl result => some result
  | .inr ch1 =>
      match attempt (stripStart aent start ch1) (startResult start length) ch1 with
      | .inl result => some result
      | .inr ch1 =>
          match attempt (stripEnd aent s start length ch1) (endResult start length) ch1 with
          | .inl result => some result
          | .inr _ => none

namespace Word

variable {u v : Word} {i k : Int}

theorem substr_of_nonneg {w : Word} (isNonneg : 0 ≤ i) : w.substr i k = (w.drop i.toNat).take k.toNat := by
  rw [substr]
  split
  · rfl
  · rename_i outside
    by_cases isPositive : 0 < k
    · rw [List.drop_of_length_le (by omega), List.take_nil]
    · rw [Int.toNat_of_nonpos (not_lt.mp isPositive), List.take_zero]

theorem substr_of_neg {w : Word} (isNegative : i < 0) : w.substr i k = [] := by
  rw [substr, if_neg (by omega)]

/-- A substring from the first character on that reaches into the second word. -/
theorem substr_include (isNonneg : 0 ≤ k) : (u ++ v).substr 0 (u.length + k) = u ++ v.substr 0 k := by
  rw [substr_of_nonneg (le_refl 0), substr_of_nonneg (le_refl 0), Int.toNat_zero, List.drop_zero, List.drop_zero,
    show (u.length + k).toNat = u.length + k.toNat by omega, List.take_length_add_append]

/-- A substring that starts in the second word. -/
theorem substr_skip (isNonneg : 0 ≤ i) : (u ++ v).substr (u.length + i) k = v.substr i k := by
  rw [substr_of_nonneg (by omega), substr_of_nonneg isNonneg, show (u.length + i).toNat = u.length + i.toNat by omega,
    List.drop_length_add_append]

/-- A substring that ends in the first word. -/
theorem substr_within (within : i + k ≤ u.length) : (u ++ v).substr i k = u.substr i k := by
  rcases lt_or_ge i 0 with isNegative | isNonneg
  · rw [substr_of_neg isNegative, substr_of_neg isNegative]
  · rw [substr_of_nonneg isNonneg, substr_of_nonneg isNonneg]
    rcases le_or_gt k 0 with isNonpos | isPositive
    · rw [Int.toNat_of_nonpos isNonpos, List.take_zero, List.take_zero]
    · rw [List.drop_append_of_le_length (by omega), List.take_append_of_le_length (by rw [List.length_drop]; omega)]

end Word

section Soundness

variable {aent s start length} {A : Assignment} {ch1 : List StringTerm} {stripped : StripResult}

theorem eval_substr (s : StringTerm) (start length : IntTerm)
    : (StringTerm.substr s start length).eval A = (s.eval A).substr (start.eval A) (length.eval A) := by
  rw [StringTerm.eval]

theorem eval_sub_length_mkConcat (a : IntTerm) (terms : List StringTerm)
    : (IntTerm.sub a (.length (mkConcat terms))).eval A = a.eval A - (wordOf A terms).length := by
  rw [IntTerm.eval, IntTerm.eval, eval_mkConcat]

theorem eval_includeResult (isStart : start = .const 0) (strips : Strips A ch1 1 length stripped)
    : (includeResult start length stripped).ret.eval A = (wordOf A ch1).substr (start.eval A) (length.eval A) := by
  have lengthEq := strips.length_eq
  rw [isStart, IntTerm.eval, strips.front rfl,
    show length.eval A = (wordOf A stripped.nr).length + stripped.curr.eval A by omega,
    Word.substr_include strips.nonneg, includeResult]
  simp only
  split
  · rw [eval_mkConcat, wordOf_append, wordOf_singleton, eval_substr, eval_mkConcat, eval_sub_length_mkConcat, IntTerm.eval,
      lengthEq, sub_sub_cancel]
  · rename_i isWhole
    rw [eval_mkConcat]
    by_cases isZero : stripped.curr = .const 0
    · rw [isZero, IntTerm.eval, Word.substr_of_nonneg (le_refl 0), Int.toNat_zero, List.take_zero, List.append_nil]
    · have isNil : stripped.n1 = [] := by
        by_contra notNil
        exact isWhole ⟨isZero, notNil⟩
      rw [isNil, wordOf_nil, Word.substr_of_nonneg (le_refl 0), List.drop_nil, List.take_nil, List.append_nil]

theorem eval_startResult (strips : Strips A ch1 1 start stripped)
    : (startResult start length stripped).ret.eval A = (wordOf A ch1).substr (start.eval A) (length.eval A) := by
  have lengthEq := strips.length_eq
  rw [strips.front rfl, show start.eval A = (wordOf A stripped.nr).length + stripped.curr.eval A by omega,
    Word.substr_skip strips.nonneg, startResult, eval_substr, eval_mkConcat, eval_sub_length_mkConcat, lengthEq,
    sub_sub_cancel]

theorem eval_endResult {curr : IntTerm} (isCurr : curr.eval A = (wordOf A ch1).length - (start.eval A + length.eval A))
    (strips : Strips A ch1 (-1) curr stripped)
    : (endResult start length stripped).ret.eval A = (wordOf A ch1).substr (start.eval A) (length.eval A) := by
  have lengthEq := strips.length_eq
  have isNonneg := strips.nonneg
  have isSplit := strips.back (by decide)
  have lengths := congrArg List.length isSplit
  rw [List.length_append] at lengths
  rw [isSplit, Word.substr_within (by omega), endResult, eval_substr, eval_mkConcat]

/-- An attempt that fails leaves the components as they are. -/
theorem n1_of_ret_eq_false {dir : Int} {curr : IntTerm} (noRet : (stripSymbolicLength aent ch1 dir curr false).ret = false)
    : (stripSymbolicLength aent ch1 dir curr false).n1 = ch1 :=
  ((unchanged_iff noRet).mpr fun both => Bool.false_ne_true both.1).1

/-- An attempt ends with a term of the right value where it succeeds; otherwise, and where its condition fails, it goes
on with the same components.
-/
theorem attempt_sound {c : Prop} [Decidable c] {dir : Int} {curr : IntTerm} {result : StripResult → SubstrRewrite}
    {value : Word}
    (succeeded : c → (stripSymbolicLength aent ch1 dir curr false).ret = true
      → (result (stripSymbolicLength aent ch1 dir curr false)).ret.eval A = value)
    : let made := if c then some (stripSymbolicLength aent ch1 dir curr false) else none
      (∃ found, attempt made result ch1 = .inl found ∧ found.ret.eval A = value) ∨ attempt made result ch1 = .inr ch1 := by
  by_cases holds : c
  · simp only [if_pos holds, attempt]
    cases isRet : (stripSymbolicLength aent ch1 dir curr false).ret with
    | true => exact Or.inl ⟨_, rfl, succeeded holds isRet⟩
    | false => exact Or.inr (by rw [if_neg Bool.false_ne_true, n1_of_ret_eq_false isRet])
  · exact Or.inr (by rw [if_neg holds, attempt])

theorem include_sound (aent : ArithEntail) (start length : IntTerm) (ch1 : List StringTerm) (A : Assignment)
    : (∃ found, attempt (includePrefix aent start length ch1) (includeResult start length) ch1 = .inl found
          ∧ found.ret.eval A = (wordOf A ch1).substr (start.eval A) (length.eval A))
        ∨ attempt (includePrefix aent start length ch1) (includeResult start length) ch1 = .inr ch1 :=
  attempt_sound fun isStart isRet => eval_includeResult isStart (strips_of_ret A isRet)

theorem start_sound (aent : ArithEntail) (start length : IntTerm) (ch1 : List StringTerm) (A : Assignment)
    : (∃ found, attempt (stripStart aent start ch1) (startResult start length) ch1 = .inl found
          ∧ found.ret.eval A = (wordOf A ch1).substr (start.eval A) (length.eval A))
        ∨ attempt (stripStart aent start ch1) (startResult start length) ch1 = .inr ch1 :=
  attempt_sound fun _ isRet => eval_startResult (strips_of_ret A isRet)

theorem end_sound (aent : ArithEntail) (start length : IntTerm) (A : Assignment) (isWord : s.eval A = wordOf A ch1)
    : (∃ found, attempt (stripEnd aent s start length ch1) (endResult start length) ch1 = .inl found
          ∧ found.ret.eval A = (wordOf A ch1).substr (start.eval A) (length.eval A))
        ∨ attempt (stripEnd aent s start length ch1) (endResult start length) ch1 = .inr ch1 := by
  refine attempt_sound fun _ isRet => eval_endResult ?_ (strips_of_ret A isRet)
  rw [aent.eval_rewriteArith]
  simp only [IntTerm.eval, IntTerms.sum, add_zero, isWord]

end Soundness

/-- The term that is returned is equal to the substring, whatever its start and length are. -/
theorem rewriteViaMacroSubstrStripSymLength_sound (aent : ArithEntail) (s : StringTerm) (start length : IntTerm)
    (result : SubstrRewrite) (found : rewriteViaMacroSubstrStripSymLength aent s start length = some result)
    (A : Assignment)
    : result.ret.eval A = (StringTerm.substr s start length).eval A := by
  rw [eval_substr, ← wordOf_getConcat s]
  rw [rewriteViaMacroSubstrStripSymLength] at found
  rcases include_sound aent start length (getConcat s) A with
    ⟨included, isIncluded, isValue⟩ | goesOn
  · simp only [isIncluded] at found
    cases found
    exact isValue
  · simp only [goesOn] at found
    rcases start_sound aent start length (getConcat s) A with
      ⟨stripped, isStripped, isValue⟩ | goesOn
    · simp only [isStripped] at found
      cases found
      exact isValue
    · simp only [goesOn] at found
      rcases end_sound aent start length A (wordOf_getConcat s).symm with
        ⟨stripped, isStripped, isValue⟩ | goesOn
      · simp only [isStripped] at found
        cases found
        exact isValue
      · simp only [goesOn] at found
        cases found

/-- From the third character of `"abc" ++ x` on. -/
theorem rewriteViaMacroSubstrStripSymLength_sound_start
    : let A : Assignment := ⟨fun _ => [100, 101], fun _ => 7⟩
      (StringTerm.substr (.var 0) (.sub (.const 3) (.length (.const [97, 98, 99]))) (.var 0)).eval A
        = (StringTerm.substr (.concat (.ofList [.const [97, 98, 99], .var 0])) (.const 3) (.var 0)).eval A :=
  rewriteViaMacroSubstrStripSymLength_sound default (.concat (.ofList [.const [97, 98, 99], .var 0])) (.const 3) (.var 0)
    ⟨.substr (.var 0) (.sub (.const 3) (.length (.const [97, 98, 99]))) (.var 0), .ssStripStartPt, [.var 0],
      [.const [97, 98, 99]]⟩ (by decide) ⟨fun _ => [100, 101], fun _ => 7⟩

end Ava6.Strings

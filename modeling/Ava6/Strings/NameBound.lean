import Ava6.Strings.RegExp

/-! Names of variables in terms and regular expressions. Variables that are made later have names that are not below a
bound of the names so far, and their values make no difference.
-/

namespace Ava6.Strings

section Below

variable (next : Nat)

mutual
/-- Every variable has a name below some name. -/
def StringTerm.Below : StringTerm → Prop
  | .const _ => True
  | .var name => name < next
  | .concat children => children.Below
  | .unit code => code.Below
  | .substr s start length => s.Below ∧ start.Below ∧ length.Below
  | .replace s t replacement => s.Below ∧ t.Below ∧ replacement.Below
  | .fromInt n => n.Below

def StringTerms.Below : StringTerms → Prop
  | .nil => True
  | .cons head tail => head.Below ∧ tail.Below

def IntTerm.Below : IntTerm → Prop
  | .const _ => True
  | .var name => name < next
  | .add children | .mult children | .nonlinearMult children => children.Below
  | .sub a b => a.Below ∧ b.Below
  | .length s => s.Below
  | .indexof s t start => s.Below ∧ t.Below ∧ start.Below
  | .toInt s => s.Below

def IntTerms.Below : IntTerms → Prop
  | .nil => True
  | .cons head tail => head.Below ∧ tail.Below
end

mutual
def RegExp.Below : RegExp → Prop
  | .toRegExp s => s.Below next
  | .concat children | .union children | .inter children => children.Below
  | .diff left right => left.Below ∧ right.Below
  | .star body | .complement body => body.Below
  | .range lower upper => lower.Below next ∧ upper.Below next
  | .var _ | .none | .all | .allchar => True

def RegExps.Below : RegExps → Prop
  | .nil => True
  | .cons head tail => head.Below ∧ tail.Below
end

end Below

theorem RegExps.below_iff {next : Nat} {children : RegExps} : children.Below next ↔ ∀ r ∈ children.toList, r.Below next := by
  match children with
  | .nil => exact iff_of_true trivial (by simp [toList])
  | .cons head tail =>
      rw [toList, List.forall_mem_cons, ← below_iff, Below]

/-- The same values for the names below some name. -/
structure Agree (next : Nat) (A B : Assignment) : Prop where
  string : ∀ name < next, A.string name = B.string name
  int : ∀ name < next, A.int name = B.int name

section Agree

variable {next : Nat} {A B : Assignment}

mutual
theorem eval_string_agree (agree : Agree next A B) {s : StringTerm} (below : s.Below next) : s.eval A = s.eval B := by
  match s with
  | .const w => rfl
  | .var name => exact agree.string name below
  | .concat children => exact eval_strings_agree agree below
  | .unit code =>
      rw [StringTerm.eval, StringTerm.eval, eval_int_agree agree below]
  | .substr s start length =>
      rw [StringTerm.eval, StringTerm.eval, eval_string_agree agree below.1, eval_int_agree agree below.2.1,
        eval_int_agree agree below.2.2]
  | .replace s t replacement =>
      rw [StringTerm.eval, StringTerm.eval, eval_string_agree agree below.1, eval_string_agree agree below.2.1,
        eval_string_agree agree below.2.2]
  | .fromInt n =>
      rw [StringTerm.eval, StringTerm.eval, eval_int_agree agree below]

theorem eval_strings_agree (agree : Agree next A B) {children : StringTerms} (below : children.Below next)
    : children.eval A = children.eval B := by
  match children with
  | .nil => rfl
  | .cons head tail =>
      rw [StringTerms.eval, StringTerms.eval, eval_string_agree agree below.1, eval_strings_agree agree below.2]

theorem eval_int_agree (agree : Agree next A B) {n : IntTerm} (below : n.Below next) : n.eval A = n.eval B := by
  match n with
  | .const n => rfl
  | .var name => exact agree.int name below
  | .add children =>
      rw [IntTerm.eval, IntTerm.eval, sum_agree agree below]
  | .mult children | .nonlinearMult children =>
      rw [IntTerm.eval, IntTerm.eval, product_agree agree below]
  | .sub a b =>
      rw [IntTerm.eval, IntTerm.eval, eval_int_agree agree below.1, eval_int_agree agree below.2]
  | .length s =>
      rw [IntTerm.eval, IntTerm.eval, eval_string_agree agree below]
  | .indexof s t start =>
      rw [IntTerm.eval, IntTerm.eval, eval_string_agree agree below.1, eval_string_agree agree below.2.1,
        eval_int_agree agree below.2.2]
  | .toInt s =>
      rw [IntTerm.eval, IntTerm.eval, eval_string_agree agree below]

theorem sum_agree (agree : Agree next A B) {children : IntTerms} (below : children.Below next)
    : children.sum A = children.sum B := by
  match children with
  | .nil => rfl
  | .cons head tail => rw [IntTerms.sum, IntTerms.sum, eval_int_agree agree below.1, sum_agree agree below.2]

theorem product_agree (agree : Agree next A B) {children : IntTerms} (below : children.Below next)
    : children.product A = children.product B := by
  match children with
  | .nil => rfl
  | .cons head tail => rw [IntTerms.product, IntTerms.product, eval_int_agree agree below.1, product_agree agree below.2]
end

end Agree

section Language

variable {next : Nat} {I J : Interpretation}

attribute [local simp] RegExp.language

mutual
theorem language_agree (agree : Agree next I.toAssignment J.toAssignment) (same : I.regexp = J.regexp) {r : RegExp}
    (below : r.Below next)
    : r.language I = r.language J := by
  match r with
  | .var name => rw [RegExp.language, RegExp.language, same]
  | .toRegExp s => rw [RegExp.language, RegExp.language, eval_string_agree agree below]
  | .concat children =>
      rw [RegExp.language, RegExp.language, concatLanguage_agree agree same below]
  | .union children =>
      rw [RegExp.language, RegExp.language, unionLanguage_agree agree same below]
  | .inter children =>
      rw [RegExp.language, RegExp.language, interLanguage_agree agree same below]
  | .diff left right =>
      rw [RegExp.language, RegExp.language, language_agree agree same below.1, language_agree agree same below.2]
  | .star body => simp only [RegExp.language, language_agree agree same (r := body) below]
  | .complement body =>
      simp only [RegExp.language, language_agree agree same (r := body) below]
      rfl
  | .range lower upper =>
      rw [RegExp.language, RegExp.language, eval_string_agree agree below.1, eval_string_agree agree below.2]
  | .none | .all | .allchar => rw [RegExp.language, RegExp.language]

theorem concatLanguage_agree (agree : Agree next I.toAssignment J.toAssignment) (same : I.regexp = J.regexp)
    {children : RegExps} (below : children.Below next)
    : children.concatLanguage I = children.concatLanguage J := by
  match children with
  | .nil => rfl
  | .cons head tail =>
      rw [RegExps.concatLanguage, RegExps.concatLanguage, language_agree agree same below.1,
        concatLanguage_agree agree same below.2]

theorem unionLanguage_agree (agree : Agree next I.toAssignment J.toAssignment) (same : I.regexp = J.regexp)
    {children : RegExps} (below : children.Below next)
    : children.unionLanguage I = children.unionLanguage J := by
  match children with
  | .nil => rfl
  | .cons head tail =>
      rw [RegExps.unionLanguage, RegExps.unionLanguage, language_agree agree same below.1,
        unionLanguage_agree agree same below.2]

theorem interLanguage_agree (agree : Agree next I.toAssignment J.toAssignment) (same : I.regexp = J.regexp)
    {children : RegExps} (below : children.Below next)
    : children.interLanguage I = children.interLanguage J := by
  match children with
  | .nil => rfl
  | .cons head tail =>
      rw [RegExps.interLanguage, RegExps.interLanguage, language_agree agree same below.1,
        interLanguage_agree agree same below.2]
end

theorem languageOf_agree (agree : Agree next I.toAssignment J.toAssignment) (same : I.regexp = J.regexp)
    {regexps : List RegExp} (below : ∀ r ∈ regexps, r.Below next)
    : languageOf I regexps = languageOf J regexps :=
  congrArg List.prod (List.map_congr_left fun r isMem => language_agree agree same (below r isMem))

end Language

end Ava6.Strings

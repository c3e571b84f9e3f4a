import Mathlib.Computability.Language
import Ava6.Strings.Term

/-! Regular expressions over terms of sort string, and the languages that they denote under an interpretation.
Operators that rewriting eliminates have no constructor, except for the two that other modules build or test.
-/

namespace Ava6.Strings

open Computability

mutual
inductive RegExp
  | var (name : Nat)
  | toRegExp (s : StringTerm)
  | concat (children : RegExps)
  | union (children : RegExps)
  | inter (children : RegExps)
  | diff (left right : RegExp)
  | star (body : RegExp)
  | complement (body : RegExp)
  | range (lower upper : StringTerm)
  | none
  | all
  | allchar
  deriving DecidableEq, Repr

inductive RegExps
  | nil
  | cons (head : RegExp) (tail : RegExps)
  deriving DecidableEq, Repr
end

namespace RegExps

def toList : RegExps → List RegExp
  | .nil => []
  | .cons head tail => head :: tail.toList

def ofList : List RegExp → RegExps
  | [] => .nil
  | head :: tail => .cons head (ofList tail)

@[simp]
theorem toList_ofList (regexps : List RegExp) : (ofList regexps).toList = regexps := by
  induction regexps with
  | nil => rfl
  | cons head tail ih => rw [ofList, toList, ih]

end RegExps

/-- Both bounds of a range are constants of one character. -/
def isCharacterRange : StringTerm → StringTerm → Bool
  | .const [_], .const [_] => true
  | _, _ => false

mutual
/-- Operators with any number of children have at least two. -/
def RegExp.wellFormed : RegExp → Bool
  | .concat children | .union children | .inter children =>
      decide (2 ≤ children.toList.length) && children.wellFormed
  | .diff left right => left.wellFormed && right.wellFormed
  | .star body | .complement body => body.wellFormed
  | _ => true

def RegExps.wellFormed : RegExps → Bool
  | .nil => true
  | .cons head tail => head.wellFormed && tail.wellFormed
end

structure Interpretation extends Assignment where
  regexp : Nat → Language Nat

variable (I : Interpretation)

/-- The characters of a range; bounds that are not one character give no characters. -/
def rangeLanguage : Word → Word → Language Nat
  | [a], [b] => {w | ∃ c, w = [c] ∧ a ≤ c ∧ c ≤ b}
  | _, _ => 0

mutual
def RegExp.language : RegExp → Language Nat
  | .var name => I.regexp name
  | .toRegExp s => {s.eval I.toAssignment}
  | .concat children => children.concatLanguage
  | .union children => children.unionLanguage
  | .inter children => children.interLanguage
  | .diff left right => {w | w ∈ left.language ∧ w ∉ right.language}
  | .star body => body.language∗
  | .complement body => {w | w ∉ body.language}
  | .range lower upper => rangeLanguage (lower.eval I.toAssignment) (upper.eval I.toAssignment)
  | .none => 0
  | .all => {_w | True}
  | .allchar => {w | w.length = 1}

def RegExps.concatLanguage : RegExps → Language Nat
  | .nil => 1
  | .cons head tail => head.language * tail.concatLanguage

def RegExps.unionLanguage : RegExps → Language Nat
  | .nil => 0
  | .cons head tail => head.language + tail.unionLanguage

def RegExps.interLanguage : RegExps → Language Nat
  | .nil => {_w | True}
  | .cons head tail => {w | w ∈ head.language ∧ w ∈ tail.interLanguage}
end

attribute [local simp] RegExp.language

variable {I}

/-- A concatenation of regular expressions. -/
def languageOf (I : Interpretation) (regexps : List RegExp) : Language Nat := (regexps.map (RegExp.language I)).prod

theorem RegExps.concatLanguage_eq (children : RegExps)
    : children.concatLanguage I = languageOf I children.toList := by
  match children with
  | .nil => rfl
  | .cons head tail => rw [concatLanguage, languageOf, toList, List.map_cons, List.prod_cons, concatLanguage_eq tail, languageOf]

theorem RegExps.mem_unionLanguage {children : RegExps} {w : Word}
    : w ∈ children.unionLanguage I ↔ ∃ r ∈ children.toList, w ∈ r.language I := by
  match children with
  | .nil => simp [unionLanguage, toList, Language.notMem_zero]
  | .cons head tail =>
      rw [unionLanguage, Language.mem_add, mem_unionLanguage, toList, List.exists_mem_cons_iff]

theorem RegExps.mem_interLanguage {children : RegExps} {w : Word}
    : w ∈ children.interLanguage I ↔ ∀ r ∈ children.toList, w ∈ r.language I := by
  match children with
  | .nil => exact iff_of_true trivial (by simp [toList])
  | .cons head tail =>
      rw [toList, List.forall_mem_cons, ← mem_interLanguage, interLanguage]
      rfl

section Membership

variable {w : Word} {children : RegExps} {r : RegExp}

@[simp]
theorem mem_toRegExp {s : StringTerm} : w ∈ (RegExp.toRegExp s).language I ↔ w = s.eval I.toAssignment := by
  rw [RegExp.language]
  rfl

theorem mem_concat : w ∈ (RegExp.concat children).language I ↔ w ∈ languageOf I children.toList := by
  rw [RegExp.language, RegExps.concatLanguage_eq]

theorem mem_union : w ∈ (RegExp.union children).language I ↔ ∃ r ∈ children.toList, w ∈ r.language I := by
  rw [RegExp.language, RegExps.mem_unionLanguage]

theorem mem_inter : w ∈ (RegExp.inter children).language I ↔ ∀ r ∈ children.toList, w ∈ r.language I := by
  rw [RegExp.language, RegExps.mem_interLanguage]

theorem mem_diff {left right : RegExp}
    : w ∈ (RegExp.diff left right).language I ↔ w ∈ left.language I ∧ w ∉ right.language I := by
  rw [RegExp.language]
  rfl

theorem mem_complement : w ∈ (RegExp.complement r).language I ↔ w ∉ r.language I := by
  rw [RegExp.language]
  rfl

@[simp]
theorem notMem_none : w ∉ RegExp.none.language I := by
  rw [RegExp.language]
  exact Language.notMem_zero w

@[simp]
theorem mem_allchar : w ∈ RegExp.allchar.language I ↔ w.length = 1 := by
  rw [RegExp.language]
  rfl

theorem mem_characterRange {a b : Nat}
    : w ∈ (RegExp.range (.const [a]) (.const [b])).language I ↔ ∃ c, w = [c] ∧ a ≤ c ∧ c ≤ b := by
  rw [RegExp.language, eval_const, eval_const]
  rfl

theorem length_of_mem_range {lower upper : StringTerm} (member : w ∈ (RegExp.range lower upper).language I)
    : w.length = 1 := by
  rw [RegExp.language] at member
  match isLower : lower.eval I.toAssignment, isUpper : upper.eval I.toAssignment with
  | [a], [b] =>
      rw [isLower, isUpper] at member
      obtain ⟨c, rfl, -⟩ := member
      rfl
  | [], _ | _ :: _ :: _, _ | [_], [] | [_], _ :: _ :: _ =>
      rw [isLower, isUpper] at member
      exact absurd member (Language.notMem_zero w)

@[simp]
theorem languageOf_nil : languageOf I [] = 1 := rfl

theorem languageOf_cons (regexps : List RegExp) : languageOf I (r :: regexps) = r.language I * languageOf I regexps := by
  rw [languageOf, List.map_cons, List.prod_cons]
  rfl

theorem languageOf_append (regexps regexps' : List RegExp)
    : languageOf I (regexps ++ regexps') = languageOf I regexps * languageOf I regexps' := by
  rw [languageOf, List.map_append, List.prod_append]
  rfl

theorem languageOf_singleton : languageOf I [r] = r.language I := by
  rw [languageOf_cons, languageOf_nil, mul_one]

theorem mem_languageOf_cons {regexps : List RegExp}
    : w ∈ languageOf I (r :: regexps) ↔ ∃ u ∈ r.language I, ∃ v ∈ languageOf I regexps, u ++ v = w := by
  rw [languageOf_cons, Language.mem_mul]

/-- A word of a star is empty, or starts with a word of the body that is not. -/
theorem mem_kstar_iff {L : Language Nat}
    : w ∈ L∗ ↔ w = [] ∨ ∃ u v, u ≠ [] ∧ u ∈ L ∧ v ∈ L∗ ∧ u ++ v = w := by
  constructor
  · rw [Language.mem_kstar_iff_exists_nonempty]
    rintro ⟨pieces, rfl, each⟩
    match pieces with
    | [] => exact Or.inl rfl
    | u :: rest =>
        refine Or.inr ⟨u, rest.flatten, (each u (by simp)).2, (each u (by simp)).1, ?_, rfl⟩
        exact Language.join_mem_kstar (fun v inRest => (each v (by simp [inRest])).1)
  · rintro (rfl | ⟨u, v, -, inL, inStar, rfl⟩)
    · exact Language.nil_mem_kstar L
    · rw [← Language.one_add_self_mul_kstar_eq_kstar, Language.mem_add]
      exact Or.inr (Language.append_mem_mul inL inStar)

theorem mem_star : w ∈ (RegExp.star r).language I ↔ w ∈ (r.language I)∗ := by
  rw [RegExp.language]

end Membership

end Ava6.Strings

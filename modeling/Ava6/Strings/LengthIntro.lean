import Ava6.Strings.PolyNorm

/-! Lengths of concatenations and constants as sums, in every subterm. -/

namespace Ava6.Strings

mutual
/-- The components of a concatenation at any depth, without the empty string. -/
def flatten : StringTerm → List StringTerm
  | .concat children => flattenAll children
  | .const [] => []
  | s => [s]

def flattenAll : StringTerms → List StringTerm
  | .nil => []
  | .cons s rest => flatten s ++ flattenAll rest
end

def getACINormalForm (s : StringTerm) : StringTerm := mkConcat (flatten s)

variable {A : Assignment}

mutual
theorem wordOf_flatten (s : StringTerm) : wordOf A (flatten s) = s.eval A := by
  unfold flatten
  match s with
  | .concat children => exact (wordOf_flattenAll children).trans (by rw [StringTerm.eval])
  | .const [] => exact (eval_const []).symm
  | .const (_ :: _) | .var _ | .unit _ | .substr _ _ _ | .replace _ _ _ | .fromInt _ => exact wordOf_singleton _

theorem wordOf_flattenAll (children : StringTerms) : wordOf A (flattenAll children) = children.eval A := by
  match children with
  | .nil => rfl
  | .cons s rest => rw [flattenAll, wordOf_append, wordOf_flatten s, wordOf_flattenAll rest, StringTerms.eval]
end

theorem eval_getACINormalForm (s : StringTerm) : (getACINormalForm s).eval A = s.eval A := by
  rw [getACINormalForm, eval_mkConcat, wordOf_flatten]

def lengthOf : StringTerm → IntTerm
  | .const w => .const w.length
  | s => .length s

/-- The length of a string whose subterms are rewritten. -/
def introLength (s : StringTerm) : IntTerm :=
  match s with
  | .concat _ | .const _ => PolyNorm.sumNode ((getConcat (getACINormalForm s)).map lengthOf)
  | s => .length s

mutual
def rewriteLengthIntro : IntTerm → IntTerm
  | .const n => .const n
  | .var name => .var name
  | .add children => .add (rewriteLengthIntros children)
  | .mult children => .mult (rewriteLengthIntros children)
  | .nonlinearMult children => .nonlinearMult (rewriteLengthIntros children)
  | .sub a b => .sub (rewriteLengthIntro a) (rewriteLengthIntro b)
  | .length s => introLength (rewriteStringIntro s)
  | .indexof s t start => .indexof (rewriteStringIntro s) (rewriteStringIntro t) (rewriteLengthIntro start)
  | .toInt s => .toInt (rewriteStringIntro s)

def rewriteLengthIntros : IntTerms → IntTerms
  | .nil => .nil
  | .cons a rest => .cons (rewriteLengthIntro a) (rewriteLengthIntros rest)

def rewriteStringIntro : StringTerm → StringTerm
  | .const w => .const w
  | .var name => .var name
  | .concat children => .concat (rewriteStringIntros children)
  | .unit code => .unit (rewriteLengthIntro code)
  | .substr s start length => .substr (rewriteStringIntro s) (rewriteLengthIntro start) (rewriteLengthIntro length)
  | .replace s t replacement =>
      .replace (rewriteStringIntro s) (rewriteStringIntro t) (rewriteStringIntro replacement)
  | .fromInt n => .fromInt (rewriteLengthIntro n)

def rewriteStringIntros : StringTerms → StringTerms
  | .nil => .nil
  | .cons s rest => .cons (rewriteStringIntro s) (rewriteStringIntros rest)
end

theorem eval_lengthOf (s : StringTerm) : (lengthOf s).eval A = (s.eval A).length := by
  unfold lengthOf
  split
  · rw [IntTerm.eval, eval_const]
  · rw [IntTerm.eval]

theorem sum_lengthOf (terms : List StringTerm)
    : ((terms.map lengthOf).map (IntTerm.eval A)).sum = (wordOf A terms).length := by
  induction terms with
  | nil => rfl
  | cons s rest ih =>
      rw [List.map_cons, List.map_cons, List.sum_cons, ih, eval_lengthOf, wordOf_cons, List.length_append, Nat.cast_add]

theorem eval_introLength (s : StringTerm) : (introLength s).eval A = (s.eval A).length := by
  have isSum := sum_lengthOf (A := A) (getConcat (getACINormalForm s))
  rw [wordOf_getConcat, eval_getACINormalForm] at isSum
  unfold introLength
  split
  · rw [PolyNorm.eval_sumNode, isSum]
  · rw [PolyNorm.eval_sumNode, isSum]
  · rw [IntTerm.eval]

mutual
/-- Rewriting keeps the value. -/
theorem eval_rewriteLengthIntro (a : IntTerm) : (rewriteLengthIntro a).eval A = a.eval A := by
  match a with
  | .const _ | .var _ => rfl
  | .add children => rw [rewriteLengthIntro, IntTerm.eval, IntTerm.eval, (eval_rewriteLengthIntros children).1]
  | .mult children => rw [rewriteLengthIntro, IntTerm.eval, IntTerm.eval, (eval_rewriteLengthIntros children).2]
  | .nonlinearMult children =>
      rw [rewriteLengthIntro, IntTerm.eval, IntTerm.eval, (eval_rewriteLengthIntros children).2]
  | .sub a b =>
      rw [rewriteLengthIntro, IntTerm.eval, IntTerm.eval, eval_rewriteLengthIntro a, eval_rewriteLengthIntro b]
  | .length s => rw [rewriteLengthIntro, eval_introLength, eval_rewriteStringIntro s, IntTerm.eval]
  | .indexof s t start =>
      rw [rewriteLengthIntro, IntTerm.eval, IntTerm.eval, eval_rewriteStringIntro s, eval_rewriteStringIntro t,
        eval_rewriteLengthIntro start]
  | .toInt s => rw [rewriteLengthIntro, IntTerm.eval, IntTerm.eval, eval_rewriteStringIntro s]

theorem eval_rewriteLengthIntros (children : IntTerms)
    : (rewriteLengthIntros children).sum A = children.sum A
      ∧ (rewriteLengthIntros children).product A = children.product A := by
  match children with
  | .nil => exact ⟨rfl, rfl⟩
  | .cons a rest =>
      have ⟨sameSum, sameProduct⟩ := eval_rewriteLengthIntros rest
      constructor
      · rw [rewriteLengthIntros, IntTerms.sum, IntTerms.sum, eval_rewriteLengthIntro a, sameSum]
      · rw [rewriteLengthIntros, IntTerms.product, IntTerms.product, eval_rewriteLengthIntro a, sameProduct]

theorem eval_rewriteStringIntro (s : StringTerm) : (rewriteStringIntro s).eval A = s.eval A := by
  match s with
  | .const _ | .var _ => rfl
  | .concat children => rw [rewriteStringIntro, StringTerm.eval, StringTerm.eval, eval_rewriteStringIntros children]
  | .unit code => rw [rewriteStringIntro, StringTerm.eval, StringTerm.eval, eval_rewriteLengthIntro code]
  | .substr s start length =>
      rw [rewriteStringIntro, StringTerm.eval, StringTerm.eval, eval_rewriteStringIntro s, eval_rewriteLengthIntro start,
        eval_rewriteLengthIntro length]
  | .replace s t replacement =>
      rw [rewriteStringIntro, StringTerm.eval, StringTerm.eval, eval_rewriteStringIntro s, eval_rewriteStringIntro t,
        eval_rewriteStringIntro replacement]
  | .fromInt n => rw [rewriteStringIntro, StringTerm.eval, StringTerm.eval, eval_rewriteLengthIntro n]

theorem eval_rewriteStringIntros (children : StringTerms)
    : (rewriteStringIntros children).eval A = children.eval A := by
  match children with
  | .nil => rfl
  | .cons s rest =>
      rw [rewriteStringIntros, StringTerms.eval, StringTerms.eval, eval_rewriteStringIntro s, eval_rewriteStringIntros rest]
end

end Ava6.Strings

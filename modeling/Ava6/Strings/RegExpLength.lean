import Ava6.Strings.RegExp

/-! What is computed about the lengths of the words of a regular expression, and whether the empty word is one of them.
The results for bounds are also kept as attributes of the nodes.
-/

namespace Ava6.Strings

mutual
def getFixedLengthForRegexp : RegExp → Option Nat
  | .toRegExp (.const w) => some w.length
  | .allchar | .range _ _ => some 1
  | .union children | .inter children => sameFixedLength children none
  | .concat children => sumFixedLengths children 0
  | _ => none

/-- All children must have one length. -/
def sameFixedLength : RegExps → Option Nat → Option Nat
  | .nil, ret => ret
  | .cons nc rest, ret =>
      match getFixedLengthForRegexp nc with
      | none => none
      | some flc =>
          match ret with
          | some length => if length ≠ flc then none else sameFixedLength rest ret
          | none => sameFixedLength rest (some flc)

def sumFixedLengths : RegExps → Nat → Option Nat
  | .nil, sum => some sum
  | .cons nc rest, sum =>
      match getFixedLengthForRegexp nc with
      | none => none
      | some flc => sumFixedLengths rest (sum + flc)
end

/-- A lower bound that has not been found is zero. -/
def orZero (isLower : Bool) : Option Nat → Option Nat
  | some bound => some bound
  | none => if isLower then some 0 else none

mutual
def getConstantBoundLength (isLower : Bool) : StringTerm → Option Nat
  | .const w => some w.length
  | .unit _ => some 1
  | .concat children =>
      match sumBoundLengths isLower children 0 with
      | some sum => orZero isLower (if !isLower || sum ≠ 0 then some sum else none)
      | none => orZero isLower none
  | .var _ | .substr _ _ _ | .replace _ _ _ | .fromInt _ => orZero isLower none

def sumBoundLengths (isLower : Bool) : StringTerms → Nat → Option Nat
  | .nil, sum => some sum
  | .cons sc rest, sum =>
      match getConstantBoundLength isLower sc with
      | none => if isLower then sumBoundLengths isLower rest sum else none
      | some b => sumBoundLengths isLower rest (sum + b)
end

inductive NaryKind
  | union | inter | concat
  deriving DecidableEq

mutual
def getConstantBoundLengthForRegexp (isLower : Bool) : RegExp → Option Nat
  | .toRegExp s => orZero isLower (getConstantBoundLength isLower s)
  | .allchar | .range _ _ => some 1
  | .union children => orZero isLower (boundChildren isLower .union children true 0)
  | .inter children => orZero isLower (boundChildren isLower .inter children true 0)
  | .concat children => orZero isLower (boundChildren isLower .concat children true 0)
  | .var _ | .diff _ _ | .star _ | .complement _ | .none | .all => orZero isLower none

def boundChildren (isLower : Bool) (k : NaryKind) : RegExps → Bool → Nat → Option Nat
  | .nil, firstTime, rr => if firstTime then none else some rr
  | .cons nc rest, firstTime, rr =>
      match getConstantBoundLengthForRegexp isLower nc with
      | none =>
          if k = .union ∨ k = .concat ∧ isLower = false then none
          else boundChildren isLower k rest firstTime rr
      | some r =>
          let rr :=
            if k = .concat then rr + r
            else if firstTime then r
            else if decide (k = .union) == isLower then min r rr
            else max r rr
          boundChildren isLower k rest false rr
end

mutual
/-- No result where the answer depends on a child that is not looked into. -/
def isNullable : RegExp → Option Bool
  | .all | .star _ => some true
  | .none | .allchar | .range _ _ => some false
  | .toRegExp (.const w) => some w.isEmpty
  | .complement r => (isNullable r).map (!·)
  | .union children => nullableChildren true children false
  | .inter children | .concat children => nullableChildren false children true
  | _ => none

def nullableChildren (isUnion : Bool) : RegExps → Bool → Option Bool
  | .nil, res => some res
  | .cons rc rest, res =>
      match isNullable rc with
      | none => none
      | some cres => nullableChildren isUnion rest (if cres == isUnion then isUnion else res)
end

-----------------------------------------------------------------------------------------
-- Soundness
-----------------------------------------------------------------------------------------

section Soundness

variable {I : Interpretation}

theorem RegExps.mem_concatLanguage_cons {head : RegExp} {tail : RegExps} {w : Word}
    : w ∈ (RegExps.cons head tail).concatLanguage I
      ↔ ∃ u ∈ head.language I, ∃ v ∈ tail.concatLanguage I, u ++ v = w := by
  rw [RegExps.concatLanguage, Language.mem_mul]

theorem RegExps.mem_concatLanguage_nil {w : Word} : w ∈ RegExps.nil.concatLanguage I ↔ w = [] := by
  rw [RegExps.concatLanguage, Language.mem_one]

/-- A common length of several expressions is that of the first one and of the others, by cases on what was
found before.
-/
theorem sameFixedLength_cons {nc : RegExp} {rest : RegExps} {ret : Option Nat} {n : Nat}
    (fixed : sameFixedLength (.cons nc rest) ret = some n)
    : ∃ flc, getFixedLengthForRegexp nc = some flc ∧ (ret = none ∨ ret = some flc) ∧ sameFixedLength rest (some flc) = some n := by
  rw [sameFixedLength] at fixed
  match isFixed : getFixedLengthForRegexp nc with
  | none =>
      rw [isFixed] at fixed
      cases fixed
  | some flc =>
      rw [isFixed] at fixed
      refine ⟨flc, rfl, ?_⟩
      cases ret with
      | none => exact ⟨Or.inl rfl, fixed⟩
      | some length =>
          by_cases same : length = flc
          · subst same
            exact ⟨Or.inr rfl, by simpa using fixed⟩
          · simp [same] at fixed

mutual
/-- A fixed length is the length of every word that is matched, by induction on the expression with its
children; an intersection has a child, since a length was found.
-/
theorem length_of_fixed {r : RegExp} {n : Nat} {w : Word} (fixed : getFixedLengthForRegexp r = some n)
    (member : w ∈ r.language I)
    : w.length = n := by
  match r with
  | .toRegExp s =>
      match s with
      | .const c =>
          rw [getFixedLengthForRegexp, Option.some.injEq] at fixed
          rw [mem_toRegExp.mp member, eval_const, fixed]
      | .var _ | .concat _ | .unit _ | .substr _ _ _ | .replace _ _ _ | .fromInt _ => cases fixed
  | .allchar =>
      cases fixed
      exact mem_allchar.mp member
  | .range _ _ =>
      cases fixed
      exact length_of_mem_range member
  | .union children =>
      rw [getFixedLengthForRegexp] at fixed
      obtain ⟨r, inChildren, member'⟩ := mem_union.mp member
      exact (lengths_of_same fixed).2 r inChildren w member'
  | .inter children =>
      rw [getFixedLengthForRegexp] at fixed
      obtain ⟨r, inChildren⟩ := ((lengths_of_same fixed).1.resolve_left (by simp)).2
      exact (lengths_of_same fixed).2 r inChildren w (mem_inter.mp member r inChildren)
  | .concat children =>
      rw [getFixedLengthForRegexp] at fixed
      rw [RegExp.language] at member
      rw [length_of_sum fixed member, Nat.zero_add]
  | .var _ | .diff _ _ | .star _ | .complement _ | .none | .all => cases fixed

/-- A common length of children is the length of the words of each, and there is a child unless a length was
known before, by induction on the children.
-/
theorem lengths_of_same {children : RegExps} {ret : Option Nat} {n : Nat} (fixed : sameFixedLength children ret = some n)
    : (ret = some n ∨ ret = none ∧ ∃ r, r ∈ children.toList) ∧ ∀ r ∈ children.toList, ∀ w ∈ r.language I, w.length = n := by
  match children with
  | .nil => exact ⟨Or.inl fixed, fun r inNil => nomatch inNil⟩
  | .cons nc rest =>
      obtain ⟨flc, isFixed, isRet, fixed'⟩ := sameFixedLength_cons fixed
      obtain ⟨isN, others⟩ := lengths_of_same fixed'
      obtain rfl : flc = n := by simpa using isN
      refine ⟨?_, fun r inChildren w member => ?_⟩
      · exact isRet.elim (fun isNone => Or.inr ⟨isNone, nc, by simp [RegExps.toList]⟩) Or.inl
      · rw [RegExps.toList, List.mem_cons] at inChildren
        rcases inChildren with isFirst | inRest
        · rw [isFirst] at member
          exact length_of_fixed isFixed member
        · exact others r inRest w member

/-- A sum of fixed lengths is the length of every word of a concatenation, by splitting off the part of the
first child.
-/
theorem length_of_sum {children : RegExps} {sum n : Nat} {w : Word} (fixed : sumFixedLengths children sum = some n)
    (member : w ∈ children.concatLanguage I)
    : n = sum + w.length := by
  match children with
  | .nil =>
      rw [RegExps.mem_concatLanguage_nil] at member
      cases fixed
      rw [member, List.length_nil, Nat.add_zero]
  | .cons nc rest =>
      rw [sumFixedLengths] at fixed
      obtain ⟨u, inHead, v, inTail, rfl⟩ := RegExps.mem_concatLanguage_cons.mp member
      match isFixed : getFixedLengthForRegexp nc with
      | none =>
          rw [isFixed] at fixed
          cases fixed
      | some flc =>
          rw [isFixed] at fixed
          rw [length_of_sum fixed inTail, List.length_append, length_of_fixed isFixed inHead, Nat.add_assoc]
end

-----------------------------------------------------------------------------------------
-- Soundness of the bounds
-----------------------------------------------------------------------------------------

/-- A number is a bound, from below or from above, of another one. -/
def Bounds (isLower : Bool) (bound n : Nat) : Prop := if isLower then bound ≤ n else n ≤ bound

theorem bounds_refl (isLower : Bool) (n : Nat) : Bounds isLower n n := by
  cases isLower <;> exact le_refl n

theorem Bounds.trans {isLower : Bool} {a b c : Nat} (ab : Bounds isLower a b) (bc : Bounds isLower b c)
    : Bounds isLower a c := by
  cases isLower with
  | false => exact le_trans bc ab
  | true => exact le_trans ab bc

theorem Bounds.add {isLower : Bool} {a b m n : Nat} (am : Bounds isLower a m) (bn : Bounds isLower b n)
    : Bounds isLower (a + b) (m + n) := by
  cases isLower with
  | false => exact Nat.add_le_add am bn
  | true => exact Nat.add_le_add am bn

/-- The bound of a union is the weaker one of two. -/
theorem bounds_weaker (isLower : Bool) (r rr : Nat)
    : Bounds isLower (if decide (NaryKind.union = .union) == isLower then min r rr else max r rr) r
      ∧ Bounds isLower (if decide (NaryKind.union = .union) == isLower then min r rr else max r rr) rr := by
  cases isLower with
  | false => exact ⟨le_max_left r rr, le_max_right r rr⟩
  | true => exact ⟨min_le_left r rr, min_le_right r rr⟩

/-- The bound of an intersection is the stronger one. -/
theorem bounds_stronger {isLower : Bool} {r rr n : Nat} (first : Bounds isLower r n) (second : Bounds isLower rr n)
    : Bounds isLower (if decide (NaryKind.inter = .union) == isLower then min r rr else max r rr) n := by
  cases isLower with
  | false => exact le_min first second
  | true => exact max_le first second

/-- A bound is right, also where zero stands for no bound. -/
theorem bounds_orZero {isLower : Bool} {found : Option Nat} {bound n : Nat} (isBound : orZero isLower found = some bound)
    (ofFound : ∀ b, found = some b → Bounds isLower b n)
    : Bounds isLower bound n := by
  cases found with
  | some b =>
      cases isBound
      exact ofFound bound rfl
  | none =>
      cases isLower with
      | true =>
          cases isBound
          exact Nat.zero_le n
      | false => cases isBound

section Terms

variable {A : Assignment}

mutual
/-- A constant bound is one of the length of the value of a term. Where the length of a component is not
known, zero is a lower bound of it.
-/
theorem bounds_eval {isLower : Bool} {s : StringTerm} {bound : Nat} (isBound : getConstantBoundLength isLower s = some bound)
    : Bounds isLower bound (s.eval A).length := by
  match s with
  | .const w =>
      cases isBound
      rw [eval_const]
      exact bounds_refl isLower _
  | .unit _ =>
      cases isBound
      rw [StringTerm.eval, List.length_singleton]
      exact bounds_refl isLower 1
  | .concat children =>
      rw [getConstantBoundLength] at isBound
      rw [StringTerm.eval]
      match isSum : sumBoundLengths isLower children 0 with
      | none =>
          rw [isSum] at isBound
          exact bounds_orZero isBound (fun b found => nomatch found)
      | some sum =>
          rw [isSum] at isBound
          refine bounds_orZero isBound fun b found => ?_
          have whole := bounds_sum isSum (bounds_refl isLower 0)
          rw [Nat.zero_add] at whole
          split at found
          · cases found
            exact whole
          · cases found
  | .var _ | .substr _ _ _ | .replace _ _ _ | .fromInt _ =>
      exact bounds_orZero (show orZero isLower none = some bound from isBound) (fun b found => nomatch found)

/-- The bounds of components add up, by induction on the components with the bound of what comes before. -/
theorem bounds_sum {isLower : Bool} {children : StringTerms} {sum bound n : Nat} (isBound : sumBoundLengths isLower children sum = some bound)
    (before : Bounds isLower sum n)
    : Bounds isLower bound (n + (children.eval A).length) := by
  match children with
  | .nil =>
      cases isBound
      rw [StringTerms.eval, List.length_nil]
      exact before
  | .cons sc rest =>
      rw [sumBoundLengths] at isBound
      rw [StringTerms.eval, List.length_append, ← Nat.add_assoc]
      match isFound : getConstantBoundLength isLower sc with
      | some b =>
          rw [isFound] at isBound
          exact bounds_sum isBound (before.add (bounds_eval isFound))
      | none =>
          rw [isFound] at isBound
          cases isLower with
          | false => cases isBound
          | true => exact bounds_sum isBound (before.trans (Nat.le_add_right _ _))
end

end Terms

mutual
/-- A bound is a bound of the length of every word that is matched, by induction on the expression; each
kind combines the bounds of its children in its own way.
-/
theorem bounds_length {isLower : Bool} {r : RegExp} {bound : Nat} {w : Word}
    (isBound : getConstantBoundLengthForRegexp isLower r = some bound) (member : w ∈ r.language I)
    : Bounds isLower bound w.length := by
  match r with
  | .toRegExp s =>
      rw [mem_toRegExp.mp member]
      exact bounds_orZero isBound (fun b found => bounds_eval found)
  | .allchar =>
      cases isBound
      rw [mem_allchar.mp member]
      exact bounds_refl isLower 1
  | .range _ _ =>
      cases isBound
      rw [length_of_mem_range member]
      exact bounds_refl isLower 1
  | .union children =>
      rw [getConstantBoundLengthForRegexp] at isBound
      obtain ⟨r, inChildren, member'⟩ := mem_union.mp member
      exact bounds_orZero isBound (fun b found => (bounds_union found).2 r inChildren w member')
  | .inter children =>
      rw [getConstantBoundLengthForRegexp] at isBound
      refine bounds_orZero isBound fun b found => bounds_inter found (fun notFirst => nomatch notFirst) ?_
      exact mem_inter.mp member
  | .concat children =>
      rw [getConstantBoundLengthForRegexp] at isBound
      rw [RegExp.language] at member
      refine bounds_orZero isBound fun b found => ?_
      rw [← Nat.zero_add w.length]
      exact bounds_concat found member (bounds_refl isLower 0)
  | .var _ | .diff _ _ | .star _ | .complement _ | .none | .all =>
      exact bounds_orZero (show orZero isLower none = some bound from isBound) (fun b found => nomatch found)

/-- The bound of a union is one for the words of every child, as it is the weakest of the bounds of the
children. It needs a bound for each.
-/
theorem bounds_union {isLower : Bool} {children : RegExps} {firstTime : Bool} {rr bound : Nat}
    (isBound : boundChildren isLower .union children firstTime rr = some bound)
    : (firstTime = false → Bounds isLower bound rr)
      ∧ ∀ r ∈ children.toList, ∀ w ∈ r.language I, Bounds isLower bound w.length := by
  match children with
  | .nil =>
      refine ⟨?_, fun r inNil => nomatch inNil⟩
      rintro rfl
      cases isBound
      exact bounds_refl isLower rr
  | .cons nc rest =>
      rw [boundChildren] at isBound
      match isFound : getConstantBoundLengthForRegexp isLower nc with
      | none =>
          rw [isFound] at isBound
          cases isBound
      | some r =>
          rw [isFound] at isBound
          obtain ⟨ofCombined, others⟩ := bounds_union isBound
          have both : Bounds isLower bound r ∧ (firstTime = false → Bounds isLower bound rr) := by
            have combined := ofCombined rfl
            cases firstTime with
            | true => exact ⟨combined, fun notFirst => nomatch notFirst⟩
            | false =>
                exact ⟨combined.trans (bounds_weaker isLower r rr).1, fun _ => combined.trans (bounds_weaker isLower r rr).2⟩
          refine ⟨both.2, fun child inChildren w member => ?_⟩
          rw [RegExps.toList, List.mem_cons] at inChildren
          rcases inChildren with isFirst | inRest
          · rw [isFirst] at member
            exact both.1.trans (bounds_length isFound member)
          · exact others child inRest w member

/-- The bound of an intersection is one for the words of all children; a child without a bound is left out. -/
theorem bounds_inter {isLower : Bool} {children : RegExps} {firstTime : Bool} {rr bound : Nat} {w : Word}
    (isBound : boundChildren isLower .inter children firstTime rr = some bound)
    (before : firstTime = false → Bounds isLower rr w.length)
    (member : ∀ r ∈ children.toList, w ∈ r.language I)
    : Bounds isLower bound w.length := by
  match children with
  | .nil =>
      cases firstTime with
      | true => cases isBound
      | false =>
          cases isBound
          exact before rfl
  | .cons nc rest =>
      rw [boundChildren] at isBound
      rw [RegExps.toList, List.forall_mem_cons] at member
      match isFound : getConstantBoundLengthForRegexp isLower nc with
      | none =>
          rw [isFound] at isBound
          exact bounds_inter isBound before member.2
      | some r =>
          rw [isFound] at isBound
          have ofChild := bounds_length isFound member.1
          refine bounds_inter isBound (fun _ => ?_) member.2
          cases firstTime with
          | true => exact ofChild
          | false => exact bounds_stronger ofChild (before rfl)

/-- The bounds of children of a concatenation add up; a child without a bound is left out where the bound is
a lower one.
-/
theorem bounds_concat {isLower : Bool} {children : RegExps} {firstTime : Bool} {rr bound n : Nat} {w : Word}
    (isBound : boundChildren isLower .concat children firstTime rr = some bound)
    (member : w ∈ children.concatLanguage I) (before : Bounds isLower rr n)
    : Bounds isLower bound (n + w.length) := by
  match children with
  | .nil =>
      rw [RegExps.mem_concatLanguage_nil] at member
      cases firstTime with
      | true => cases isBound
      | false =>
          cases isBound
          rw [member]
          exact before
  | .cons nc rest =>
      rw [boundChildren] at isBound
      obtain ⟨u, inHead, v, inTail, rfl⟩ := RegExps.mem_concatLanguage_cons.mp member
      rw [List.length_append, ← Nat.add_assoc]
      match isFound : getConstantBoundLengthForRegexp isLower nc with
      | some r =>
          rw [isFound] at isBound
          exact bounds_concat isBound inTail (before.add (bounds_length isFound inHead))
      | none =>
          rw [isFound] at isBound
          cases isLower with
          | false => cases isBound
          | true => exact bounds_concat isBound inTail (before.trans (Nat.le_add_right _ _))
end

-----------------------------------------------------------------------------------------
-- Soundness of nullability
-----------------------------------------------------------------------------------------

theorem nil_mem_languageOf {regexps : List RegExp} : [] ∈ languageOf I regexps ↔ ∀ r ∈ regexps, [] ∈ r.language I := by
  induction regexps with
  | nil => simp [Language.mem_one]
  | cons r rest ih =>
      rw [mem_languageOf_cons, List.forall_mem_cons, ← ih]
      simp

/-- Children are decided if the first one is and the others are from there on. -/
theorem nullableChildren_cons {isUnion : Bool} {rc : RegExp} {rest : RegExps} {before res : Bool}
    (found : nullableChildren isUnion (.cons rc rest) before = some res)
    : ∃ cres, isNullable rc = some cres
      ∧ nullableChildren isUnion rest (if cres == isUnion then isUnion else before) = some res := by
  rw [nullableChildren] at found
  match isFound : isNullable rc with
  | none =>
      rw [isFound] at found
      cases found
  | some cres =>
      rw [isFound] at found
      exact ⟨cres, rfl, found⟩

mutual
/-- Nullability is decided right, by induction on the expression; nothing is found for a variable or a
difference.
-/
theorem isNullable_iff {r : RegExp} {res : Bool} (found : isNullable r = some res) : res = true ↔ [] ∈ r.language I := by
  match r with
  | .all =>
      cases found
      rw [RegExp.language]
      exact iff_of_true rfl trivial
  | .star body =>
      cases found
      rw [mem_star]
      exact iff_of_true rfl (Language.nil_mem_kstar _)
  | .none =>
      cases found
      exact iff_of_false Bool.false_ne_true notMem_none
  | .allchar =>
      cases found
      exact iff_of_false Bool.false_ne_true (fun member => nomatch mem_allchar.mp member)
  | .range _ _ =>
      cases found
      exact iff_of_false Bool.false_ne_true (fun member => nomatch length_of_mem_range member)
  | .toRegExp s =>
      match s with
      | .const w =>
          cases found
          rw [mem_toRegExp, eval_const, List.isEmpty_iff, eq_comm]
      | .var _ | .concat _ | .unit _ | .substr _ _ _ | .replace _ _ _ | .fromInt _ => cases found
  | .complement body =>
      rw [isNullable, Option.map_eq_some_iff] at found
      obtain ⟨ofBody, foundBody, rfl⟩ := found
      rw [mem_complement, ← isNullable_iff foundBody, Bool.not_eq_true', Bool.not_eq_true]
  | .union children =>
      rw [isNullable] at found
      rw [mem_union, nullableChildren_any found]
      simp
  | .inter children =>
      rw [isNullable] at found
      rw [mem_inter, nullableChildren_all found]
      simp
  | .concat children =>
      rw [isNullable] at found
      rw [mem_concat, nil_mem_languageOf, nullableChildren_all found]
      simp
  | .var _ | .diff _ _ => cases found

/-- A union matches the empty word if a child does. -/
theorem nullableChildren_any {children : RegExps} {before res : Bool}
    (found : nullableChildren true children before = some res)
    : res = true ↔ before = true ∨ ∃ r ∈ children.toList, [] ∈ r.language I := by
  match children with
  | .nil =>
      cases found
      simp [RegExps.toList]
  | .cons rc rest =>
      obtain ⟨cres, foundFirst, foundRest⟩ := nullableChildren_cons found
      rw [nullableChildren_any foundRest, RegExps.toList, List.exists_mem_cons_iff, ← isNullable_iff foundFirst]
      cases cres <;> simp

/-- An intersection or a concatenation matches the empty word if all children do. -/
theorem nullableChildren_all {children : RegExps} {before res : Bool}
    (found : nullableChildren false children before = some res)
    : res = true ↔ before = true ∧ ∀ r ∈ children.toList, [] ∈ r.language I := by
  match children with
  | .nil =>
      cases found
      simp [RegExps.toList]
  | .cons rc rest =>
      obtain ⟨cres, foundFirst, foundRest⟩ := nullableChildren_cons found
      rw [nullableChildren_all foundRest, RegExps.toList, List.forall_mem_cons, ← isNullable_iff foundFirst]
      cases cres <;> simp
end

/-- What the four functions find is right: a fixed length and a bound on either side for all words that are matched, and
whether the empty word is.
-/
theorem length_abstractions_sound (r : RegExp) (I : Interpretation)
    : (∀ w ∈ r.language I, (∀ n, getFixedLengthForRegexp r = some n → w.length = n)
        ∧ (∀ l, getConstantBoundLengthForRegexp true r = some l → l ≤ w.length)
        ∧ ∀ u, getConstantBoundLengthForRegexp false r = some u → w.length ≤ u)
      ∧ ∀ res, isNullable r = some res → (res = true ↔ [] ∈ r.language I) :=
  ⟨fun _ member => ⟨fun _ fixed => length_of_fixed fixed member, fun _ isBound => bounds_length isBound member,
    fun _ isBound => bounds_length isBound member⟩, fun _ found => isNullable_iff found⟩

end Soundness

/-- `"a"` before a character that may be missing. -/
theorem length_abstractions_sound_optional_character
    : let I : Interpretation := ⟨⟨fun _ => [], fun _ => 0⟩, fun _ => 0⟩
      let optional : RegExp := .union (.ofList [.range (.const [98]) (.const [99]), .toRegExp (.const [])])
      let r : RegExp := .concat (.ofList [.toRegExp (.const [97]), optional])
      getFixedLengthForRegexp r = none
        ∧ getConstantBoundLengthForRegexp true r = some 1 ∧ 1 ≤ [97, 98].length
        ∧ getConstantBoundLengthForRegexp false r = some 2 ∧ [97, 98].length ≤ 2
        ∧ isNullable r = some false ∧ [] ∉ r.language I := by
  intro I optional r
  have member : [97, 98] ∈ r.language I := by
    rw [mem_concat, RegExps.toList_ofList, mem_languageOf_cons]
    refine ⟨[97], by rw [mem_toRegExp, eval_const], [98], ?_, rfl⟩
    rw [languageOf_singleton, mem_union, RegExps.toList_ofList]
    exact ⟨_, List.mem_cons_self, mem_characterRange.mpr ⟨98, rfl, by decide, by decide⟩⟩
  obtain ⟨bounds, nullable⟩ := length_abstractions_sound r I
  obtain ⟨-, lower, upper⟩ := bounds [97, 98] member
  refine ⟨rfl, rfl, lower 1 rfl, rfl, upper 2 rfl, rfl, fun nil => ?_⟩
  exact Bool.false_ne_true ((nullable false rfl).mpr nil)

end Ava6.Strings

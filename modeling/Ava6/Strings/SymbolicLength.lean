import Ava6.Strings.ArithEntail
import Ava6.Strings.Word

/-! Components are taken from one end of a concatenation as long as their length is entailed to be within a given one.
-/

namespace Ava6.Strings

/-- Where the loop ends: how many components are taken as a whole, the length that is left, and the part taken of the next
constant with its rest.
-/
structure Stripped where
  sindex : Nat
  curr : IntTerm
  part : Option (Word × Word)

/-- The part of a constant that is taken, and the rest. -/
def splitConstant (isFront : Bool) (s : Word) (lbsize : Nat) : Word × Word :=
  if isFront then (Word.prefixOf s lbsize, Word.suffixOf s (s.length - lbsize))
  else (Word.suffixOf s lbsize, Word.prefixOf s (s.length - lbsize))

/-- The loop, over the components in the order in which they are taken. -/
def stripFrom (aent : ArithEntail) (isFront : Bool) : List StringTerm → Nat → IntTerm → Stripped
  | [], sindex, curr => ⟨sindex, curr, none⟩
  | n1 :: rest, sindex, curr =>
      if curr = .const 0 then ⟨sindex, curr, none⟩
      else
        match n1 with
        | .const s =>
            -- could strip part of a constant
            match ArithEntail.getConstantBound true (aent.rewriteArith curr) with
            | none => ⟨sindex, curr, none⟩
            | some lowerBound =>
                if 0 < lowerBound then
                  -- the difference of two constants is rewritten to a constant
                  if 0 ≤ lowerBound - s.length then
                    stripFrom aent isFront rest (sindex + 1) (aent.rewriteArith (.sub curr (.const s.length)))
                  else
                    -- a constant has less than 2^32 characters, so that this is an `unsigned`
                    ⟨sindex, aent.rewriteArith (.sub curr (.const lowerBound)),
                      some (splitConstant isFront s lowerBound.toNat)⟩
                else ⟨sindex, curr, none⟩
        | n1 =>
            let next := aent.rewriteArith (.sub curr (.length n1))
            if aent.check next false then stripFrom aent isFront rest (sindex + 1) next else ⟨sindex, curr, none⟩

/-- What is returned, and the arguments that are changed. -/
structure StripResult where
  ret : Bool
  n1 : List StringTerm
  nr : List StringTerm
  curr : IntTerm
  deriving DecidableEq

/-- The components in the order in which they are taken. -/
def inDirection (dir : Int) (n1 : List StringTerm) : List StringTerm := if dir = 1 then n1 else n1.reverse

def stripSymbolicLength (aent : ArithEntail) (n1 : List StringTerm) (dir : Int) (curr : IntTerm) (strict : Bool)
    : StripResult :=
  let stripped := stripFrom aent (decide (dir = 1)) (inDirection dir n1) 0 curr
  let sindex := stripped.sindex
  let sindexUse := if dir = 1 then sindex else n1.length - 1 - sindex
  let n1 := match stripped.part with
    | some (_, rest) => n1.set sindexUse (.const rest)
    | none => n1
  let nr := match stripped.part with
    | some (part, _) => [StringTerm.const part]
    | none => []
  if strict = true ∧ stripped.curr ≠ .const 0 then
    -- we did not strip the entire length
    ⟨false, n1, nr, stripped.curr⟩
  else if 0 < sindex then
    if dir = 1 then ⟨true, n1.drop sindex, n1.take sindex ++ nr, stripped.curr⟩
    else ⟨true, n1.take (n1.length - sindex), nr ++ n1.drop (n1.length - sindex), stripped.curr⟩
  else ⟨stripped.part.isSome, n1, nr, stripped.curr⟩

-- What the loop takes

variable {aent : ArithEntail} {A : Assignment} {isFront : Bool}

/-- A part and the rest of a constant, in the order in which they are in it. -/
def joinParts (isFront : Bool) (part rest : Word) : Word := if isFront then part ++ rest else rest ++ part

variable {s : Word}

theorem joinParts_splitConstant {lbsize : Nat} (within : lbsize ≤ s.length)
    : joinParts isFront (splitConstant isFront s lbsize).1 (splitConstant isFront s lbsize).2 = s := by
  cases isFront with
  | true =>
      rw [joinParts, splitConstant, if_pos rfl, if_pos rfl, Word.prefixOf, Word.suffixOf, Nat.sub_sub_self within]
      exact List.take_append_drop _ _
  | false => exact List.take_append_drop _ _

theorem length_splitConstant {lbsize : Nat} (within : lbsize ≤ s.length)
    : (splitConstant isFront s lbsize).1.length = lbsize := by
  cases isFront with
  | true => exact List.length_take_of_le within
  | false =>
      change (Word.suffixOf s lbsize).length = lbsize
      rw [Word.suffixOf, List.length_drop, Nat.sub_sub_self within]

/-- The word of some components together with what is taken of a constant has the length by which the given one is reduced,
and what is left is not negative.
-/
structure Takes (A : Assignment) (isFront : Bool) (components : List StringTerm) (sindex : Nat) (curr : IntTerm)
    (stripped : Stripped) (before after : List StringTerm)
    : Prop where
  components_eq : components = before ++ after
  sindex_eq : stripped.sindex = sindex + before.length
  length_eq
    : (wordOf A before).length + (stripped.part.elim 0 fun part => part.1.length)
      = curr.eval A - stripped.curr.eval A
  nonneg : before ≠ [] ∨ stripped.part ≠ none → 0 ≤ stripped.curr.eval A
  part_eq
    : ∀ part rest, stripped.part = some (part, rest) →
        part ≠ [] ∧ ∃ s after', after = .const s :: after' ∧ joinParts isFront part rest = s

theorem Takes.stop (components : List StringTerm) (sindex : Nat) (curr : IntTerm)
    : Takes A isFront components sindex curr ⟨sindex, curr, none⟩ [] components where
  components_eq := rfl
  sindex_eq := rfl
  length_eq := (sub_self _).symm
  nonneg := by simp
  part_eq := nofun

variable {component : StringTerm}

/-- One more component is taken as a whole. -/
theorem Takes.cons {rest before after : List StringTerm} {sindex : Nat} {curr next : IntTerm}
    {stripped : Stripped} (isNext : next.eval A = curr.eval A - (component.eval A).length) (isNonneg : 0 ≤ next.eval A)
    (takes : Takes A isFront rest (sindex + 1) next stripped before after)
    : Takes A isFront (component :: rest) sindex curr stripped (component :: before) after where
  components_eq := by rw [takes.components_eq, List.cons_append]
  sindex_eq := by rw [takes.sindex_eq, List.length_cons]; omega
  length_eq := by
    have := takes.length_eq
    rw [wordOf_cons, List.length_append]
    push_cast at *
    omega
  nonneg _ := by
    by_cases isMore : before ≠ [] ∨ stripped.part ≠ none
    · exact takes.nonneg isMore
    · obtain ⟨isNil, noPart⟩ := not_or.mp isMore
      have := takes.length_eq
      rw [not_not.mp isNil, not_not.mp noPart] at this
      simp at this
      omega
  part_eq := takes.part_eq

theorem eval_sub_const {curr : IntTerm} (n : Int) : (aent.rewriteArith (.sub curr (.const n))).eval A = curr.eval A - n := by
  rw [aent.eval_rewriteArith, IntTerm.eval, IntTerm.eval]

theorem eval_sub_length {curr : IntTerm} (s : StringTerm)
    : (aent.rewriteArith (.sub curr (.length s))).eval A = curr.eval A - (s.eval A).length := by
  rw [aent.eval_rewriteArith, IntTerm.eval, IntTerm.eval]

/-- A lower bound of the rewritten term is one of the term. -/
theorem le_of_lowerBound {curr : IntTerm} {lowerBound : Int}
    (isBound : ArithEntail.getConstantBound true (aent.rewriteArith curr) = some lowerBound)
    : lowerBound ≤ curr.eval A := by
  rw [← aent.eval_rewriteArith A curr]
  exact ArithEntail.le_of_getConstantBound isBound

variable {rest : List StringTerm}

theorem takes_part {sindex : Nat} {curr : IntTerm} {lowerBound : Int}
    (isBound : ArithEntail.getConstantBound true (aent.rewriteArith curr) = some lowerBound)
    (isPositive : 0 < lowerBound) (isShorter : lowerBound < s.length)
    : Takes A isFront (.const s :: rest) sindex curr
        ⟨sindex, aent.rewriteArith (.sub curr (.const lowerBound)), some (splitConstant isFront s lowerBound.toNat)⟩
        [] (.const s :: rest) where
  components_eq := rfl
  sindex_eq := rfl
  length_eq := by
    rw [eval_sub_const]
    simp only [wordOf_nil, List.length_nil, Option.elim_some]
    rw [length_splitConstant (by omega)]
    omega
  nonneg _ := by
    rw [eval_sub_const]
    exact sub_nonneg.mpr (le_of_lowerBound isBound)
  part_eq part left isPart := by
    have isSplit : splitConstant isFront s lowerBound.toNat = (part, left) := Option.some.inj isPart
    have length : (splitConstant isFront s lowerBound.toNat).1.length = lowerBound.toNat :=
      length_splitConstant (by omega)
    have join : joinParts isFront (splitConstant isFront s lowerBound.toNat).1
        (splitConstant isFront s lowerBound.toNat).2 = s :=
      joinParts_splitConstant (by omega)
    rw [isSplit] at length join
    refine ⟨List.ne_nil_of_length_pos ?_, s, rest, rfl, join⟩
    rw [length]
    omega

theorem takes_stripFrom (components : List StringTerm) (sindex : Nat) (curr : IntTerm)
    : ∃ before after, Takes A isFront components sindex curr (stripFrom aent isFront components sindex curr) before after := by
  induction components generalizing sindex curr with
  | nil => exact ⟨[], [], .stop [] sindex curr⟩
  | cons n1 rest ih =>
      unfold stripFrom
      split
      · exact ⟨[], _, .stop _ sindex curr⟩
      · split
        · rename_i s
          split
          · exact ⟨[], _, .stop _ sindex curr⟩
          · rename_i lowerBound isBound
            split
            · rename_i isPositive
              split
              · rename_i isLonger
                obtain ⟨before, after, takes⟩ := ih (sindex + 1) (aent.rewriteArith (.sub curr (.const s.length)))
                refine ⟨.const s :: before, after, takes.cons ?_ ?_⟩
                · rw [eval_sub_const, eval_const]
                · rw [eval_sub_const]
                  have := le_of_lowerBound (A := A) isBound
                  omega
              · exact ⟨[], _, takes_part isBound isPositive (by omega)⟩
            · exact ⟨[], _, .stop _ sindex curr⟩
        · simp only
          split
          · rename_i checked
            obtain ⟨before, after, takes⟩ := ih (sindex + 1) (aent.rewriteArith (.sub curr (.length n1)))
            exact ⟨n1 :: before, after, takes.cons (eval_sub_length n1) (aent.nonneg_of_check A _ false checked)⟩
          · exact ⟨[], _, .stop _ sindex curr⟩

-- What is returned

/-- The concatenation is split as is told, and the length is that of what is taken. -/
structure Strips (A : Assignment) (n1 : List StringTerm) (dir : Int) (curr : IntTerm) (result : StripResult) : Prop where
  front : dir = 1 → wordOf A n1 = wordOf A result.nr ++ wordOf A result.n1
  back : dir ≠ 1 → wordOf A n1 = wordOf A result.n1 ++ wordOf A result.nr
  length_eq : (wordOf A result.nr).length = curr.eval A - result.curr.eval A
  nonneg : 0 ≤ result.curr.eval A

/-- What is left of the components that are not taken as a whole. -/
def Stripped.left (stripped : Stripped) (after : List StringTerm) : List StringTerm :=
  match stripped.part with
  | some (_, rest) => .const rest :: after.tail
  | none => after

/-- What is taken of a constant. -/
def Stripped.taken (stripped : Stripped) : List StringTerm := stripped.part.toList.map fun part => .const part.1

theorem inDirection_inDirection (dir : Int) (n1 : List StringTerm) : inDirection dir (inDirection dir n1) = n1 := by
  by_cases isFront : dir = 1
  · rw [inDirection, inDirection, if_pos isFront, if_pos isFront]
  · rw [inDirection, inDirection, if_neg isFront, if_neg isFront, List.reverse_reverse]

/-- The vectors, in the direction in which they are stripped. -/
theorem stripSymbolicLength_eq {n1 before after : List StringTerm} {dir : Int} {curr : IntTerm} (strict : Bool)
    (takes : Takes A (decide (dir = 1)) (inDirection dir n1) 0 curr
      (stripFrom aent (decide (dir = 1)) (inDirection dir n1) 0 curr) before after)
    : stripSymbolicLength aent n1 dir curr strict
      = let stripped := stripFrom aent (decide (dir = 1)) (inDirection dir n1) 0 curr
        if strict = true ∧ stripped.curr ≠ .const 0 then
          ⟨false, inDirection dir (before ++ stripped.left after), stripped.taken, stripped.curr⟩
        else
          ⟨!before.isEmpty || stripped.part.isSome, inDirection dir (stripped.left after),
            if dir = 1 then before ++ stripped.taken else stripped.taken ++ before.reverse, stripped.curr⟩ := by
  have isN1 := inDirection_inDirection dir n1
  rw [takes.components_eq] at isN1
  have sindexEq := takes.sindex_eq
  have partEq := takes.part_eq
  rw [stripSymbolicLength]
  generalize stripFrom aent (decide (dir = 1)) (inDirection dir n1) 0 curr = stripped at *
  obtain ⟨sindex, left, part⟩ := stripped
  simp only [Nat.zero_add] at sindexEq
  subst sindexEq isN1
  by_cases isFront : dir = 1
  · subst isFront
    match part with
    | none =>
        simp only [inDirection, if_true, Stripped.left, Stripped.taken]
        cases before <;> simp
    | some (part, rest) =>
        obtain ⟨-, s, after', rfl, -⟩ := partEq part rest rfl
        simp only [inDirection, if_true, Stripped.left, Stripped.taken]
        cases before <;> simp
  · match part with
    | none =>
        simp only [inDirection, isFront, if_false, Stripped.left, Stripped.taken]
        cases before <;> simp
    | some (part, rest) =>
        obtain ⟨-, s, after', rfl, -⟩ := partEq part rest rfl
        have atPart : (before ++ StringTerm.const s :: after').reverse.length - 1 - before.length = after'.reverse.length := by
          simp
        have isSet : (before ++ StringTerm.const s :: after').reverse.set after'.reverse.length (.const rest)
            = (before ++ StringTerm.const rest :: after').reverse := by
          simp
        have cut : (before ++ StringTerm.const rest :: after').reverse.length - before.length
            = (StringTerm.const rest :: after').reverse.length := by
          simp only [List.length_reverse, List.length_append, List.length_cons]
          omega
        simp only [inDirection, isFront, if_false, Stripped.left, Stripped.taken, atPart, isSet, cut]
        rw [List.reverse_append, List.take_left, List.drop_left]
        cases before <;> simp

theorem length_wordOf_reverse (terms : List StringTerm) : (wordOf A terms.reverse).length = (wordOf A terms).length := by
  induction terms with
  | nil => rfl
  | cons s terms ih =>
      rw [List.reverse_cons, wordOf_append, wordOf_singleton, wordOf_cons, List.length_append, List.length_append, ih,
        Nat.add_comm]

section Result

variable {n1 before after : List StringTerm} {dir : Int} {curr : IntTerm} {strict : Bool} {stripped : Stripped}
  {sindex : Nat}

theorem exists_takes (aent : ArithEntail) (A : Assignment) (n1 : List StringTerm) (dir : Int) (curr : IntTerm)
    : ∃ before after, Takes A (decide (dir = 1)) (inDirection dir n1) 0 curr
        (stripFrom aent (decide (dir = 1)) (inDirection dir n1) 0 curr) before after :=
  takes_stripFrom _ _ _

/-- What is taken of a constant and what is left are the constant. -/
theorem wordOf_left_front (takes : Takes A true n1 sindex curr stripped before after)
    : wordOf A stripped.taken ++ wordOf A (stripped.left after) = wordOf A after := by
  obtain ⟨index, left, part⟩ := stripped
  match part with
  | none => rfl
  | some (part, rest) =>
      obtain ⟨-, s, after', rfl, rfl⟩ := takes.part_eq part rest rfl
      simp [Stripped.taken, Stripped.left, joinParts]

theorem wordOf_left_back (takes : Takes A false n1 sindex curr stripped before after)
    : wordOf A (stripped.left after).reverse ++ wordOf A stripped.taken = wordOf A after.reverse := by
  obtain ⟨index, left, part⟩ := stripped
  match part with
  | none => exact List.append_nil _
  | some (part, rest) =>
      obtain ⟨-, s, after', rfl, rfl⟩ := takes.part_eq part rest rfl
      simp [Stripped.taken, Stripped.left, joinParts, wordOf_append]

theorem length_taken (stripped : Stripped)
    : (wordOf A stripped.taken).length = stripped.part.elim 0 fun part => part.1.length := by
  obtain ⟨index, left, part⟩ := stripped
  match part with
  | none => rfl
  | some (part, rest) => simp [Stripped.taken]

/-- A result says that the concatenation is split. -/
theorem strips_of_ret (A : Assignment) (isRet : (stripSymbolicLength aent n1 dir curr strict).ret = true)
    : Strips A n1 dir curr (stripSymbolicLength aent n1 dir curr strict) := by
  obtain ⟨before, after, takes⟩ := exists_takes aent A n1 dir curr
  have isN1 := inDirection_inDirection dir n1
  rw [takes.components_eq] at isN1
  rw [stripSymbolicLength_eq strict takes] at isRet ⊢
  generalize stripFrom aent (decide (dir = 1)) (inDirection dir n1) 0 curr = stripped at *
  simp only at isRet ⊢
  split at isRet
  · cases isRet
  · rename_i goesOn
    rw [if_neg goesOn]
    have lengthEq := takes.length_eq
    rw [← length_taken (A := A) stripped] at lengthEq
    refine ⟨fun isFront => ?_, fun isBack => ?_, ?_, takes.nonneg ?_⟩
    · subst isFront
      rw [← isN1]
      simp only [inDirection, if_true, wordOf_append, List.append_assoc]
      rw [wordOf_left_front takes]
    · rw [decide_eq_false isBack] at takes
      rw [← isN1]
      simp only [inDirection, isBack, if_false, wordOf_append, List.reverse_append]
      rw [← List.append_assoc, wordOf_left_back takes]
    · simp only
      split
      · rw [wordOf_append, List.length_append]
        push_cast
        exact lengthEq
      · rw [wordOf_append, List.length_append, length_wordOf_reverse, Nat.add_comm]
        push_cast
        exact lengthEq
    · rw [Bool.or_eq_true] at isRet
      refine isRet.imp (fun isNonEmpty => ?_) (fun isSome => ?_)
      · simpa using isNonEmpty
      · exact Option.isSome_iff_ne_none.mp isSome

end Result

-- Where a part of a constant is lost

/-- The length of a component. -/
def lengthTerm : StringTerm → IntTerm
  | .const s => .const s.length
  | s => .length s

/-- What is left of a length after a component. -/
def remaining (aent : ArithEntail) (curr : IntTerm) (component : StringTerm) : IntTerm :=
  aent.rewriteArith (.sub curr (lengthTerm component))

/-- A length is entailed to be at least that of a component. -/
def covers (aent : ArithEntail) (curr : IntTerm) : StringTerm → Bool
  | .const s =>
      match ArithEntail.getConstantBound true (aent.rewriteArith curr) with
      | some lowerBound => decide (0 < lowerBound ∧ s.length ≤ lowerBound)
      | none => false
  | s => aent.check (remaining aent curr s) false

/-- A length covers some components, one after the other, and is not zero before. -/
def coversAll (aent : ArithEntail) : IntTerm → List StringTerm → Bool
  | _, [] => true
  | curr, component :: rest =>
      decide (curr ≠ .const 0) && covers aent curr component && coversAll aent (remaining aent curr component) rest

/-- A length covers the components before a constant, and has a lower bound within this one that is less than the length.
-/
def LosesPart (aent : ArithEntail) (curr : IntTerm) (components : List StringTerm) : Prop :=
  ∃ before s after lowerBound, components = before ++ .const s :: after ∧ coversAll aent curr before = true
    ∧ before.foldl (remaining aent) curr ≠ .const 0
    ∧ ArithEntail.getConstantBound true (aent.rewriteArith (before.foldl (remaining aent) curr)) = some lowerBound
    ∧ 0 < lowerBound ∧ lowerBound < s.length
    ∧ aent.rewriteArith (.sub (before.foldl (remaining aent) curr) (.const lowerBound)) ≠ .const 0

theorem not_losesPart_nil (curr : IntTerm) : ¬LosesPart aent curr [] := by
  rintro ⟨before, s, after, lowerBound, isNil, -⟩
  exact List.append_ne_nil_of_right_ne_nil _ (List.cons_ne_nil _ _) isNil.symm

theorem losesPart_cons_of_covers {curr : IntTerm}
    (isNonzero : curr ≠ .const 0) (covered : covers aent curr component = true)
    : LosesPart aent curr (component :: rest) ↔ LosesPart aent (remaining aent curr component) rest := by
  constructor
  · rintro ⟨before, s, after, lowerBound, isSplit, all, notZero, isBound, isPositive, isShorter, isLost⟩
    cases before with
    | nil =>
        -- a constant that is covered is not longer than the bound
        obtain ⟨rfl, rfl⟩ := List.cons.inj isSplit
        rw [List.foldl_nil] at isBound
        simp only [covers, isBound, decide_eq_true_eq] at covered
        omega
    | cons first before =>
        obtain ⟨rfl, rfl⟩ := List.cons.inj isSplit
        rw [coversAll, Bool.and_eq_true] at all
        exact ⟨before, s, after, lowerBound, rfl, all.2, notZero, isBound, isPositive, isShorter, isLost⟩
  · rintro ⟨before, s, after, lowerBound, rfl, all, rest⟩
    refine ⟨component :: before, s, after, lowerBound, rfl, ?_, rest⟩
    rw [coversAll, decide_eq_true isNonzero, covered, all]
    rfl

theorem losesPart_cons_of_not_covers {curr : IntTerm}
    (notCovered : ¬(curr ≠ .const 0 ∧ covers aent curr component = true))
    : LosesPart aent curr (component :: rest)
      ↔ ∃ s lowerBound, component = .const s ∧ curr ≠ .const 0
        ∧ ArithEntail.getConstantBound true (aent.rewriteArith curr) = some lowerBound
        ∧ 0 < lowerBound ∧ lowerBound < s.length ∧ aent.rewriteArith (.sub curr (.const lowerBound)) ≠ .const 0 := by
  constructor
  · rintro ⟨before, s, after, lowerBound, isSplit, all, found⟩
    cases before with
    | nil =>
        obtain ⟨rfl, rfl⟩ := List.cons.inj isSplit
        exact ⟨s, lowerBound, rfl, found⟩
    | cons first before =>
        obtain ⟨rfl, rfl⟩ := List.cons.inj isSplit
        rw [coversAll, Bool.and_eq_true, Bool.and_eq_true, decide_eq_true_eq] at all
        exact absurd all.1 notCovered
  · rintro ⟨s, lowerBound, rfl, found⟩
    exact ⟨[], s, rest, lowerBound, rfl, rfl, found⟩

theorem stripFrom_of_covers {sindex : Nat} {curr : IntTerm}
    (isNonzero : curr ≠ .const 0) (covered : covers aent curr component = true)
    : stripFrom aent isFront (component :: rest) sindex curr
      = stripFrom aent isFront rest (sindex + 1) (remaining aent curr component) := by
  match component with
  | .const s =>
      rw [covers] at covered
      match isBound : ArithEntail.getConstantBound true (aent.rewriteArith curr) with
      | none =>
          rw [isBound] at covered
          cases covered
      | some lowerBound =>
          simp only [isBound, decide_eq_true_eq] at covered
          simp only [stripFrom, if_neg isNonzero, isBound, if_pos covered.1, if_pos (sub_nonneg.mpr covered.2)]
          rfl
  | .var _ | .concat _ | .unit _ | .substr _ _ _ | .replace _ _ _ | .fromInt _ =>
      simp only [stripFrom, if_neg isNonzero]
      exact if_pos covered

/-- The loop stops at a component that is not covered, with a part of it if it is a constant with a positive bound. -/
theorem part_of_not_covers {sindex : Nat} {curr : IntTerm}
    (notCovered : ¬(curr ≠ .const 0 ∧ covers aent curr component = true))
    : ((stripFrom aent isFront (component :: rest) sindex curr).part ≠ none
        ∧ (stripFrom aent isFront (component :: rest) sindex curr).curr ≠ .const 0)
      ↔ ∃ s lowerBound, component = .const s ∧ curr ≠ .const 0
        ∧ ArithEntail.getConstantBound true (aent.rewriteArith curr) = some lowerBound
        ∧ 0 < lowerBound ∧ lowerBound < s.length ∧ aent.rewriteArith (.sub curr (.const lowerBound)) ≠ .const 0 := by
  by_cases isZero : curr = .const 0
  · refine iff_of_false (fun both => both.1 ?_) (fun ⟨_, _, _, isNonzero, _⟩ => isNonzero isZero)
    unfold stripFrom
    rw [if_pos isZero]
  · match component with
    | .const s =>
        simp only [stripFrom, if_neg isZero]
        match isBound : ArithEntail.getConstantBound true (aent.rewriteArith curr) with
        | none => simp
        | some lowerBound =>
            by_cases isPositive : 0 < lowerBound
            · have isShorter : lowerBound < s.length := by
                by_contra isLonger
                refine notCovered ⟨isZero, ?_⟩
                simp only [covers, isBound, decide_eq_true_eq]
                exact ⟨isPositive, not_lt.mp isLonger⟩
              simp only [if_pos isPositive, if_neg (not_le.mpr (sub_neg.mpr isShorter))]
              constructor
              · rintro ⟨-, isLost⟩
                exact ⟨s, lowerBound, rfl, isZero, rfl, isPositive, isShorter, isLost⟩
              · rintro ⟨_, _, isS, -, isLower, -, -, isLost⟩
                obtain rfl := Option.some.inj isLower
                exact ⟨nofun, isLost⟩
            · simp only [if_neg isPositive]
              refine iff_of_false (fun both => both.1 rfl) ?_
              rintro ⟨_, _, -, -, isLower, isPositive', -⟩
              obtain rfl := Option.some.inj isLower
              exact isPositive isPositive'
    | .var _ | .concat _ | .unit _ | .substr _ _ _ | .replace _ _ _ | .fromInt _ =>
        refine iff_of_false (fun both => both.1 ?_) (fun ⟨_, _, isConst, _⟩ => nomatch isConst)
        simp only [stripFrom, if_neg isZero]
        exact congrArg Stripped.part (if_neg fun covered => notCovered ⟨isZero, covered⟩)

/-- The loop ends with a part of a constant and some length left, in just these cases. -/
theorem losesPart_iff (components : List StringTerm) (sindex : Nat) (curr : IntTerm)
    : ((stripFrom aent isFront components sindex curr).part ≠ none
        ∧ (stripFrom aent isFront components sindex curr).curr ≠ .const 0)
      ↔ LosesPart aent curr components := by
  induction components generalizing sindex curr with
  | nil => exact iff_of_false (fun both => both.1 rfl) (not_losesPart_nil curr)
  | cons component rest ih =>
      by_cases covered : curr ≠ .const 0 ∧ covers aent curr component = true
      · rw [losesPart_cons_of_covers covered.1 covered.2, ← ih (sindex + 1), stripFrom_of_covers covered.1 covered.2]
      · rw [losesPart_cons_of_not_covers covered, part_of_not_covers covered]

/-- Where no result is returned, the vectors are as they were if and only if no part of a constant has been taken. -/
theorem unchanged_iff {n1 : List StringTerm} {dir : Int} {curr : IntTerm} {strict : Bool}
    (noRet : (stripSymbolicLength aent n1 dir curr strict).ret = false)
    : ((stripSymbolicLength aent n1 dir curr strict).n1 = n1 ∧ (stripSymbolicLength aent n1 dir curr strict).nr = [])
      ↔ ¬(strict = true ∧ LosesPart aent curr (inDirection dir n1)) := by
  obtain ⟨before, after, takes⟩ := exists_takes aent ⟨fun _ => [], fun _ => 0⟩ n1 dir curr
  have isN1 := inDirection_inDirection dir n1
  rw [takes.components_eq] at isN1
  rw [stripSymbolicLength_eq strict takes] at noRet ⊢
  rw [← @losesPart_iff aent (decide (dir = 1)) _ 0]
  generalize stripFrom aent (decide (dir = 1)) (inDirection dir n1) 0 curr = stripped at *
  obtain ⟨sindex, left, part⟩ := stripped
  simp only at noRet ⊢
  by_cases isLost : strict = true ∧ left ≠ .const 0
  · rw [if_pos isLost]
    match part with
    | none => simpa [Stripped.left, Stripped.taken] using isN1
    | some (part, rest) => simp [Stripped.taken, isLost.1, isLost.2]
  · rw [if_neg isLost] at noRet ⊢
    rw [Bool.or_eq_false_iff, Bool.not_eq_false', List.isEmpty_iff, Option.isSome_eq_false_iff] at noRet
    obtain ⟨rfl, noPart⟩ := noRet
    obtain rfl := Option.isNone_iff_eq_none.mp noPart
    simpa [Stripped.left, Stripped.taken] using isN1

/-- A result says that the concatenation is split as is told. No result leaves the vectors as they were, if and only if a
strict call does not take a part of a constant that is less than the whole length.
-/
theorem stripSymbolicLength_exact (aent : ArithEntail) (n1 : List StringTerm) (dir : Int) (curr : IntTerm) (strict : Bool)
    : (((stripSymbolicLength aent n1 dir curr strict).ret = true →
          ∀ A, Strips A n1 dir curr (stripSymbolicLength aent n1 dir curr strict))
        ∧ ((stripSymbolicLength aent n1 dir curr strict).ret = false →
          (stripSymbolicLength aent n1 dir curr strict).n1 = n1
            ∧ (stripSymbolicLength aent n1 dir curr strict).nr = []))
      ↔ ¬(strict = true ∧ LosesPart aent curr (inDirection dir n1)) := by
  cases isRet : (stripSymbolicLength aent n1 dir curr strict).ret with
  | false =>
      rw [← unchanged_iff isRet]
      simp
  | true =>
      refine iff_of_true ⟨fun _ A => strips_of_ret A isRet, fun isFalse => by cases isFalse⟩ ?_
      rintro ⟨isStrict, isLost⟩
      obtain ⟨-, isLeft⟩ := (@losesPart_iff aent (decide (dir = 1)) _ 0 curr).mpr isLost
      rw [stripSymbolicLength, if_pos ⟨isStrict, isLeft⟩] at isRet
      cases isRet

/-- For `"abc"` and the length `|x| + 1`, a strict call fails, but `"a"` has been taken. -/
theorem strict_failure_takes_part
    : let curr : IntTerm := .add (.cons (.length (.var 0)) (.cons (.const 1) .nil))
      let result := stripSymbolicLength default [.const [97, 98, 99]] 1 curr true
      result.ret = false ∧ result.n1 = [.const [98, 99]] ∧ result.nr = [.const [97]] := by
  decide

end Ava6.Strings

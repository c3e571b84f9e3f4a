import Mathlib.Data.List.Forall2
import Mathlib.Data.List.Nodup
import Mathlib.Data.Prod.Lex
import Mathlib.Order.Monotone.Basic
import Ava6.Strings.TypeEnumerator

/-! The enumerators of strings and sequences are exact: the counter of words goes through all words, shorter ones
first, and the characters and elements of a word are a bijection of its digits.
-/

namespace Ava6.Strings

open Library

-- The counter

section Counter

variable {card : Nat}

/-- The digits of a number are those of the next one, until they overflow. -/
theorem incrementDigits_numeral (positive : 0 < card) (length v : Nat) (bound : v < card ^ length)
    : WordIter.incrementDigits card (numeral card length v)
      = if v + 1 < card ^ length then some (numeral card length (v + 1)) else none := by
  induction length generalizing v with
  | zero =>
      rw [Nat.pow_zero] at bound ⊢
      rw [if_neg (by omega)]
      rfl
  | succ length ih =>
      rw [numeral, WordIter.incrementDigits]
      rcases mod_succ_cases positive v with noCarry | carry
      · have next : v + 1 < card ^ (length + 1) := by
          have quotient := div_lt_pow bound
          have parts := Nat.div_add_mod v card
          calc v + 1 < card * (v / card) + card := by omega
            _ = card * (v / card + 1) := (Nat.mul_succ _ _).symm
            _ ≤ card * card ^ length := Nat.mul_le_mul_left card quotient
            _ = card ^ (length + 1) := Nat.pow_succ'.symm
        rw [if_pos noCarry, if_pos next, numeral_succ noCarry]
      · obtain ⟨isNumeral, isProduct⟩ := @numeral_carry card length v carry
        have overflow : v + 1 < card ^ (length + 1) ↔ v / card + 1 < card ^ length := by
          rw [isProduct, Nat.pow_succ', Nat.mul_lt_mul_left positive]
        rw [if_neg (by omega), ih _ (div_lt_pow bound), isNumeral]
        by_cases more : v / card + 1 < card ^ length
        · rw [if_pos more, if_pos (overflow.mpr more), Option.map_some]
        · rw [if_neg more, if_neg (mt overflow.mp more), Option.map_none]

/-- The next word, from the length of a word and its number among the words of this length. -/
def nextPosition (card : Nat) (p : Nat × Nat) : Nat × Nat :=
  if p.2 + 1 < card ^ p.1 then (p.1, p.2 + 1) else (p.1 + 1, 0)

def position (card startLength : Nat) : Nat → Nat × Nat
  | 0 => (startLength, 0)
  | step + 1 => nextPosition card (position card startLength step)

/-- The word at a position. -/
def wordAt (card startLength step : Nat) : List Nat :=
  numeral card (position card startLength step).1 (position card startLength step).2

variable {startLength : Nat}

theorem position_bound (positive : 0 < card) (startLength step : Nat)
    : startLength ≤ (position card startLength step).1
      ∧ (position card startLength step).2 < card ^ (position card startLength step).1 := by
  induction step with
  | zero => exact ⟨Nat.le_refl _, Nat.pow_pos positive⟩
  | succ step ih =>
      rw [position, nextPosition]
      split
      · next more => exact ⟨ih.1, more⟩
      · exact ⟨Nat.le_succ_of_le ih.1, Nat.pow_pos positive⟩

theorem position_succ_lt (step : Nat)
    : toLex (position card startLength step) < toLex (position card startLength (step + 1)) := by
  rw [position, nextPosition, Prod.Lex.lt_iff]
  split
  · exact Or.inr ⟨rfl, Nat.lt_succ_self _⟩
  · exact Or.inl (Nat.lt_succ_self _)

theorem position_strictMono : StrictMono (fun step => toLex (position card startLength step)) :=
  strictMono_nat_of_lt_succ position_succ_lt

/-- From the first word of a length the others follow. -/
theorem position_add {step length : Nat} (first : position card startLength step = (length, 0)) (v : Nat)
    (bound : v < card ^ length)
    : position card startLength (step + v) = (length, v) := by
  induction v with
  | zero => exact first
  | succ v ih => rw [← Nat.add_assoc, position, ih (by omega), nextPosition, if_pos bound]

theorem exists_first (positive : 0 < card) (startLength more : Nat)
    : ∃ step, position card startLength step = (startLength + more, 0) := by
  induction more with
  | zero => exact ⟨0, rfl⟩
  | succ more ih =>
      obtain ⟨step, first⟩ := ih
      have many : 0 < card ^ (startLength + more) := Nat.pow_pos positive
      have last := position_add first (card ^ (startLength + more) - 1) (by omega)
      refine ⟨step + (card ^ (startLength + more) - 1) + 1, ?_⟩
      have overflow : ¬card ^ (startLength + more) - 1 + 1 < card ^ (startLength + more) := by omega
      rw [position, last, nextPosition, if_neg overflow]
      rfl

/-- The words over the first characters of at least a length, and of at most another one if there is one. -/
def Words (card startLength : Nat) (endLength : Option Nat) : Set (List Nat) :=
  { w | startLength ≤ w.length ∧ (∀ last ∈ endLength, w.length ≤ last) ∧ ∀ c ∈ w, c < card }

theorem wordAt_bijOn (positive : 0 < card)
    : Set.BijOn (wordAt card startLength) Set.univ (Words card startLength none) := by
  refine ⟨fun step _ => ?_, fun step _ step' _ same => ?_, fun w member => ?_⟩
  · have bounds := position_bound positive startLength step
    exact ⟨by rw [wordAt, length_numeral]; exact bounds.1, nofun, fun d isDigit => digit_lt positive isDigit⟩
  · have bounds := position_bound positive startLength step
    have bounds' := position_bound positive startLength step'
    rw [wordAt, wordAt] at same
    have sameLength : (position card startLength step).1 = (position card startLength step').1 := by
      have lengths := congrArg List.length same
      rwa [length_numeral, length_numeral] at lengths
    rw [← sameLength] at same bounds'
    have sameNumber := numeral_injective bounds.2 bounds'.2 same
    exact position_strictMono.injective (congrArg toLex (Prod.ext sameLength sameNumber))
  · obtain ⟨isLong, -, small⟩ := member
    obtain ⟨v, bound, isNumeral⟩ := numeral_surjective w small
    obtain ⟨step, first⟩ := exists_first positive startLength (w.length - startLength)
    rw [Nat.add_sub_cancel' isLong] at first
    refine ⟨step + v, trivial, ?_⟩
    rw [wordAt, position_add first v bound, isNumeral]

theorem length_wordAt (step : Nat) : (wordAt card startLength step).length = (position card startLength step).1 :=
  length_numeral _ _

theorem length_wordAt_mono {step step' : Nat} (le : step ≤ step')
    : (wordAt card startLength step).length ≤ (wordAt card startLength step').length := by
  rw [length_wordAt, length_wordAt]
  exact Prod.Lex.monotone_fst _ _ (position_strictMono.monotone le)

/-- The words up to a length come before the first longer one. -/
theorem wordAt_bijOn_until (positive : 0 < card) {last steps : Nat}
    (first : position card startLength steps = (last + 1, 0))
    : Set.BijOn (wordAt card startLength) (Set.Iio steps) (Words card startLength (some last)) := by
  have short (step : Nat) : step < steps ↔ (wordAt card startLength step).length ≤ last := by
    rw [length_wordAt, ← position_strictMono.lt_iff_lt, first, Prod.Lex.lt_iff]
    simp only [ofLex_toLex, Nat.not_lt_zero, and_false, or_false]
    exact Nat.lt_succ_iff
  have bijective := @wordAt_bijOn card startLength positive
  refine ⟨fun step small => ?_, bijective.injOn.mono (Set.subset_univ _), fun w member => ?_⟩
  · obtain ⟨isLong, -, areSmall⟩ := bijective.mapsTo (Set.mem_univ step)
    refine ⟨isLong, fun last' isLast => ?_, areSmall⟩
    rw [← Option.some.inj isLast]
    exact (short step).mp small
  · obtain ⟨isLong, isShort, areSmall⟩ := member
    obtain ⟨step, -, rfl⟩ := bijective.surjOn (show w ∈ Words card startLength none from ⟨isLong, nofun, areSmall⟩)
    exact ⟨step, (short step).mpr (isShort last rfl), rfl⟩

/-- The counter goes to the next word, unless the words of the last length are over. -/
theorem increment_wordAt (positive : 0 < card) (endLength : Option Nat) (step : Nat)
    : WordIter.increment card ⟨endLength, wordAt card startLength step⟩
      = if endLength = some (position card startLength step).1
            ∧ position card startLength (step + 1) = ((position card startLength step).1 + 1, 0)
        then (⟨endLength, List.replicate (position card startLength step).1 0⟩, false)
        else (⟨endLength, wordAt card startLength (step + 1)⟩, true) := by
  obtain ⟨-, bound⟩ := position_bound positive startLength step
  rw [WordIter.increment, wordAt, wordAt, incrementDigits_numeral positive _ _ bound, position, nextPosition,
    length_numeral]
  by_cases more : (position card startLength step).2 + 1 < card ^ (position card startLength step).1
  · simp [more]
  · simp only [more, if_false, and_true]
    split
    · rfl
    · rw [numeral_zero, List.replicate_succ']

end Counter

-- Characters

section Characters

theorem map_bijOn {σ : Nat → Nat} {card : Nat} (bijective : Set.BijOn σ (Set.Iio card) (Set.Iio card))
    (startLength : Nat) (endLength : Option Nat)
    : Set.BijOn (List.map σ) (Words card startLength endLength) (Words card startLength endLength) := by
  have lists (w : List Nat) (small : ∀ c ∈ w, c < card) : ∃ u : List Nat, (∀ c ∈ u, c < card) ∧ u.map σ = w := by
    induction w with
    | nil => exact ⟨[], nofun, rfl⟩
    | cons c w ih =>
        obtain ⟨smallC, smallRest⟩ := List.forall_mem_cons.mp small
        obtain ⟨d, smallD, rfl⟩ := bijective.surjOn smallC
        obtain ⟨u, smallU, rfl⟩ := ih smallRest
        exact ⟨d :: u, List.forall_mem_cons.mpr ⟨smallD, smallU⟩, rfl⟩
  refine ⟨?_, ?_, ?_⟩
  · rintro w ⟨isLong, isShort, small⟩
    refine ⟨by rwa [List.length_map], by simpa using isShort, fun c member => ?_⟩
    obtain ⟨d, inWord, rfl⟩ := List.mem_map.mp member
    exact bijective.mapsTo (small d inWord)
  · rintro w ⟨-, -, small⟩ u ⟨-, -, small'⟩ same
    induction w generalizing u with
    | nil => exact (List.map_eq_nil_iff.mp same.symm).symm
    | cons c w ih =>
        cases u with
        | nil => cases same
        | cons d u =>
            obtain ⟨smallC, smallW⟩ := List.forall_mem_cons.mp small
            obtain ⟨smallD, smallU⟩ := List.forall_mem_cons.mp small'
            obtain ⟨sameHead, sameTail⟩ := List.cons.inj same
            rw [bijective.injOn smallC smallD sameHead, ih smallW smallU sameTail]
  · rintro w ⟨isLong, isShort, small⟩
    obtain ⟨u, smallU, rfl⟩ := lists w small
    exact ⟨u, ⟨by rwa [List.length_map] at isLong, by simpa using isShort, smallU⟩, rfl⟩

/-- The characters are a permutation of the digits. -/
theorem standardCharacter_bijOn {card : Nat} (large : 255 ≤ card)
    : Set.BijOn (standardCharacter card) (Set.Iio card) (Set.Iio card) := by
  have value (v : Nat) (small : v < card)
      : standardCharacter card v
        = if v ≤ 61 then v + 65 else if v ≤ 94 then v - 30 else if v + 32 < card then v + 32 else v + 32 - card := by
    rw [standardCharacter]
    split
    · rfl
    · split
      · rfl
      · split
        · next noWrap => exact Nat.mod_eq_of_lt noWrap
        · rw [Nat.mod_eq_sub_mod (by omega), Nat.mod_eq_of_lt (by omega)]
  refine ⟨fun v small => ?_, fun v small u small' same => ?_, fun y small => ?_⟩
  · rw [Set.mem_Iio] at small ⊢
    rw [value v small]
    split_ifs <;> omega
  · rw [Set.mem_Iio] at small small'
    rw [value v small, value u small'] at same
    split_ifs at same <;> omega
  · rw [Set.mem_Iio] at small
    have preimage (v : Nat) (smallV : v < card) (isValue : standardCharacter card v = y)
        : y ∈ standardCharacter card '' Set.Iio card :=
      ⟨v, smallV, isValue⟩
    by_cases isControl : y < 32
    · refine preimage (y + card - 32) (by omega) ?_
      rw [value _ (by omega)]
      split_ifs <;> omega
    · by_cases isPunctuation : y ≤ 64
      · refine preimage (y + 30) (by omega) ?_
        rw [value _ (by omega)]
        split_ifs <;> omega
      · by_cases isLetter : y ≤ 126
        · refine preimage (y - 65) (by omega) ?_
          rw [value _ (by omega)]
          split_ifs <;> omega
        · refine preimage (y - 32) (by omega) ?_
          rw [value _ (by omega)]
          split_ifs <;> omega

theorem makeStandardModelConstant_bijOn (card startLength : Nat) (endLength : Option Nat)
    : Set.BijOn (makeStandardModelConstant · card) (Words card startLength endLength)
        (Words card startLength endLength) := by
  by_cases large : 255 ≤ card
  · have isMap : (makeStandardModelConstant · card) = List.map (standardCharacter card) :=
      funext fun w => if_pos large
    rw [isMap]
    exact map_bijOn (standardCharacter_bijOn large) startLength endLength
  · have isId : (makeStandardModelConstant · card) = id := funext fun w => if_neg large
    rw [isId]
    exact Set.bijOn_id _

theorem length_makeStandardModelConstant (w : List Nat) (card : Nat)
    : (makeStandardModelConstant w card).length = w.length := by
  rw [makeStandardModelConstant]
  split
  · exact List.length_map _
  · rfl

end Characters

-- StringEnumLen

section StringEnumeration

variable {card startLength : Nat}

/-- The enumerator at a word. -/
def stringsAt (card startLength : Nat) (endLength : Option Nat) (step : Nat) : StringEnumLen :=
  ⟨⟨endLength, wordAt card startLength step⟩, card, some (makeStandardModelConstant (wordAt card startLength step) card)⟩

theorem stringsAt_zero (card startLength : Nat) (endLength : Option Nat)
    : StringEnumLen.ofLength startLength endLength card = stringsAt card startLength endLength 0 := by
  have isZero : wordAt card startLength 0 = List.replicate startLength 0 := numeral_zero startLength
  rw [stringsAt, isZero]
  rfl

/-- The last word is the one before the first that is too long. -/
theorem increment_stringsAt (positive : 0 < card) (endLength : Option Nat) (step : Nat)
    : (stringsAt card startLength endLength step).increment
      = if endLength = some (position card startLength step).1
            ∧ position card startLength (step + 1) = ((position card startLength step).1 + 1, 0)
        then ⟨⟨endLength, List.replicate (position card startLength step).1 0⟩, card, none⟩
        else stringsAt card startLength endLength (step + 1) := by
  rw [StringEnumLen.increment, stringsAt]
  dsimp only
  rw [increment_wordAt positive]
  by_cases isOver : endLength = some (position card startLength step).1
      ∧ position card startLength (step + 1) = ((position card startLength step).1 + 1, 0)
  · rw [if_pos isOver, if_pos isOver]
  · rw [if_neg isOver, if_neg isOver]
    rfl

theorem output_strings (positive : 0 < card) (step : Nat)
    : (StringEnumLen.ofLength startLength none card).output step
      = some (makeStandardModelConstant (wordAt card startLength step) card) := by
  have states : StringEnumLen.increment^[step] (StringEnumLen.ofLength startLength none card)
      = stringsAt card startLength none step := by
    induction step with
    | zero => exact stringsAt_zero card startLength none
    | succ step ih => rw [Function.iterate_succ_apply', ih, increment_stringsAt positive, if_neg (by simp)]
  rw [StringEnumLen.output, states]
  rfl

/-- Without an end length, each word comes once, and shorter ones first. -/
theorem strings_listed (positive : 0 < card)
    : Lists (StringEnumLen.ofLength startLength none card).output (Words card startLength none)
      ∧ ∀ step step' w w', step ≤ step' → (StringEnumLen.ofLength startLength none card).output step = some w
        → (StringEnumLen.ofLength startLength none card).output step' = some w' → w.length ≤ w'.length := by
  refine ⟨lists_of_bijective (output_strings positive) ?_, fun step step' w w' le isW isW' => ?_⟩
  · exact (makeStandardModelConstant_bijOn card startLength none).comp (wordAt_bijOn positive)
  · rw [output_strings positive, Option.some.injEq] at isW isW'
    rw [← isW, ← isW', length_makeStandardModelConstant, length_makeStandardModelConstant]
    exact length_wordAt_mono le

section Bounded

variable {last steps : Nat} (positive : 0 < card) (first : position card startLength steps = (last + 1, 0))

include first in
theorem position_until {step : Nat} (before : step < steps) : (position card startLength step).1 ≤ last := by
  have less : toLex (position card startLength step) < toLex (position card startLength steps) :=
    position_strictMono before
  rw [first, Prod.Lex.lt_iff] at less
  simp only [ofLex_toLex, Nat.not_lt_zero, and_false, or_false] at less
  exact Nat.lt_succ_iff.mp less

include positive first in
theorem states_until {step : Nat} (before : step < steps)
    : StringEnumLen.increment^[step] (StringEnumLen.ofLength startLength (some last) card)
      = stringsAt card startLength (some last) step := by
  induction step with
  | zero => exact stringsAt_zero card startLength (some last)
  | succ step ih =>
      rw [Function.iterate_succ_apply', ih (by omega), increment_stringsAt positive, if_neg]
      rintro ⟨isLast, isNext⟩
      have next := position_until first before
      rw [isNext, ← Option.some.inj isLast] at next
      exact absurd next (by simp)

include positive first in
theorem output_until {step : Nat} (before : step < steps)
    : (StringEnumLen.ofLength startLength (some last) card).output step
      = some (makeStandardModelConstant (wordAt card startLength step) card) := by
  rw [StringEnumLen.output, states_until positive first before]
  rfl

include positive first in
theorem output_at_end (notBelow : startLength ≤ last)
    : (StringEnumLen.ofLength startLength (some last) card).output steps = none := by
  cases steps with
  | zero =>
      have same : startLength = last + 1 := congrArg Prod.fst first
      omega
  | succ step =>
      have isLast : (position card startLength step).1 = last := by
        have next := first
        rw [position, nextPosition] at next
        split at next
        · cases congrArg Prod.snd next
        · exact Nat.succ.inj (congrArg Prod.fst next)
      rw [StringEnumLen.output, Function.iterate_succ_apply', states_until positive first (Nat.lt_succ_self step),
        increment_stringsAt positive, if_pos ⟨by rw [isLast], by rw [first, isLast]⟩]

end Bounded

/-- With an end length, each word up to it comes once, shorter ones first, and then nothing. -/
theorem strings_listed_until (positive : 0 < card) {last : Nat} (notBelow : startLength ≤ last)
    : ∃ steps, ListsThenEnds (StringEnumLen.ofLength startLength (some last) card).output
        (Words card startLength (some last)) steps
      ∧ ∀ step step' w w', step ≤ step' → step' < steps
        → (StringEnumLen.ofLength startLength (some last) card).output step = some w
        → (StringEnumLen.ofLength startLength (some last) card).output step' = some w' → w.length ≤ w'.length := by
  obtain ⟨steps, first⟩ := exists_first positive startLength (last + 1 - startLength)
  rw [Nat.add_sub_cancel' (by omega)] at first
  refine ⟨steps, listsThenEnds_of_bijOn (fun step => output_until positive first)
    (output_at_end positive first notBelow) ?_, fun step step' w w' le before isW isW' => ?_⟩
  · exact (makeStandardModelConstant_bijOn card startLength (some last)).comp (wordAt_bijOn_until positive first)
  · rw [output_until positive first (by omega), Option.some.injEq] at isW
    rw [output_until positive first before, Option.some.injEq] at isW'
    rw [← isW, ← isW', length_makeStandardModelConstant, length_makeStandardModelConstant]
    exact length_wordAt_mono le

end StringEnumeration

-- SeqEnumLen

section Sequences

variable {α : Type}

theorem mkCurr_cons (domain : List α) (d : Nat) (data : List Nat)
    : SeqEnumLen.mkCurr domain (d :: data)
      = domain[d]?.bind (fun x => (SeqEnumLen.mkCurr domain data).map (x :: ·)) := by
  rw [SeqEnumLen.mkCurr, List.mapM_cons]
  cases domain[d]? with
  | none => rfl
  | some x =>
      cases isRest : data.mapM (domain[·]?) with
      | none => simp [SeqEnumLen.mkCurr, isRest]
      | some rest => simp [SeqEnumLen.mkCurr, isRest]

/-- The sequence of a word is the one of the elements at its digits. -/
theorem mkCurr_eq_some {domain : List α} {data : List Nat} {s : List α}
    : SeqEnumLen.mkCurr domain data = some s ↔ List.Forall₂ (fun d x => domain[d]? = some x) data s := by
  induction data generalizing s with
  | nil =>
      rw [List.forall₂_nil_left_iff]
      exact Option.some_inj.trans eq_comm
  | cons d data ih =>
      rw [mkCurr_cons, List.forall₂_cons_left_iff, Option.bind_eq_some_iff]
      constructor
      · rintro ⟨x, isElement, rest⟩
        obtain ⟨s', isRest, rfl⟩ := Option.map_eq_some_iff.mp rest
        exact ⟨x, s', isElement, ih.mp isRest, rfl⟩
      · rintro ⟨x, s', isElement, isRest, rfl⟩
        exact ⟨x, isElement, by rw [ih.mpr isRest, Option.map_some]⟩

theorem exists_sequence {elements : List α} (w : List Nat) (small : ∀ d ∈ w, d < elements.length)
    : ∃ s, SeqEnumLen.mkCurr elements w = some s := by
  induction w with
  | nil => exact ⟨[], rfl⟩
  | cons d w ih =>
      obtain ⟨smallD, smallRest⟩ := List.forall_mem_cons.mp small
      obtain ⟨s, isRest⟩ := ih smallRest
      refine ⟨elements[d] :: s, ?_⟩
      rw [mkCurr_cons, List.getElem?_eq_getElem smallD, isRest]
      rfl

/-- The elements at the digits are a bijection between words and sequences. -/
theorem mkCurr_bijOn {elements : List α} (distinct : elements.Nodup) (n : Nat)
    : Set.BijOn (fun w => (SeqEnumLen.mkCurr elements w).getD [])
        { w | w.length = n ∧ ∀ d ∈ w, d < elements.length } { s | s.length = n ∧ ∀ x ∈ s, x ∈ elements } := by
  have same_digits {w u : List Nat} {s : List α} (isW : List.Forall₂ (fun d x => elements[d]? = some x) w s)
      (isU : List.Forall₂ (fun d x => elements[d]? = some x) u s)
      : w = u := by
    induction isW generalizing u with
    | nil =>
        cases isU
        rfl
    | cons isHead _ ih =>
        cases isU with
        | cons isHead' isTail' =>
            obtain ⟨small, isX⟩ := List.getElem?_eq_some_iff.mp isHead
            obtain ⟨small', isX'⟩ := List.getElem?_eq_some_iff.mp isHead'
            rw [distinct.getElem_inj_iff.mp (isX.trans isX'.symm), ih isTail']
  refine ⟨?_, ?_, ?_⟩
  · rintro w ⟨isLength, small⟩
    obtain ⟨s, isSequence⟩ := exists_sequence w small
    have related := mkCurr_eq_some.mp isSequence
    dsimp only
    rw [isSequence, Option.getD_some]
    refine ⟨related.length_eq.symm.trans isLength, fun x member => ?_⟩
    obtain ⟨i, bound, rfl⟩ := List.getElem_of_mem member
    exact List.mem_of_getElem? (related.get (by rw [related.length_eq]; exact bound) bound)
  · rintro w ⟨-, small⟩ u ⟨-, small'⟩ same
    obtain ⟨s, isSequence⟩ := exists_sequence w small
    obtain ⟨s', isSequence'⟩ := exists_sequence u small'
    dsimp only at same
    rw [isSequence, isSequence', Option.getD_some, Option.getD_some] at same
    rw [← same] at isSequence'
    exact same_digits (mkCurr_eq_some.mp isSequence) (mkCurr_eq_some.mp isSequence')
  · rintro s ⟨isLength, areElements⟩
    have digits : ∃ w : List Nat, List.Forall₂ (fun d x => elements[d]? = some x) w s := by
      clear isLength
      induction s with
      | nil => exact ⟨[], .nil⟩
      | cons x s ih =>
          obtain ⟨isElement, areRest⟩ := List.forall_mem_cons.mp areElements
          obtain ⟨w, isRest⟩ := ih areRest
          obtain ⟨d, small, isX⟩ := List.getElem_of_mem isElement
          exact ⟨d :: w, .cons (List.getElem?_eq_some_iff.mpr ⟨small, isX⟩) isRest⟩
    obtain ⟨w, related⟩ := digits
    refine ⟨w, ⟨related.length_eq.trans isLength, fun d member => ?_⟩, ?_⟩
    · obtain ⟨i, bound, rfl⟩ := List.getElem_of_mem member
      obtain ⟨small, -⟩ := List.getElem?_eq_some_iff.mp
        (related.get bound (by rw [← related.length_eq]; exact bound))
      exact small
    · dsimp only
      rw [mkCurr_eq_some.mpr related, Option.getD_some]

theorem mkCurr_congr {domain domain' : List α} {data : List Nat}
    (same : ∀ d ∈ data, domain[d]? = domain'[d]?)
    : SeqEnumLen.mkCurr domain data = SeqEnumLen.mkCurr domain' data := by
  induction data with
  | nil => rfl
  | cons d data ih =>
      obtain ⟨sameHead, sameRest⟩ := List.forall_mem_cons.mp same
      rw [mkCurr_cons, mkCurr_cons, sameHead, ih sameRest]

/-- The counter may run while the domain grows: the first digit is below its size. -/
theorem incrementDigits_grown {card n t : Nat} (positive : 0 < card) (bound : t < card ^ (n + 1))
    : WordIter.incrementDigits (min (t + 2) card) (numeral card (n + 1) t)
      = if t + 1 < card ^ (n + 1) then some (numeral card (n + 1) (t + 1)) else none := by
  by_cases grown : card ≤ t + 2
  · rw [Nat.min_eq_right grown, incrementDigits_numeral positive (n + 1) t bound]
  · have isDigit : t % card = t := Nat.mod_eq_of_lt (by omega)
    have more : t + 1 < card ^ (n + 1) := Nat.lt_of_lt_of_le (by omega) (Nat.le_self_pow (by omega) card)
    rw [Nat.min_eq_left (by omega), if_pos more, numeral_succ (by omega), numeral, WordIter.incrementDigits, isDigit,
      if_pos (by omega)]

theorem incrementDigits_zero (data : List Nat) : WordIter.incrementDigits 0 data = none := by
  induction data with
  | nil => rfl
  | cons d data ih => rw [WordIter.incrementDigits, if_neg (by omega), ih, Option.map_none]

variable {elements : List α} {n t : Nat}

/-- The state after a number of steps. -/
def sequencesAt (elements : List α) (n t : Nat) : SeqEnumLen α :=
  ⟨⟨some n, numeral elements.length n t⟩, elements.drop (t + 1), elements.take (t + 1),
    SeqEnumLen.mkCurr (elements.take (t + 1)) (numeral elements.length n t)⟩

theorem sequencesAt_zero (elements : List α) (n : Nat)
    : SeqEnumLen.ofLengths n n elements = sequencesAt elements n 0 := by
  rw [SeqEnumLen.ofLengths, sequencesAt, numeral_zero, List.drop_one]
  rfl

/-- A step passes the size of the domain to the counter. -/
theorem increment_sequencesAt (elements : List α) (n t : Nat)
    : (sequencesAt elements n t).increment
      = match WordIter.incrementDigits (min (t + 2) elements.length % 2 ^ 32) (numeral elements.length n t) with
        | some data =>
            ⟨⟨some n, data⟩, elements.drop (t + 2), elements.take (t + 2),
              SeqEnumLen.mkCurr (elements.take (t + 2)) data⟩
        | none =>
            ⟨⟨some n, List.replicate n 0⟩, elements.drop (t + 2), elements.take (t + 2), none⟩ := by
  have domain : elements.take (t + 1) ++ (elements.drop (t + 1)).take 1 = elements.take (t + 2) :=
    List.take_add.symm
  unfold SeqEnumLen.increment sequencesAt WordIter.increment
  dsimp only
  rw [domain, List.length_take, List.tail_drop, length_numeral]
  cases WordIter.incrementDigits (min (t + 2) elements.length % 2 ^ 32) (numeral elements.length n t) with
  | none => simp
  | some data => rfl

theorem increment_sequencesAt_fits (nonempty : 0 < elements.length) (bound : t < elements.length ^ (n + 1))
    (fits : min (t + 2) elements.length < 2 ^ 32)
    : (t + 1 < elements.length ^ (n + 1)
        → (sequencesAt elements (n + 1) t).increment = sequencesAt elements (n + 1) (t + 1))
      ∧ (¬t + 1 < elements.length ^ (n + 1) → (sequencesAt elements (n + 1) t).increment.curr = none) := by
  rw [increment_sequencesAt, Nat.mod_eq_of_lt fits, incrementDigits_grown nonempty bound]
  constructor
  · intro more
    rw [if_pos more]
    rfl
  · intro last
    rw [if_neg last]

/-- The states follow each other while the size of the domain fits in 32 bits. -/
theorem states_sequences (nonempty : 0 < elements.length) (bound : t < elements.length ^ (n + 1))
    (fits : min (t + 1) elements.length < 2 ^ 32)
    : SeqEnumLen.increment^[t] (SeqEnumLen.ofLengths (n + 1) (n + 1) elements) = sequencesAt elements (n + 1) t := by
  induction t with
  | zero => exact sequencesAt_zero elements (n + 1)
  | succ t ih =>
      rw [Function.iterate_succ_apply', ih (by omega) (by omega)]
      exact (increment_sequencesAt_fits nonempty (by omega) fits).1 bound

theorem output_sequences (nonempty : 0 < elements.length) (bound : t < elements.length ^ (n + 1))
    (fits : min (t + 1) elements.length < 2 ^ 32)
    : (SeqEnumLen.ofLengths (n + 1) (n + 1) elements).output t
      = SeqEnumLen.mkCurr elements (numeral elements.length (n + 1) t) := by
  rw [SeqEnumLen.output, states_sequences nonempty bound fits]
  refine mkCurr_congr (fun d isDigit => ?_)
  have small := digit_le isDigit
  exact List.getElem?_take_of_lt (by omega)

/-- The sequences of a length over the elements. -/
def Sequences (elements : List α) (n : Nat) : Set (List α) := { s | s.length = n ∧ ∀ x ∈ s, x ∈ elements }

/-- Each sequence over fewer than `2 ^ 32` elements comes once, and then nothing. -/
theorem sequences_listed (distinct : elements.Nodup) (nonempty : 0 < elements.length)
    (fits : elements.length < 2 ^ 32)
    : ListsThenEnds (SeqEnumLen.ofLengths (n + 1) (n + 1) elements).output (Sequences elements (n + 1))
        (elements.length ^ (n + 1)) := by
  have many : 0 < elements.length ^ (n + 1) := Nat.pow_pos nonempty
  have bijective := (mkCurr_bijOn distinct (n + 1)).comp (numeral_bijOn nonempty (n + 1))
  refine listsThenEnds_of_bijOn (fun t bound => ?_) ?_ bijective
  · rw [output_sequences nonempty bound (by omega)]
    obtain ⟨s, isSequence⟩ := exists_sequence (numeral elements.length (n + 1) t)
      (fun d isDigit => digit_lt nonempty isDigit)
    dsimp only [Function.comp]
    rw [isSequence, Option.getD_some]
  · have isLast : elements.length ^ (n + 1) = (elements.length ^ (n + 1) - 1) + 1 := by omega
    rw [isLast, SeqEnumLen.output, Function.iterate_succ_apply', states_sequences nonempty (by omega) (by omega)]
    exact (increment_sequencesAt_fits nonempty (by omega) (by omega)).2 (by omega)

/-- With more elements the size of the domain wraps around, and the enumerator finishes too early. -/
theorem output_wrapped (many : 2 ^ 32 ≤ elements.length)
    : (SeqEnumLen.ofLengths (n + 1) (n + 1) elements).output (2 ^ 32 - 1) = none := by
  have bound : elements.length ≤ elements.length ^ (n + 1) := Nat.le_self_pow (by omega) _
  have before : (2 : Nat) ^ 32 - 1 = (2 ^ 32 - 2) + 1 := by omega
  have wrapped : min (2 ^ 32 - 2 + 2) elements.length % 2 ^ 32 = 0 := by omega
  rw [before, SeqEnumLen.output, Function.iterate_succ_apply', states_sequences (by omega) (by omega) (by omega),
    increment_sequencesAt, wrapped, incrementDigits_zero]

theorem sequences_listed_iff (distinct : elements.Nodup) (nonempty : 0 < elements.length)
    : ListsThenEnds (SeqEnumLen.ofLengths (n + 1) (n + 1) elements).output (Sequences elements (n + 1))
        (elements.length ^ (n + 1))
      ↔ elements.length < 2 ^ 32 := by
  refine ⟨fun listed => ?_, sequences_listed distinct nonempty⟩
  by_contra large
  have bound : elements.length ≤ elements.length ^ (n + 1) := Nat.le_self_pow (by omega) _
  obtain ⟨s, -, isOutput⟩ := listed.sound (2 ^ 32 - 1) (by omega)
  rw [output_wrapped (by omega)] at isOutput
  cases isOutput

end Sequences

end Ava6.Strings

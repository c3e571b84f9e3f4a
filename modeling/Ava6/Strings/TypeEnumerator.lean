import Ava6.Library.Numeral

/-! The enumerators of strings and of sequences. Words are counted, the first character fastest, and get longer
when the counter overflows; the elements of sequences are enumerated while their counter runs.
-/

namespace Ava6.Strings

open Library

/-- A counter of words, with a last length or without one. -/
structure WordIter where
  endLength : Option Nat
  data : List Nat

namespace WordIter

def ofLength (startLength : Nat) (endLength : Option Nat) : WordIter := ⟨endLength, List.replicate startLength 0⟩

/-- Increments the first digit that can be and resets those before it; nothing if there is none. -/
def incrementDigits (card : Nat) : List Nat → Option (List Nat)
  | [] => none
  | d :: rest => if d + 1 < card then some ((d + 1) :: rest) else (incrementDigits card rest).map (0 :: ·)

/-- `increment`, with whether there is a next word. -/
def increment (card : Nat) (w : WordIter) : WordIter × Bool :=
  match incrementDigits card w.data with
  | some data => ({ w with data }, true)
  | none =>
      let reset := List.replicate w.data.length 0
      if w.endLength = some w.data.length then ({ w with data := reset }, false)
      else ({ w with data := reset ++ [0] }, true)

end WordIter

/-- The character of a digit: the printable ones come first, the others wrap around. -/
def standardCharacter (cardinality v : Nat) : Nat :=
  if v ≤ 61 then v + 65
  else if v ≤ 94 then v - 30
  else (v + 32) % cardinality

def makeStandardModelConstant (vec : List Nat) (cardinality : Nat) : List Nat :=
  if cardinality ≥ 255 then vec.map (standardCharacter cardinality) else vec

/-- `d_curr` is null once the enumerator is finished. -/
structure StringEnumLen where
  witer : WordIter
  cardinality : Nat
  curr : Option (List Nat)

namespace StringEnumLen

def ofLength (startLength : Nat) (endLength : Option Nat) (card : Nat) : StringEnumLen :=
  let witer := WordIter.ofLength startLength endLength
  ⟨witer, card, some (makeStandardModelConstant witer.data card)⟩

def increment (e : StringEnumLen) : StringEnumLen :=
  match e.witer.increment e.cardinality with
  | (witer, true) => { e with witer, curr := some (makeStandardModelConstant witer.data e.cardinality) }
  | (witer, false) => { e with witer, curr := none }

/-- The current word after a number of steps. -/
def output (e : StringEnumLen) (step : Nat) : Option (List Nat) := (increment^[step] e).curr

end StringEnumLen

/-- The element enumerator as the values it has still to list, and the values listed so far. -/
structure SeqEnumLen (α : Type) where
  witer : WordIter
  elementEnumerator : List α
  elementDomain : List α
  curr : Option (List α)

namespace SeqEnumLen

variable {α : Type}

/-- The sequence of the elements at the digits. -/
def mkCurr (domain : List α) (data : List Nat) : Option (List α) := data.mapM (domain[·]?)

/-- With a start and an end length; the first element is taken at once. -/
def ofLengths (startLength endLength : Nat) (elements : List α) : SeqEnumLen α :=
  let witer := WordIter.ofLength startLength (some endLength)
  ⟨witer, elements.tail, elements.take 1, mkCurr (elements.take 1) witer.data⟩

/-- Takes one more element if there is one. The size of the domain is passed in 32 bits. -/
def increment (e : SeqEnumLen α) : SeqEnumLen α :=
  let domain := e.elementDomain ++ e.elementEnumerator.take 1
  let rest := e.elementEnumerator.tail
  match e.witer.increment (domain.length % 2 ^ 32) with
  | (witer, true) => ⟨witer, rest, domain, mkCurr domain witer.data⟩
  | (witer, false) => ⟨witer, rest, domain, none⟩

def output (e : SeqEnumLen α) (step : Nat) : Option (List α) := (increment^[step] e).curr

end SeqEnumLen

end Ava6.Strings

import Mathlib.Data.Nat.Digits.Defs

/-! Strings of code points, how they are printed with escapes and how text with escapes is read. The
reader keeps its position in a machine word, so that text may be too long for it to end.
-/

namespace Ava6.Util.InternalString

/-- Code points of the first three planes. -/
def numCodes : Nat := 196608

def isDigit (character : Nat) : Bool := decide (48 ≤ character ∧ character ≤ 57)

def isHexDigit (character : Nat) : Bool :=
  isDigit character || decide (65 ≤ character ∧ character ≤ 70)
    || decide (97 ≤ character ∧ character ≤ 102)

def isPrintable (character : Nat) : Bool := decide (32 ≤ character ∧ character ≤ 126)

def backslash : UInt8 := 92

def letterU : UInt8 := 117

def openBrace : UInt8 := 123

def closeBrace : UInt8 := 125

/-- A digit below sixteen as it is printed. -/
def hexDigit (digit : Nat) : UInt8 :=
  UInt8.ofNat (if digit < 10 then 48 + digit else 87 + digit)

/-- A number in base sixteen as it is printed. -/
def hexDigits (number : Nat) : List UInt8 :=
  if number = 0 then [hexDigit 0] else (Nat.digits 16 number).reverse.map hexDigit

def charToString (useEscSequences : Bool) (code : Nat) : List UInt8 :=
  if isPrintable code && code != 92 && !useEscSequences then [UInt8.ofNat code]
  else [backslash, letterU, openBrace] ++ hexDigits code ++ [closeBrace]

def toString (str : List Nat) (useEscSequences : Bool) : List UInt8 :=
  str.flatMap (charToString useEscSequences)

/-- Why reading gives no string: an exception, or the steps are used up. -/
inductive Stop
  | exception (message : String)
  | outOfSteps
deriving DecidableEq

def illegalCharacter (ch : UInt8) : String :=
  "Illegal string character: \"" ++ String.singleton (Char.ofNat ch.toNat)
    ++ "\", must use escape sequence"

def addCharToInternal (ch : UInt8) (str : List Nat) : Except Stop (List Nat) :=
  if ch.toNat > 127 ∨ ch.toNat < 32 then .error (.exception (illegalCharacter ch))
  else .ok (str ++ [ch.toNat])

/-- The character at a position. The code asks for positions inside the text only. -/
def charAt (s : List UInt8) (i : UInt32) : UInt8 := s.getD i.toNat 0

/-- The state of the loop that reads what follows a backslash and the letter. -/
structure Escape where
  i : UInt32
  nonEscCache : List Nat
  hexString : List UInt8
  isEscapeSequence : Bool
  isStart : Bool
  isEnd : Bool
  hasBrace : Bool

/-- Takes over the next character. -/
def Escape.take (escape : Escape) (si : UInt8) : Except Stop Escape := do
  let nonEscCache ← addCharToInternal si escape.nonEscCache
  return { escape with nonEscCache, i := escape.i + 1, isStart := false }

def escapeLoop (s : List UInt8) : Nat → Escape → Except Stop Escape
  | 0, _ => .error .outOfSteps
  | steps + 1, escape =>
      if escape.i.toNat < s.length then do
        let si := charAt s escape.i
        if escape.isStart && si == openBrace then
          escapeLoop s steps { ← escape.take si with hasBrace := true }
        else if !escape.isStart && si == closeBrace then
          return { ← escape.take si with
            isEscapeSequence := escape.hasBrace && !escape.hexString.isEmpty, isEnd := true }
        else if !isHexDigit si.toNat then
          return { escape with isStart := false, isEscapeSequence := false }
        else
          let escape := { ← escape.take si with hexString := escape.hexString ++ [si] }
          if !escape.hasBrace && escape.hexString.length == 4 then
            return { escape with isEnd := true }
          else if escape.hasBrace && decide (escape.hexString.length > 5) then
            return { escape with isEscapeSequence := false }
          else escapeLoop s steps escape
      else return escape

/-- The value of a hexadecimal digit of either case. -/
def hexDigitValue (digit : UInt8) : Nat :=
  if digit.toNat ≤ 57 then digit.toNat - 48
  else if digit.toNat ≤ 70 then digit.toNat - 55
  else digit.toNat - 87

def hexValue (digits : List UInt8) : Nat :=
  digits.foldl (fun value digit => value * 16 + hexDigitValue digit) 0

/-- Reads what follows a backslash, with the position and the characters that are kept if it is no
escape. -/
def readEscape (s : List UInt8) (steps : Nat) (i : UInt32) (nonEscCache : List Nat)
    : Except Stop Escape :=
  let start : Escape := ⟨i, nonEscCache, [], true, true, false, false⟩
  if s.length ≤ i.toNat || charAt s i != letterU then
    return { start with isEscapeSequence := false }
  else do
    let nonEscCache ← addCharToInternal (charAt s i) nonEscCache
    let escape ← escapeLoop s steps { start with nonEscCache, i := i + 1 }
    return { escape with isEscapeSequence := escape.isEnd && escape.isEscapeSequence }

/-- The code point of an escape, or the characters that were kept. -/
def Escape.codes (escape : Escape) : List Nat :=
  if escape.isEscapeSequence && decide (hexValue escape.hexString < numCodes) then
    [hexValue escape.hexString]
  else escape.nonEscCache

def internalLoop (s : List UInt8) (useEscSequences : Bool)
    : Nat → UInt32 → List Nat → Except Stop (List Nat)
  | 0, _, _ => .error .outOfSteps
  | steps + 1, i, str =>
      if i.toNat < s.length then do
        let si := charAt s i
        if si != backslash || !useEscSequences then
          internalLoop s useEscSequences steps (i + 1) (← addCharToInternal si str)
        else
          let nonEscCache ← addCharToInternal si []
          let escape ← readEscape s steps (i + 1) nonEscCache
          internalLoop s useEscSequences steps escape.i (str ++ escape.codes)
      else return str

def toInternal (s : List UInt8) (useEscSequences : Bool) (steps : Nat) : Except Stop (List Nat) :=
  internalLoop s useEscSequences steps 0 []

end Ava6.Util.InternalString

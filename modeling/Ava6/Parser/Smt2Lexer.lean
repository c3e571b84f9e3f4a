import Mathlib.Data.List.Basic

/-! The lexer for SMT-LIB: reading characters from a buffer or one by one, a single character
given back, and the shapes of tokens. Loops carry a bound, the number of unread characters.
-/

namespace Ava6.Parser

abbrev Byte := UInt8

/-- The byte of a character. -/
def byte (c : Char) : Byte := c.toUInt8

inductive Token
  | eofTok | asTok | attributeTok | binaryLiteral | decimalLiteral | hexLiteral | indexTok
  | integerLiteral | keyword | letTok | lparenTok | matchTok | parTok | quotedSymbol
  | rationalLiteral | rparenTok | stringLiteral | symbol | unterminatedQuotedSymbol
  | unterminatedStringLiteral
  deriving DecidableEq, Repr

inductive CharacterClass
  | whitespace | decimalDigit | hexadecimalDigit | bit | symbolStart | symbol | printable
  deriving DecidableEq, Repr

/-- The characters other than letters and digits that may occur in symbols. -/
def extraSymbolChars : List Byte :=
  ['+', '-', '/', '*', '=', '%', '?', '!', '.', '$', '_', '~', '&', '^', '<', '>', '@'].map byte

def isLetter (c : Byte) : Bool :=
  (byte 'a' ≤ c && c ≤ byte 'z') || (byte 'A' ≤ c && c ≤ byte 'Z')

def isDigit (c : Byte) : Bool := byte '0' ≤ c && c ≤ byte '9'

def isWhitespace (c : Byte) : Bool :=
  c == byte ' ' || c == byte '\t' || c == byte '\r' || c == byte '\n'

def charClass (c : Byte) : CharacterClass → Bool
  | .whitespace => isWhitespace c
  | .decimalDigit => isDigit c
  | .hexadecimalDigit =>
      isDigit c || (byte 'a' ≤ c && c ≤ byte 'f') || (byte 'A' ≤ c && c ≤ byte 'F')
  | .bit => c == byte '0' || c == byte '1'
  | .symbolStart => isLetter c || extraSymbolChars.contains c
  | .symbol => isLetter c || isDigit c || extraSymbolChars.contains c
  | .printable => (byte ' ' ≤ c && c ≤ byte '~') || isWhitespace c

/-- The end of the file is cast to the byte 255, which is in no class. -/
def isCharacterClass (ch : Option Byte) (cc : CharacterClass) : Bool := charClass (ch.getD 255) cc

def inputBufferSize : Nat := 32768

structure Lexer where
  istream : List Byte
  isInteractive : Bool
  buffer : List Byte
  bufferPos : Nat
  peekedChar : Bool
  chPeeked : Option Byte
  peeked : List Token
  isStrict : Bool
  token : List Byte

namespace Lexer

def openInput (isStrict isInteractive : Bool) (input : List Byte) : Lexer :=
  ⟨input, isInteractive, [], 0, false, some 0, [], isStrict, []⟩

/-- The characters that were not read, or were read and given back. -/
def unread (l : Lexer) : List Byte :=
  (if l.peekedChar then l.chPeeked.toList else []) ++ l.buffer.drop l.bufferPos ++ l.istream

def readNextChar (l : Lexer) : Option Byte × Lexer :=
  match l.buffer[l.bufferPos]? with
  | some ch => (some ch, { l with bufferPos := l.bufferPos + 1 })
  | none =>
      if l.isInteractive then
        match l.istream with
        | [] => (none, l)
        | ch :: rest => (some ch, { l with istream := rest })
      else
        match l.istream.take inputBufferSize with
        | [] => (none, { l with buffer := [], bufferPos := 0 })
        | ch :: rest =>
            (some ch, { l with
              istream := l.istream.drop inputBufferSize
              buffer := ch :: rest
              bufferPos := 1 })

def nextChar (l : Lexer) : Option Byte × Lexer :=
  if l.peekedChar then (l.chPeeked, { l with peekedChar := false })
  else l.readNextChar

def saveChar (l : Lexer) (ch : Option Byte) : Lexer :=
  { l with peekedChar := true, chPeeked := ch }

def pushToToken (l : Lexer) (ch : Option Byte) : Lexer := { l with token := l.token ++ ch.toList }

def parseCharListLoop (cc : CharacterClass) : Nat → Lexer → Lexer
  | 0, l => l
  | fuel + 1, l =>
      let (ch, l) := l.nextChar
      if isCharacterClass ch cc then parseCharListLoop cc fuel (l.pushToToken ch)
      else l.saveChar ch

/-- Characters of a class; the one after them is put back. -/
def parseCharList (l : Lexer) (cc : CharacterClass) : Lexer :=
  parseCharListLoop cc (l.unread.length + 1) l

/-- At least one character of a class. On failure the character is not put back. -/
def parseNonEmptyCharList (l : Lexer) (cc : CharacterClass) : Bool × Lexer :=
  let (ch, l) := l.nextChar
  if isCharacterClass ch cc then (true, (l.pushToToken ch).parseCharList cc) else (false, l)

def parseChar (l : Lexer) (cc : CharacterClass) : Bool × Lexer :=
  let (ch, l) := l.nextChar
  if isCharacterClass ch cc then (true, l.pushToToken ch) else (false, l)

/-- Skips to the end of a comment; false at the end of the file. -/
def skipComment : Nat → Lexer → Bool × Lexer
  | 0, l => (false, l)
  | fuel + 1, l =>
      match l.nextChar with
      | (none, l) => (false, l)
      | (some ch, l) => if ch = byte '\n' then (true, l) else skipComment fuel l

/-- The first character after white space and comments, if there is one. -/
def skipSeparators : Nat → Lexer → Option Byte × Lexer
  | 0, l => (none, l)
  | fuel + 1, l =>
      match l.nextChar with
      | (none, l) => (none, l)
      | (some ch, l) =>
          if isCharacterClass ch .whitespace then skipSeparators fuel l
          else if ch ≠ byte ';' then (some ch, l)
          else
            match skipComment (fuel + 1) l with
            | (false, l) => (none, l)
            | (true, l) => skipSeparators fuel l

def quotedSymbolLoop : Nat → Lexer → Token × Lexer
  | 0, l => (.unterminatedQuotedSymbol, l)
  | fuel + 1, l =>
      match l.nextChar with
      | (none, l) => (.unterminatedQuotedSymbol, l)
      | (some ch, l) =>
          let l := l.pushToToken ch
          if ch = byte '|' then (.quotedSymbol, l) else quotedSymbolLoop fuel l

/-- In a string literal two double quotes stand for one. -/
def stringLiteralLoop : Nat → Lexer → Except String (Token × Lexer)
  | 0, l => .ok (.unterminatedStringLiteral, l)
  | fuel + 1, l =>
      match l.nextChar with
      | (none, l) => .ok (.unterminatedStringLiteral, l)
      | (some ch, l) =>
          if !isCharacterClass ch .printable then
            .error "Non-printable character in string literal"
          else if ch = byte '"' then
            let l := l.pushToToken ch
            let (ch, l) := l.nextChar
            if ch ≠ some (byte '"') then .ok (.stringLiteral, l.saveChar ch)
            else stringLiteralLoop fuel (l.pushToToken ch)
          else stringLiteralLoop fuel (l.pushToToken ch)

/-- A negative numeral, decimal or rational after its sign, from the kind recognised so far. -/
def negativeLiteral (ret : Token) : List Byte → Token
  | [] => ret
  | c :: rest =>
      if isDigit c then negativeLiteral ret rest
      else if rest ≠ [] && ret = .integerLiteral then
        if c = byte '.' then negativeLiteral .decimalLiteral rest
        else if c = byte '/' then negativeLiteral .rationalLiteral rest
        else .symbol
      else .symbol

/-- The simple symbols that are tokens of their own. -/
def reservedTokens : List (List Byte × Token) :=
  [(['!'].map byte, .attributeTok), (['a', 's'].map byte, .asTok), (['p', 'a', 'r'].map byte, .parTok),
    (['l', 'e', 't'].map byte, .letTok), (['m', 'a', 't', 'c', 'h'].map byte, .matchTok),
    (['_'].map byte, .indexTok)]

def tokenizeCurrentSymbol (isStrict : Bool) (token : List Byte) : Token :=
  match reservedTokens.lookup token with
  | some tok => tok
  | none =>
      match token with
      | sign :: rest =>
          if sign = byte '-' && !isStrict && rest ≠ [] then negativeLiteral .integerLiteral rest
          else .symbol
      | [] => .symbol

/-- A list of characters that must not be empty, or an error. -/
def expectCharList (l : Lexer) (cc : CharacterClass) (tok : Token) (msg : String)
    : Except String (Token × Lexer) :=
  match l.parseNonEmptyCharList cc with
  | (true, l) => .ok (tok, l)
  | (false, _) => .error msg

def numberToken (l : Lexer) : Except String (Token × Lexer) :=
  let (ch, l) := (l.parseCharList .decimalDigit).nextChar
  if ch = some (byte '.') then
    (l.pushToToken ch).expectCharList .decimalDigit .decimalLiteral
      "Error expected decimal string following ."
  else if ch = some (byte '/') then
    (l.pushToToken ch).expectCharList .decimalDigit .rationalLiteral
      "Error expected decimal string following ."
  else .ok (.integerLiteral, l.saveChar ch)

def hashToken (l : Lexer) : Except String (Token × Lexer) :=
  let (ch, l) := l.nextChar
  if ch = some (byte 'b') then
    (l.pushToToken ch).expectCharList .bit .binaryLiteral "Error expected bit string"
  else if ch = some (byte 'x') then
    (l.pushToToken ch).expectCharList .hexadecimalDigit .hexLiteral
      "Error expected hexadecimal string"
  else .error "Error finding token following #"

/-- The result of the list after the first character of a keyword is not looked at. -/
def keywordToken (l : Lexer) : Except String (Token × Lexer) :=
  match l.parseChar .symbolStart with
  | (false, _) => .error "Error expected symbol following :"
  | (true, l) => .ok (.keyword, (l.parseNonEmptyCharList .symbol).2)

def computeNextToken (l : Lexer) : Except String (Token × Lexer) :=
  match skipSeparators (l.unread.length + 1) l with
  | (none, l) => .ok (.eofTok, l)
  | (some ch, l) =>
      let l := l.pushToToken ch
      if ch = byte '(' then .ok (.lparenTok, l)
      else if ch = byte ')' then .ok (.rparenTok, l)
      else if ch = byte '|' then .ok (quotedSymbolLoop (l.unread.length + 1) l)
      else if ch = byte '#' then l.hashToken
      else if ch = byte '"' then stringLiteralLoop (l.unread.length + 1) l
      else if ch = byte ':' then l.keywordToken
      else if isCharacterClass ch .decimalDigit then l.numberToken
      else if isCharacterClass ch .symbolStart then
        let l := l.parseCharList .symbol
        .ok (tokenizeCurrentSymbol l.isStrict l.token, l)
      else .error "Error finding token"

def nextTokenInternal (l : Lexer) : Except String (Token × Lexer) :=
  computeNextToken { l with token := [] }

def nextToken (l : Lexer) : Except String (Token × Lexer) :=
  match l.peeked with
  | [] => l.nextTokenInternal
  | t :: rest => .ok (t, { l with peeked := rest })

/-- The text of the last token, a string that ends at the first zero byte. -/
def tokenStr (l : Lexer) : List Byte := l.token.takeWhile (· ≠ 0)

/-- A token that was read: the characters in it, its text for the parser, and what was unread
after it. -/
structure Call where
  token : Token
  chars : List Byte
  text : List Byte
  left : List Byte
  deriving DecidableEq

/-- Calls of `nextToken` until the end of the file. -/
def readTokens : Nat → Lexer → Except String (List Call)
  | 0, _ => .error "bound reached"
  | fuel + 1, l =>
      match l.nextToken with
      | .error msg => .error msg
      | .ok (.eofTok, _) => .ok []
      | .ok (tok, l) =>
          match readTokens fuel l with
          | .error msg => .error msg
          | .ok calls => .ok (⟨tok, l.token, l.tokenStr, l.unread⟩ :: calls)

end Lexer

end Ava6.Parser

import Ava6.Parser.Tokenisation

/-! Symbols printed and read back. The printer quotes by a table of characters; the lexer has its
own table and turns some simple symbols into other tokens.
-/

namespace Ava6.Parser

open Lexer

/-- The characters of simple symbols beside letters and digits. -/
def simpleSymbolChars : List Byte :=
  ['~', '!', '@', '$', '%', '^', '&', '*', '_', '-', '+', '=', '<', '>', '.', '?', '/'].map byte

def isSimpleChar (c : Byte) : Bool := isLetter c || isDigit c || simpleSymbolChars.contains c

/-- Bars and backslashes cannot be quoted. -/
def replaceQuotes (s : List Byte) : List Byte :=
  s.map fun c => if c = byte '\\' ∨ c = byte '|' then byte '_' else c

def quoteSymbol : List Byte → List Byte
  | [] => [byte '|', byte '|']
  | first :: rest =>
      let s := first :: rest
      if s.all isSimpleChar && !isDigit first then s
      else if first = byte '|' ∧ s.getLast? = some (byte '|') ∧ s.length > 1 then
        byte '|' :: replaceQuotes rest.dropLast ++ [byte '|']
      else byte '|' :: replaceQuotes s ++ [byte '|']

inductive SymbolError
  | parseError (msg : String) (eofException : Bool)
  | unexpectedToken (tok : Token) (info : String) (got : List Byte)
  | outOfRange
  deriving DecidableEq

/-- The symbol of a token with a text. Erasing the last character of an empty string throws. -/
def tokenStrToSymbol (tok : Token) (tokenStr : List Byte) : Except SymbolError (List Byte) :=
  match tok with
  | .symbol => .ok tokenStr
  | .quotedSymbol =>
      match tokenStr.drop 1 with
      | [] => .error .outOfRange
      | c :: rest => .ok (c :: rest).dropLast
  | .unterminatedQuotedSymbol => .error (.parseError "Expected SMT-LIBv2 symbol" true)
  | tok => .error (.unexpectedToken tok "Expected SMT-LIBv2 symbol" tokenStr)

/-- A text read as one token, which is a symbol `s`. -/
def ReadsAsSymbol (strict interactive : Bool) (text s : List Byte) : Prop :=
  ∃ call, readTokens 2 (openInput strict interactive text) = .ok [call]
    ∧ (call.token = .symbol ∨ call.token = .quotedSymbol)
    ∧ tokenStrToSymbol call.token call.text = .ok s

/-- The simple symbols that are other tokens. -/
def reservedWords : List (List Byte) :=
  [['!'], ['_'], ['a', 's'], ['p', 'a', 'r'], ['l', 'e', 't'], ['m', 'a', 't', 'c', 'h']].map
    (·.map byte)

/-- Digits, or a dot or slash among digits with at least one on the right of it. -/
def hasNumberShape (rest : List Byte) : Bool :=
  match rest.dropWhile isDigit with
  | [] => true
  | c :: back => (c == byte '.' || c == byte '/') && !back.isEmpty && back.all isDigit

/-- A minus sign before something with the shape of a number. -/
def isNegativeNumber : List Byte → Bool
  | [] => false
  | sign :: rest => sign == byte '-' && !rest.isEmpty && hasNumberShape rest

/-- The two tables agree. -/
theorem isSimpleChar_iff (c : Byte) : isSimpleChar c = charClass c .symbol := by
  have same : simpleSymbolChars.contains c = extraSymbolChars.contains c := by
    rw [Bool.eq_iff_iff, List.contains_iff_mem, List.contains_iff_mem]
    exact List.Perm.mem_iff (by decide)
  simp only [isSimpleChar, charClass, same]

theorem byte_forall {holds : Byte → Prop} (all : ∀ i : Fin 256, holds (UInt8.ofFin i)) (c : Byte)
    : holds c := by
  simpa using all c.toFin

theorem symbolStart_iff (c : Byte)
    : charClass c .symbolStart = (charClass c .symbol && !isDigit c) := by
  revert c
  exact byte_forall (by decide +kernel)

variable {c : Byte}

/-- A symbol character opens no other token. -/
theorem scanToken_symbolStart (starts : charClass c .symbolStart = true) (strict : Bool)
    (rest : List Byte)
    : scanToken strict c rest
      = .ok (tokenizeCurrentSymbol strict (c :: rest.takeWhile (charClass · .symbol)),
        rest.takeWhile (charClass · .symbol), rest.dropWhile (charClass · .symbol)) := by
  have other {d : Byte} (outside : charClass d .symbolStart = false) : c ≠ d := by
    rintro rfl
    rw [starts] at outside
    contradiction
  have notDigit : charClass c .decimalDigit = false := by
    rw [symbolStart_iff, Bool.and_eq_true, Bool.not_eq_true'] at starts
    exact starts.2
  rw [scanToken, if_neg (other (by decide)), if_neg (other (by decide)), if_neg (other (by decide)),
    if_neg (other (by decide)), if_neg (other (by decide)), if_neg (other (by decide)),
    if_neg (by simp [notDigit]), if_pos starts]

variable {interactive strict : Bool} {rest : List Byte}

/-- A run over one token and white space. -/
theorem readTokens_one {text after : List Byte}
    {tok : Token} (starts : startsToken c = true)
    (scanned : scanToken strict c rest = .ok (tok, text, after)) (nothing : skip false after = [])
    : readTokens 2 (openInput strict interactive (c :: rest))
      = .ok [⟨tok, c :: text, (c :: text).takeWhile (· ≠ 0), after⟩] := by
  have first := nextToken_at (openInput_at strict interactive (c :: rest))
  simp only [skip_startsToken starts, scanned] at first
  obtain ⟨l', isOk, at'⟩ := first
  have second := nextToken_at at'
  simp only [nothing] at second
  obtain ⟨l'', isEof⟩ := second
  have notEof := scanToken_notEof strict c rest tok text after scanned
  have chars : l'.token = c :: text := at'.token
  simp [readTokens, isOk, isEof, tokenStr, chars, at'.rest]

/-- After the separator only digits follow. -/
theorem negativeLiteral_digits {ret : Token} (other : ret ≠ .integerLiteral) (rest : List Byte)
    : negativeLiteral ret rest = if rest.all isDigit then ret else .symbol := by
  induction rest with
  | nil => rfl
  | cons c more ih =>
    cases digit : isDigit c with
    | true => simp [negativeLiteral, digit, ih]
    | false => simp [negativeLiteral, digit, other]

/-- The kinds of numbers after a minus sign. -/
theorem negativeLiteral_integer (rest : List Byte)
    : negativeLiteral .integerLiteral rest
      = match rest.dropWhile isDigit with
        | [] => .integerLiteral
        | c :: back =>
            if back ≠ [] ∧ back.all isDigit = true then
              if c = byte '.' then .decimalLiteral
              else if c = byte '/' then .rationalLiteral
              else .symbol
            else .symbol := by
  induction rest with
  | nil => rfl
  | cons c more ih =>
    cases digit : isDigit c with
    | true => simpa [negativeLiteral, digit] using ih
    | false =>
      simp only [negativeLiteral, List.dropWhile_cons, digit, Bool.false_eq_true, if_false]
      rw [negativeLiteral_digits (by decide), negativeLiteral_digits (by decide)]
      by_cases empty : more = []
      · simp [empty]
      · cases digits : more.all isDigit <;> simp [empty]

/-- A number after the minus sign is no symbol, and the other way round. -/
theorem negativeLiteral_symbol_iff (rest : List Byte)
    : negativeLiteral .integerLiteral rest = .symbol ↔ hasNumberShape rest = false := by
  rw [negativeLiteral_integer, hasNumberShape]
  cases rest.dropWhile isDigit with
  | nil => simp
  | cons c back =>
    by_cases dot : c = byte '.'
    · cases digits : back.all isDigit <;> cases back <;> simp_all
    by_cases slash : c = byte '/'
    · cases digits : back.all isDigit <;> cases back <;> simp_all
    · simp [dot, slash]

/-- Reserved words are looked up, and none of them is a symbol. -/
theorem lookup_reserved (token : List Byte)
    : match reservedTokens.lookup token with
      | none => token ∉ reservedWords
      | some tok => token ∈ reservedWords ∧ tok ≠ .symbol := by
  cases found : reservedTokens.lookup token with
  | none =>
    have absent := List.lookup_eq_none_iff.mp found
    intro member
    have listed : ∀ word ∈ reservedWords, ∃ entry ∈ reservedTokens, entry.1 = word := by decide
    obtain ⟨entry, isEntry, rfl⟩ := listed token member
    simpa using absent entry isEntry
  | some tok =>
    obtain ⟨before, after, parts, _⟩ := List.lookup_eq_some_iff.mp found
    have member : (token, tok) ∈ reservedTokens := by simp [parts]
    have all : ∀ entry ∈ reservedTokens, entry.1 ∈ reservedWords ∧ entry.2 ≠ .symbol := by decide
    exact all _ member

/-- A token is read as a symbol just if it is no reserved word and, in the other mode, no negative number. -/
theorem tokenizeCurrentSymbol_iff (strict : Bool) (token : List Byte)
    : tokenizeCurrentSymbol strict token = .symbol
      ↔ token ∉ reservedWords ∧ (strict = true ∨ isNegativeNumber token = false) := by
  have reserved := lookup_reserved token
  unfold tokenizeCurrentSymbol
  cases found : reservedTokens.lookup token with
  | some tok =>
    simp only [found] at reserved
    simp [reserved]
  | none =>
    simp only [found] at reserved
    simp only [reserved, not_false_eq_true, true_and]
    cases token with
    | nil => simp [isNegativeNumber]
    | cons sign rest =>
      by_cases negative : sign = byte '-' ∧ strict = false ∧ rest ≠ []
      · obtain ⟨rfl, rfl, nonempty⟩ := negative
        simpa [nonempty, isNegativeNumber] using negativeLiteral_symbol_iff rest
      · have noReparse : (sign = byte '-' && !strict && rest ≠ []) = false := by
          simpa [and_assoc] using negative
        have notNumber : strict = true ∨ isNegativeNumber (sign :: rest) = false := by
          by_cases isMinus : sign = byte '-' <;> cases strict <;> cases rest <;>
            simp_all [isNegativeNumber]
        simp only [noReparse, Bool.false_eq_true, if_false, true_iff]
        exact notNumber

variable {ws : List Byte}

theorem takeWhile_symbol (simple : rest.all (charClass · .symbol) = true)
    (white : ws.all isWhitespace = true)
    : (rest ++ ws).takeWhile (charClass · .symbol) = rest
      ∧ (rest ++ ws).dropWhile (charClass · .symbol) = ws := by
  have all : ∀ c ∈ rest, charClass c .symbol = true := List.all_eq_true.mp simple
  have stops : ws.takeWhile (charClass · .symbol) = [] ∧ ws.dropWhile (charClass · .symbol) = ws := by
    cases ws with
    | nil => exact ⟨rfl, rfl⟩
    | cons c more =>
      have disjoint : ∀ c, isWhitespace c = true → charClass c .symbol = false :=
        byte_forall (by decide +kernel)
      simp only [List.all_cons, Bool.and_eq_true] at white
      simp [disjoint c white.1]
  rw [List.takeWhile_append_of_pos all, List.dropWhile_append_of_pos all, stops.1, stops.2]
  simp

theorem skip_white (white : ws.all isWhitespace = true) : skip false ws = [] := by
  induction ws with
  | nil => rfl
  | cons c more ih =>
    simp only [List.all_cons, Bool.and_eq_true] at white
    simp [skip, white.1, ih white.2]

/-- A simple symbol is read as itself, unless it is another token. -/
theorem readsAsSymbol_simple
    (starts : charClass c .symbolStart = true) (simple : rest.all (charClass · .symbol) = true)
    (white : ws.all isWhitespace = true)
    : ReadsAsSymbol strict interactive (c :: rest ++ ws) (c :: rest)
      ↔ c :: rest ∉ reservedWords ∧ (strict = true ∨ isNegativeNumber (c :: rest) = false) := by
  obtain ⟨taken, left⟩ := takeWhile_symbol simple white
  have scanned := scanToken_symbolStart starts strict (rest ++ ws)
  rw [taken, left] at scanned
  have opens : ∀ c, charClass c .symbolStart = true → startsToken c = true :=
    byte_forall (by decide +kernel)
  have run : readTokens 2 (openInput strict interactive (c :: rest ++ ws)) = _ :=
    readTokens_one (opens c starts) scanned (skip_white white)
  have text : (c :: rest).takeWhile (· ≠ 0) = c :: rest := by
    have first : Classed [c] := .single .symbolStart starts
    have others : Classed rest := fun d member =>
      ⟨.symbol, nofun, List.all_eq_true.mp simple d member⟩
    rw [text_eq_chars_iff]
    simpa using (first.append others).not_zero
  rw [← tokenizeCurrentSymbol_iff]
  constructor
  · intro ⟨call, isRun, isSymbol, _⟩
    rw [run] at isRun
    cases isRun
    rcases isSymbol with isSymbol | isQuoted
    · exact isSymbol
    · have member := tokenizeCurrentSymbol_mem strict (c :: rest)
      simp only at isQuoted
      rw [isQuoted] at member
      exact absurd member (by decide)
  · intro isSymbol
    refine ⟨_, run, .inl isSymbol, ?_⟩
    simp only [isSymbol, tokenStrToSymbol, text]

variable {s : List Byte}

theorem quotedTail_bar (noBar : byte '|' ∉ s) (rest : List Byte)
    : quotedTail (s ++ byte '|' :: rest) = (.quotedSymbol, s ++ [byte '|'], rest) := by
  induction s with
  | nil => simp [quotedTail]
  | cons c more ih =>
    simp only [List.mem_cons, not_or] at noBar
    simp [quotedTail, Ne.symm noBar.1, ih noBar.2]

theorem scanToken_bar (strict : Bool) (rest : List Byte)
    : scanToken strict (byte '|') rest = .ok (quotedTail rest) := by
  rw [scanToken, if_neg (by decide), if_neg (by decide), if_pos rfl]

/-- Erasing the bars gives the quoted characters, unless the text was cut. -/
theorem tokenStrToSymbol_quoted (s : List Byte)
    : tokenStrToSymbol .quotedSymbol ((byte '|' :: s ++ [byte '|']).takeWhile (· ≠ 0)) = .ok s
      ↔ 0 ∉ s := by
  have barNotZero : byte '|' ≠ 0 := by decide
  by_cases zero : 0 ∈ s
  · have cut : (byte '|' :: s ++ [byte '|']).takeWhile (· ≠ 0)
        = byte '|' :: s.takeWhile (· ≠ 0) := by
      have stops : (s.takeWhile (· ≠ 0)).length ≠ s.length := by
        intro sameLength
        have same : s.takeWhile (· ≠ 0) = s :=
          List.IsPrefix.eq_of_length (List.takeWhile_prefix _) sameLength
        rw [text_eq_chars_iff] at same
        simp [zero] at same
      rw [List.cons_append, List.takeWhile_cons_of_pos (by simpa using barNotZero),
        List.takeWhile_append, if_neg stops]
    simp only [zero, not_true_eq_false, iff_false, cut, tokenStrToSymbol, List.drop_one,
      List.tail_cons]
    have shorter : (s.takeWhile (· ≠ 0)).length ≤ s.length := (List.takeWhile_sublist _).length_le
    split
    · exact nofun
    · next c rest isRest =>
      rw [isRest] at shorter
      intro same
      have lengths := congrArg List.length (Except.ok.inj same)
      simp at lengths shorter
      omega
  · have whole : (byte '|' :: s ++ [byte '|']).takeWhile (· ≠ 0) = byte '|' :: s ++ [byte '|'] := by
      rw [text_eq_chars_iff]
      simpa [Ne.symm barNotZero] using zero
    rw [whole]
    simp only [zero, not_false_eq_true, iff_true, tokenStrToSymbol, List.cons_append, List.drop_one,
      List.tail_cons]
    cases s with
    | nil => rfl
    | cons c rest => 
      have erased : ((c :: rest) ++ [byte '|']).dropLast = c :: rest := List.dropLast_concat
      exact congrArg Except.ok erased

/-- A quoted symbol is read as itself, unless it has a zero byte. -/
theorem readsAsSymbol_quoted (noBar : byte '|' ∉ s)
    (white : ws.all isWhitespace = true)
    : ReadsAsSymbol strict interactive (byte '|' :: s ++ [byte '|'] ++ ws) s ↔ 0 ∉ s := by
  have scanned := scanToken_bar strict (s ++ byte '|' :: ws)
  rw [quotedTail_bar noBar] at scanned
  have run : readTokens 2 (openInput strict interactive (byte '|' :: (s ++ byte '|' :: ws))) = _ :=
    readTokens_one (by decide) scanned (skip_white white)
  rw [← tokenStrToSymbol_quoted, ReadsAsSymbol]
  simp only [List.cons_append, List.append_assoc, List.nil_append]
  rw [run]
  constructor
  · intro ⟨call, isRun, _, isSame⟩
    cases isRun
    exact isSame
  · intro isSame
    exact ⟨_, rfl, .inr rfl, isSame⟩

/-- The symbols that are not quoted. -/
def isSimpleSymbol : List Byte → Bool
  | [] => false
  | first :: rest => (first :: rest).all isSimpleChar && !isDigit first

theorem quoteSymbol_simple (simple : isSimpleSymbol s = true) : quoteSymbol s = s := by
  cases s with
  | nil => contradiction
  | cons first rest =>
    simp only [isSimpleSymbol] at simple
    simp only [quoteSymbol, simple, if_true]

theorem quoteSymbol_quotes (noBar : byte '|' ∉ s) (noBackslash : byte '\\' ∉ s)
    (notSimple : isSimpleSymbol s = false) : quoteSymbol s = byte '|' :: s ++ [byte '|'] := by
  cases s with
  | nil => rfl
  | cons first rest =>
    simp only [isSimpleSymbol] at notSimple
    have kept : replaceQuotes (first :: rest) = first :: rest := by
      refine (List.map_congr_left fun c member => if_neg ?_).trans (List.map_id _)
      rintro (rfl | rfl)
      · exact noBackslash member
      · exact noBar member
    have noOuter : first ≠ byte '|' := fun isBar => noBar (isBar ▸ List.mem_cons_self)
    simp only [quoteSymbol, notSimple, noOuter, Bool.false_eq_true, if_false, false_and, kept]

theorem hasNumberShape_all (shape : hasNumberShape rest = true)
    : rest.all isSimpleChar = true := by
  have digits : ∀ c, isDigit c = true → isSimpleChar c = true := fun c digit => by
    simp [isSimpleChar, digit]
  rw [← List.takeWhile_append_dropWhile (p := isDigit) (l := rest), List.all_append,
    Bool.and_eq_true]
  refine ⟨List.all_eq_true.mpr fun c member => digits c (List.mem_takeWhile_imp member), ?_⟩
  unfold hasNumberShape at shape
  cases left : rest.dropWhile isDigit with
  | nil => rfl
  | cons c back =>
    simp only [left, Bool.and_eq_true, Bool.or_eq_true, beq_iff_eq] at shape
    obtain ⟨⟨separator, _⟩, backDigits⟩ := shape
    have simple : isSimpleChar c = true := by
      rcases separator with rfl | rfl <;> decide
    rw [List.all_cons, simple, Bool.true_and]
    exact List.all_eq_true.mpr fun d member => digits d (List.all_eq_true.mp backDigits d member)

/-- Reserved words and negative numbers are not quoted. -/
theorem isSimpleSymbol_of_other
    (other : s ∈ reservedWords ∨ isNegativeNumber s = true) : isSimpleSymbol s = true := by
  rcases other with reserved | negative
  · have all : ∀ word ∈ reservedWords, isSimpleSymbol word = true := by decide
    exact all s reserved
  · cases s with
    | nil => contradiction
    | cons sign rest =>
      simp only [isNegativeNumber, Bool.and_eq_true, beq_iff_eq] at negative
      obtain ⟨⟨rfl, _⟩, shape⟩ := negative
      have sign : isSimpleChar (byte '-') = true ∧ isDigit (byte '-') = false := by decide
      simp [isSimpleSymbol, sign, hasNumberShape_all shape]

/-- A symbol without bars and backslashes that is printed and read back, with white space after it,
is the same symbol, exactly when it is no reserved word, outside strict parsing no negative number,
and has no zero byte. -/
theorem quoteSymbol_readsAsSymbol (s ws : List Byte) (strict interactive : Bool)
    (noBar : byte '|' ∉ s) (noBackslash : byte '\\' ∉ s) (white : ws.all isWhitespace = true)
    : ReadsAsSymbol strict interactive (quoteSymbol s ++ ws) s
      ↔ s ∉ reservedWords ∧ (strict = true ∨ isNegativeNumber s = false) ∧ 0 ∉ s := by
  cases simple : isSimpleSymbol s with
  | true =>
    rw [quoteSymbol_simple simple]
    cases s with
    | nil => contradiction
    | cons first rest =>
      simp only [isSimpleSymbol, Bool.and_eq_true, Bool.not_eq_true'] at simple
      obtain ⟨all, notDigit⟩ := simple
      have noZero : 0 ∉ first :: rest := fun member =>
        absurd (List.all_eq_true.mp all 0 member) (by decide)
      rw [funext isSimpleChar_iff, List.all_cons, Bool.and_eq_true] at all
      have starts : charClass first .symbolStart = true := by
        rw [symbolStart_iff, all.1, notDigit]
        rfl
      rw [readsAsSymbol_simple starts all.2 white]
      simp only [noZero, not_false_eq_true, and_true]
  | false =>
    have notOther (other : s ∈ reservedWords ∨ isNegativeNumber s = true) : False := by
      rw [isSimpleSymbol_of_other other] at simple
      contradiction
    have notReserved : s ∉ reservedWords := fun member => notOther (.inl member)
    have notNumber : isNegativeNumber s = false :=
      Bool.eq_false_iff.mpr fun negative => notOther (.inr negative)
    rw [quoteSymbol_quotes noBar noBackslash simple, readsAsSymbol_quoted noBar white]
    simp [notReserved, notNumber]

theorem quoteSymbol_readsAsSymbol_numeral
    : ReadsAsSymbol false false (quoteSymbol (['1', '2'].map byte) ++ [byte ' '])
      (['1', '2'].map byte) :=
  (quoteSymbol_readsAsSymbol _ _ false false (by decide) (by decide) (by decide)).mpr (by decide)

/-- A reserved word is printed without bars. -/
theorem quoteSymbol_loses_let
    : ¬ ReadsAsSymbol true false (quoteSymbol (['l', 'e', 't'].map byte) ++ [byte ' '])
      (['l', 'e', 't'].map byte) := by
  rw [quoteSymbol_simple (by decide), List.map_cons,
    readsAsSymbol_simple (by decide) (by decide) (by decide)]
  decide

end Ava6.Parser

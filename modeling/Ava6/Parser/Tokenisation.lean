import Mathlib.Data.List.TakeWhile
import Ava6.Parser.LexerView

/-! Tokens and separators cover the input, unless the character after a keyword of one character is
needed or a zero byte is quoted.
-/

namespace Ava6.Parser.Lexer

-- Separators

/-- White space and comments with their line ends. -/
inductive Separators : List Byte → Prop
  | nil : Separators []
  | space {c : Byte} {rest : List Byte} (white : isWhitespace c = true) (more : Separators rest)
    : Separators (c :: rest)
  | comment {body rest : List Byte} (inLine : byte '\n' ∉ body) (more : Separators rest)
    : Separators (byte ';' :: body ++ byte '\n' :: rest)

/-- At the end of the input the last comment needs no line end. -/
def LastSeparators (rest : List Byte) : Prop :=
  Separators rest
    ∨ ∃ before body, Separators before ∧ byte '\n' ∉ body ∧ rest = before ++ byte ';' :: body

/-- A character that neither is white space nor opens a comment. -/
def startsToken (c : Byte) : Bool := !isWhitespace c && c != byte ';'

variable {rest : List Byte}

theorem skip_comment {body : List Byte} (inLine : byte '\n' ∉ body)
    : skip true (body ++ byte '\n' :: rest) = skip false rest := by
  induction body with
  | nil => simp [skip]
  | cons c more ih =>
    simp only [List.mem_cons, not_or] at inLine
    simp [skip, Ne.symm inLine.1, ih inLine.2]

theorem skip_comment_last {body : List Byte} (inLine : byte '\n' ∉ body) : skip true body = [] := by
  induction body with
  | nil => rfl
  | cons c more ih =>
    simp only [List.mem_cons, not_or] at inLine
    simp [skip, Ne.symm inLine.1, ih inLine.2]

theorem skip_semicolon (rest : List Byte) : skip false (byte ';' :: rest) = skip true rest := by
  have notWhite : isWhitespace (byte ';') = false := by decide
  simp [skip, notWhite]

variable {front : List Byte}

/-- Separators are skipped, by induction on them. -/
theorem Separators.skip (separators : Separators front)
    : skip false (front ++ rest) = Lexer.skip false rest := by
  induction separators with
  | nil => rfl
  | space white _ ih => simpa [Lexer.skip, white] using ih
  | @comment body more inLine _ ih =>
    rw [List.append_assoc, List.cons_append, skip_semicolon, List.cons_append,
      skip_comment inLine, ih]

variable {c : Byte}

theorem skip_startsToken (starts : startsToken c = true)
    : skip false (c :: rest) = c :: rest := by
  simp only [startsToken, Bool.and_eq_true, Bool.not_eq_true', bne_iff_ne] at starts
  simp [skip, starts.1, starts.2]

theorem LastSeparators.skip (separators : LastSeparators rest)
    : skip false rest = [] := by
  rcases separators with all | ⟨before, body, complete, inLine, rfl⟩
  · have skipped : Lexer.skip false (rest ++ []) = [] := all.skip
    simpa using skipped
  · rw [complete.skip, skip_semicolon, skip_comment_last inLine]

/-- Inside a comment its start is behind. -/
def withStart (inComment : Bool) (front : List Byte) : List Byte :=
  if inComment then byte ';' :: front else front

theorem Separators.longer (separators : Separators (byte ';' :: front))
    (inLine : c ≠ byte '\n') : Separators (byte ';' :: c :: front) := by
  generalize same : byte ';' :: front = whole at separators
  cases separators with
  | nil => contradiction
  | space white _ =>
    obtain ⟨rfl, rfl⟩ := List.cons.inj same
    exact absurd white (by decide)
  | @comment body rest short more =>
    obtain ⟨_, rfl⟩ := List.cons.inj same
    have inLonger : byte '\n' ∉ c :: body := by simpa [Ne.symm inLine] using short
    exact .comment inLonger more

theorem LastSeparators.longer
    (separators : LastSeparators (byte ';' :: rest)) (inLine : c ≠ byte '\n')
    : LastSeparators (byte ';' :: c :: rest) := by
  rcases separators with all | ⟨before, body, complete, short, same⟩
  · exact .inl (all.longer inLine)
  · cases before with
    | nil =>
      obtain ⟨_, rfl⟩ := List.cons.inj same
      exact .inr ⟨[], c :: rest, .nil, by simpa [Ne.symm inLine] using short, rfl⟩
    | cons d more =>
      obtain ⟨rfl, rfl⟩ := List.cons.inj same
      exact .inr ⟨byte ';' :: c :: more, body, complete.longer inLine, short, rfl⟩

variable {inComment : Bool}

/-- Separators stand before what is found, by induction on the characters. -/
theorem skip_cons {more : List Byte}
    (found : skip inComment rest = c :: more)
    : ∃ front, Separators (withStart inComment front) ∧ rest = front ++ c :: more := by
  induction rest generalizing inComment with
  | nil => cases inComment <;> simp [Lexer.skip] at found
  | cons d rest ih =>
    cases inComment with
    | false =>
      simp only [Lexer.skip] at found
      split at found
      · next white =>
        obtain ⟨front, separators, rfl⟩ := ih found
        exact ⟨d :: front, .space white separators, rfl⟩
      split at found
      · exact ⟨[], .nil, found⟩
      · next opens =>
        obtain ⟨front, separators, rfl⟩ := ih found
        exact ⟨d :: front, by simpa [withStart, not_not.mp opens] using separators, rfl⟩
    | true =>
      simp only [Lexer.skip] at found
      split at found
      · next ends =>
        obtain ⟨front, separators, rfl⟩ := ih found
        exact ⟨d :: front, ends ▸ .comment (List.not_mem_nil) separators, rfl⟩
      · next inLine =>
        obtain ⟨front, separators, rfl⟩ := ih found
        exact ⟨d :: front, separators.longer inLine, rfl⟩

theorem LastSeparators.append (separators : Separators front)
    (last : LastSeparators rest) : LastSeparators (front ++ rest) := by
  have joined {rest : List Byte} (more : Separators rest) : Separators (front ++ rest) := by
    clear last
    induction separators with
    | nil => exact more
    | space white _ ih => exact .space white ih
    | comment inLine _ ih => simpa using Separators.comment inLine ih
  rcases last with all | ⟨before, body, complete, short, rfl⟩
  · exact .inl (joined all)
  · exact .inr ⟨front ++ before, body, joined complete, short, by simp⟩

/-- Where nothing is found everything is a separator, by induction on the characters. -/
theorem skip_nil (nothing : skip inComment rest = [])
    : LastSeparators (withStart inComment rest) := by
  induction rest generalizing inComment with
  | nil =>
    cases inComment with
    | false => exact .inl .nil
    | true => exact .inr ⟨[], [], .nil, List.not_mem_nil, rfl⟩
  | cons d rest ih =>
    cases inComment with
    | false =>
      simp only [Lexer.skip] at nothing
      split at nothing
      · next white =>
        exact LastSeparators.append (.space white .nil) (ih nothing)
      split at nothing
      · contradiction
      · next opens => simpa [withStart, not_not.mp opens] using ih nothing
    | true =>
      simp only [Lexer.skip] at nothing
      split at nothing
      · next ends =>
        have closed := LastSeparators.append (.comment List.not_mem_nil .nil) (ih nothing)
        simpa [withStart, ends] using closed
      · next inLine => exact (ih nothing).longer inLine

theorem lastSeparators_iff (rest : List Byte) : LastSeparators rest ↔ skip false rest = [] :=
  ⟨LastSeparators.skip, skip_nil⟩

-- Inputs without a loss

/-- The rest of a line has only white space before its end or a comment. -/
def blankLine : List Byte → Bool
  | [] => true
  | c :: rest => c == byte '\n' || c == byte ';' || (isWhitespace c && blankLine rest)

/-- A character that can be left out before `rest` without another token showing. -/
def harmless (c : Byte) (rest : List Byte) : Bool :=
  isWhitespace c || (c == byte ';' && blankLine rest)

/-- After the colon: the keyword has a second character, or the character after it is harmless. -/
def keywordSafe : List Byte → Bool
  | _ :: e :: rest => charClass e .symbol || harmless e rest
  | _ => true

/-- Where a character stands. -/
inductive Place
  | outside | comment | quoted | string

/-- No keyword of one character has a character behind it that matters, and no zero byte is quoted. -/
def safe : Place → List Byte → Bool
  | _, [] => true
  | .outside, c :: rest =>
      if c = byte ';' then safe .comment rest
      else if c = byte '|' then safe .quoted rest
      else if c = byte '"' then safe .string rest
      else if c = byte ':' then keywordSafe rest && safe .outside rest
      else safe .outside rest
  | .comment, c :: rest => safe (if c = byte '\n' then .outside else .comment) rest
  | .quoted, c :: rest => c != 0 && safe (if c = byte '|' then .outside else .quoted) rest
  | .string, c :: rest => safe (if c = byte '"' then .outside else .string) rest

attribute [local simp] safe

/-- A character that does not change the place and opens no keyword. -/
def isPlain (c : Byte) : Bool :=
  c != byte ';' && c != byte '|' && c != byte '"' && c != byte ':'

theorem safe_plain (plain : isPlain c = true) (rest : List Byte)
    : safe .outside (c :: rest) = safe .outside rest := by
  simp only [isPlain, Bool.and_eq_true, bne_iff_ne] at plain
  obtain ⟨⟨⟨notComment, notQuoted⟩, notString⟩, notColon⟩ := plain
  simp [safe, notComment, notQuoted, notString, notColon]

theorem safe_quote (rest : List Byte) : safe .outside (byte '"' :: rest) = safe .string rest := by
  have others : byte '"' ≠ byte ';' ∧ byte '"' ≠ byte '|' := by decide
  simp [safe, others]

theorem safe_bar (rest : List Byte) : safe .outside (byte '|' :: rest) = safe .quoted rest := by
  have other : byte '|' ≠ byte ';' := by decide
  simp [safe, other]

theorem safe_colon (rest : List Byte)
    : safe .outside (byte ':' :: rest) = (keywordSafe rest && safe .outside rest) := by
  have others : byte ':' ≠ byte ';' ∧ byte ':' ≠ byte '|' ∧ byte ':' ≠ byte '"' := by decide
  simp [safe, others]

variable {text : List Byte}

theorem safe_append_plain (plain : ∀ c ∈ text, isPlain c = true) (rest : List Byte)
    : safe .outside (text ++ rest) = safe .outside rest := by
  induction text with
  | nil => rfl
  | cons c more ih =>
    rw [List.cons_append, safe_plain (plain c List.mem_cons_self),
      ih fun d member => plain d (List.mem_cons_of_mem _ member)]

theorem isPlain_of_class (cc : CharacterClass) (notPrintable : cc ≠ .printable)
    (inside : charClass c cc = true) : isPlain c = true := by
  have other {d : Byte} (outside : ∀ cc ≠ .printable, charClass d cc = false) : c ≠ d := by
    rintro rfl
    rw [outside cc notPrintable] at inside
    contradiction
  have differs : c ≠ byte ';' ∧ c ≠ byte '|' ∧ c ≠ byte '"' ∧ c ≠ byte ':' := by
    refine ⟨other ?_, other ?_, other ?_, other ?_⟩
    all_goals
      intro cc notPrintable
      cases cc <;> first | contradiction | decide
  simpa [isPlain, and_assoc] using differs

/-- Plain characters hold no zero byte, and neither do the others a token starts with. -/
theorem not_zero_of_class (cc : CharacterClass) (inside : charClass c cc = true)
    : c ≠ 0 := by
  rintro rfl
  cases cc <;> revert inside <;> decide

/-- Outside nothing changes over separators, and in a comment up to its end. -/
theorem safe_skip (rest : List Byte)
    : safe .outside rest = safe .outside (skip false rest)
      ∧ safe .comment rest = safe .outside (skip true rest) := by
  induction rest with
  | nil => exact ⟨rfl, rfl⟩
  | cons c more ih =>
    refine ⟨?_, ?_⟩
    · by_cases white : isWhitespace c = true
      · have plain : isPlain c = true := isPlain_of_class .whitespace nofun white
        simp only [skip, white, if_true]
        rw [safe_plain plain, ih.1]
      · by_cases opens : c = byte ';'
        · rw [opens, skip_semicolon, ← ih.2, safe, if_pos rfl]
        · simp [skip, white, opens]
    · by_cases ends : c = byte '\n'
      · simp [skip, safe, ends, ih.1]
      · simp [skip, safe, ends, ih.2]

-- What a token takes

/-- The characters of a token and those after it are all there is, and the place after the token is
outside again. -/
structure Takes (place : Place) (rest text after : List Byte) : Prop where
  parts : rest = text ++ after
  isSafe : safe place rest = (!text.contains 0 && safe .outside after)

theorem quotedTail_takes (rest : List Byte)
    : Takes .quoted rest (quotedTail rest).2.1 (quotedTail rest).2.2 := by
  induction rest with
  | nil => exact ⟨rfl, rfl⟩
  | cons c more ih =>
    by_cases closes : c = byte '|'
    · have notZero : byte '|' ≠ 0 := by decide
      simp only [quotedTail, closes, if_true]
      exact ⟨rfl, by simp [safe, notZero, Ne.symm notZero]⟩
    · simp only [quotedTail, closes, if_false]
      refine ⟨by rw [List.cons_append, ← ih.parts], ?_⟩
      simp only [safe, closes, if_false, ih.isSafe, List.contains_cons, Bool.not_or, Bool.and_assoc]
      rw [bne, Bool.beq_comm]

variable {after : List Byte} {tok : Token}

theorem Scanned.prepend_eq_ok {scanned : Scanned}
    (found : scanned.prepend front = .ok (tok, text, after))
    : ∃ more, scanned = .ok (tok, more, after) ∧ text = front ++ more := by
  match scanned with
  | .error _ => contradiction
  | .ok (tok', more, after') =>
    simp only [Scanned.prepend, Except.ok.injEq, Prod.mk.injEq] at found
    obtain ⟨rfl, rfl, rfl⟩ := found
    exact ⟨more, rfl, rfl⟩

theorem stringTail_takes
    (found : stringTail rest = .ok (tok, text, after)) : Takes .string rest text after := by
  have quoteNotZero : (0 : Byte) ≠ byte '"' := by decide
  induction rest using stringTail.induct generalizing tok text after with
  | case1 =>
    simp only [stringTail, Except.ok.injEq, Prod.mk.injEq] at found
    obtain ⟨_, rfl, rfl⟩ := found
    exact ⟨rfl, rfl⟩
  | case2 c rest notPrintable =>
    rw [stringTail.eq_def] at found
    simp only [notPrintable, if_true] at found
    contradiction
  | case3 printable =>
    rw [stringTail.eq_def] at found
    simp only [printable, if_true] at found
    obtain ⟨_, rfl, rfl⟩ := found
    exact ⟨rfl, by simp [safe, quoteNotZero]⟩
  | case4 more printable ih =>
    rw [stringTail.eq_def] at found
    simp only [printable, if_true] at found
    obtain ⟨inner, isInner, rfl⟩ := Scanned.prepend_eq_ok found
    obtain ⟨parts, isSafe⟩ := ih isInner
    refine ⟨by rw [parts]; rfl, ?_⟩
    rw [safe, if_pos rfl, safe_quote, isSafe]
    simp [quoteNotZero]
  | case5 c more other printable =>
    rw [stringTail.eq_def] at found
    simp only [printable, other, if_true, if_false] at found
    obtain ⟨_, rfl, rfl⟩ := found
    exact ⟨rfl, by simp [safe, quoteNotZero]⟩
  | case6 c more printable other ih =>
    rw [stringTail.eq_def] at found
    simp only [printable, other, if_false] at found
    obtain ⟨inner, isInner, rfl⟩ := Scanned.prepend_eq_ok found
    obtain ⟨parts, isSafe⟩ := ih isInner
    have notZero : c ≠ 0 := not_zero_of_class .printable (by simpa using printable)
    refine ⟨by rw [parts]; rfl, ?_⟩
    simp [safe, other, isSafe, Ne.symm notZero]

/-- Characters of classes are plain and not zero. -/
def Classed (text : List Byte) : Prop :=
  ∀ c ∈ text, ∃ cc, cc ≠ CharacterClass.printable ∧ charClass c cc = true

theorem Classed.not_zero (classed : Classed text) : 0 ∉ text := by
  intro member
  obtain ⟨cc, _, inside⟩ := classed 0 member
  exact not_zero_of_class cc inside rfl

/-- A text of one class opens no quotation. -/
theorem Classed.safe (classed : Classed text) (after : List Byte)
    : safe .outside (text ++ after) = Lexer.safe .outside after := by
  refine safe_append_plain (fun c member => ?_) after
  obtain ⟨cc, notPrintable, inside⟩ := classed c member
  exact isPlain_of_class cc notPrintable inside

theorem Classed.takeWhile {cc : CharacterClass} (rest : List Byte)
    (notPrintable : cc ≠ .printable := by decide) : Classed (rest.takeWhile (charClass · cc)) := by
  intro c member
  exact ⟨cc, notPrintable, List.mem_takeWhile_imp (p := (charClass · cc)) member⟩

theorem Classed.append (first : Classed front) (second : Classed text)
    : Classed (front ++ text) :=
  fun c member => (List.mem_append.mp member).elim (first c) (second c)

theorem Classed.single (cc : CharacterClass) (inside : charClass c cc = true)
    (notPrintable : cc ≠ .printable := by decide) : Classed [c] := by
  intro d member
  rw [List.mem_singleton.mp member]
  exact ⟨cc, notPrintable, inside⟩

theorem listTail_classed {cc : CharacterClass} {tok' : Token} {msg : String}
    (found : listTail cc tok msg rest = .ok (tok', text, after))
    (notPrintable : cc ≠ .printable := by decide) : rest = text ++ after ∧ Classed text := by
  cases rest with
  | nil => contradiction
  | cons c more =>
    simp only [listTail] at found
    split at found
    · next inside =>
      obtain ⟨_, rfl, rfl⟩ := found
      have first : Classed [c] := .single cc inside notPrintable
      exact ⟨by simp, first.append (.takeWhile more notPrintable)⟩
    · contradiction

theorem hashTail_classed
    (found : hashTail rest = .ok (tok, text, after)) : rest = text ++ after ∧ Classed text := by
  cases rest with
  | nil => contradiction
  | cons c more =>
    simp only [hashTail] at found
    split at found
    · next isB =>
      obtain ⟨inner, isInner, rfl⟩ := Scanned.prepend_eq_ok found
      obtain ⟨rfl, classed⟩ := listTail_classed isInner
      exact ⟨rfl, .append (.single .symbol (by rw [isB]; decide)) classed⟩
    split at found
    · next isX =>
      obtain ⟨inner, isInner, rfl⟩ := Scanned.prepend_eq_ok found
      obtain ⟨rfl, classed⟩ := listTail_classed isInner
      exact ⟨rfl, .append (.single .symbol (by rw [isX]; decide)) classed⟩
    · contradiction

theorem numberTail_classed
    (found : numberTail rest = .ok (tok, text, after)) : rest = text ++ after ∧ Classed text := by
  have parts := List.takeWhile_append_dropWhile (p := (charClass · .decimalDigit)) (l := rest)
  have digits : Classed (rest.takeWhile (charClass · .decimalDigit)) := .takeWhile rest
  simp only [numberTail] at found
  generalize rest.takeWhile (charClass · .decimalDigit) = front at parts digits found
  cases left : rest.dropWhile (charClass · .decimalDigit) with
  | nil =>
    rw [left] at parts found
    obtain ⟨_, rfl, rfl⟩ := found
    exact ⟨parts.symm, digits⟩
  | cons c more =>
    rw [left] at parts found
    simp only at found
    split at found
    · next isDot =>
      obtain ⟨inner, isInner, rfl⟩ := Scanned.prepend_eq_ok found
      obtain ⟨rfl, classed⟩ := listTail_classed isInner
      have separator : Classed [c] := .single .symbol (by rw [isDot]; decide)
      exact ⟨by simpa using parts.symm, (digits.append separator).append classed⟩
    split at found
    · next isSlash =>
      obtain ⟨inner, isInner, rfl⟩ := Scanned.prepend_eq_ok found
      obtain ⟨rfl, classed⟩ := listTail_classed isInner
      have separator : Classed [c] := .single .symbol (by rw [isSlash]; decide)
      exact ⟨by simpa using parts.symm, (digits.append separator).append classed⟩
    · obtain ⟨_, rfl, rfl⟩ := found
      exact ⟨parts.symm, digits⟩

/-- A keyword takes its characters, or it has one and the character after it is lost. -/
theorem keywordTail_takes
    (found : keywordTail rest = .ok (tok, text, after))
    : Classed text ∧ ((rest = text ++ after ∧ keywordSafe rest = true)
      ∨ ∃ e, rest = text ++ e :: after ∧ keywordSafe rest = harmless e after) := by
  cases rest with
  | nil => contradiction
  | cons d more =>
    simp only [keywordTail] at found
    split at found
    · next starts =>
      have first : Classed [d] := .single .symbolStart starts
      cases more with
      | nil =>
        obtain ⟨_, rfl, rfl⟩ := found
        exact ⟨first, .inl ⟨rfl, rfl⟩⟩
      | cons e more =>
        simp only at found
        split at found
        · next longer =>
          obtain ⟨_, rfl, rfl⟩ := found
          have second : Classed [e] := .single .symbol longer
          refine ⟨first.append (second.append (.takeWhile more)), .inl ⟨by simp, ?_⟩⟩
          simp [keywordSafe, longer]
        · next short =>
          obtain ⟨_, rfl, rfl⟩ := found
          exact ⟨first, .inr ⟨e, rfl, by simp [keywordSafe, short]⟩⟩
    · contradiction

variable {strict : Bool}

/-- A token takes its characters, or one more. -/
theorem scanToken_takes {ch : Byte}
    (found : scanToken strict ch rest = .ok (tok, text, after))
    : Takes .outside (ch :: rest) (ch :: text) after
      ∨ ∃ e, rest = text ++ e :: after ∧ 0 ∉ ch :: text
        ∧ safe .outside (ch :: rest) = (harmless e after && safe .outside (e :: after)) := by
  have after_plain (plain : isPlain ch = true) (notZero : ch ≠ 0)
      (rest_classed : rest = text ++ after ∧ Classed text)
      : Takes .outside (ch :: rest) (ch :: text) after := by
    obtain ⟨rfl, classed⟩ := rest_classed
    refine ⟨rfl, ?_⟩
    rw [safe_plain plain, classed.safe]
    simp [Ne.symm notZero, classed.not_zero]
  simp only [scanToken] at found
  split at found
  · next opens =>
    obtain ⟨_, rfl, rfl⟩ := found
    exact .inl (after_plain (by rw [opens]; decide) (by rw [opens]; decide) ⟨rfl, by simp [Classed]⟩)
  split at found
  · next closes =>
    obtain ⟨_, rfl, rfl⟩ := found
    exact .inl (after_plain (by rw [closes]; decide) (by rw [closes]; decide) ⟨rfl, by simp [Classed]⟩)
  split at found
  · next bar =>
    have takes := quotedTail_takes rest
    rw [Except.ok.injEq] at found
    rw [found] at takes
    refine .inl ⟨by rw [takes.parts]; rfl, ?_⟩
    have notZero : (0 : Byte) ≠ byte '|' := by decide
    rw [bar, safe_bar, takes.isSafe]
    simp [notZero]
  split at found
  · next hash =>
    exact .inl (after_plain (by rw [hash]; decide) (by rw [hash]; decide) (hashTail_classed found))
  split at found
  · next quote =>
    have takes := stringTail_takes found
    refine .inl ⟨by rw [takes.parts]; rfl, ?_⟩
    have notZero : (0 : Byte) ≠ byte '"' := by decide
    rw [quote, safe_quote, takes.isSafe]
    simp [notZero]
  split at found
  · next colon =>
    have notZero : (0 : Byte) ≠ byte ':' := by decide
    obtain ⟨classed, ⟨rfl, isSafe⟩ | ⟨e, rfl, isSafe⟩⟩ := keywordTail_takes found
    · refine .inl ⟨rfl, ?_⟩
      rw [colon, safe_colon, isSafe, classed.safe]
      simp [notZero, classed.not_zero]
    · refine .inr ⟨e, rfl, by simp [colon, notZero, classed.not_zero], ?_⟩
      rw [colon, safe_colon, isSafe, classed.safe]
  split at found
  · next digit =>
    exact .inl (after_plain (isPlain_of_class .decimalDigit (by decide) digit)
      (not_zero_of_class .decimalDigit digit) (numberTail_classed found))
  split at found
  · next starts =>
    obtain ⟨_, rfl, rfl⟩ := found
    exact .inl (after_plain (isPlain_of_class .symbolStart (by decide) starts)
      (not_zero_of_class .symbolStart starts) ⟨by simp, .takeWhile rest⟩)
  · contradiction

/-- The token, if there is one, is not the end of the file. -/
def NotEof (scanned : Scanned) : Prop :=
  ∀ tok text after, scanned = .ok (tok, text, after) → tok ≠ .eofTok

theorem NotEof.error (msg : String) : NotEof (.error msg) := nofun

theorem NotEof.ok (other : tok ≠ .eofTok) (text after : List Byte)
    : NotEof (.ok (tok, text, after)) := by
  intro tok' text' after' same
  obtain ⟨rfl, _⟩ := same
  exact other

theorem NotEof.prepend {scanned : Scanned} (notEof : NotEof scanned) (front : List Byte)
    : NotEof (scanned.prepend front) := by
  intro tok text after found
  obtain ⟨more, isMore, _⟩ := Scanned.prepend_eq_ok found
  exact notEof tok more after isMore

theorem quotedTail_notEof (rest : List Byte) : (quotedTail rest).1 ≠ .eofTok := by
  induction rest with
  | nil => exact fun isEof => by cases isEof
  | cons c more ih =>
    simp only [quotedTail]
    split
    · exact fun isEof => by cases isEof
    · exact ih

theorem stringTail_notEof (rest : List Byte) : NotEof (stringTail rest) := by
  induction rest using stringTail.induct with
  | case1 => exact .ok (by decide) _ _
  | case2 c rest notPrintable =>
    rw [stringTail.eq_def]
    simp only [notPrintable, if_true]
    exact .error _
  | case3 printable =>
    rw [stringTail.eq_def]
    simp only [printable, if_true]
    exact .ok (by decide) _ _
  | case4 more printable ih =>
    rw [stringTail.eq_def]
    simp only [printable, if_true]
    exact ih.prepend _
  | case5 c more other printable =>
    rw [stringTail.eq_def]
    simp only [printable, other, if_true, if_false]
    exact .ok (by decide) _ _
  | case6 c more printable other ih =>
    rw [stringTail.eq_def]
    simp only [printable, other, if_false]
    exact ih.prepend _

theorem listTail_notEof (other : tok ≠ .eofTok) (cc : CharacterClass) (msg : String)
    (rest : List Byte) : NotEof (listTail cc tok msg rest) := by
  cases rest with
  | nil => exact .error msg
  | cons c more =>
    simp only [listTail]
    split
    · exact .ok other _ _
    · exact .error msg

/-- What the characters of a simple symbol can stand for. -/
def simpleTokens : List Token :=
  [.symbol, .integerLiteral, .decimalLiteral, .rationalLiteral] ++ reservedTokens.map Prod.snd

theorem negativeLiteral_mem {ret : Token} (member : ret ∈ simpleTokens) (rest : List Byte)
    : negativeLiteral ret rest ∈ simpleTokens := by
  induction rest generalizing ret with
  | nil => exact member
  | cons c more ih =>
    simp only [negativeLiteral]
    split
    · exact ih member
    split
    · split
      · exact ih (by decide)
      split
      · exact ih (by decide)
      · decide
    · decide

theorem tokenizeCurrentSymbol_mem (strict : Bool) (token : List Byte)
    : tokenizeCurrentSymbol strict token ∈ simpleTokens := by
  unfold tokenizeCurrentSymbol
  split
  · next tok found =>
    obtain ⟨before, after, parts, _⟩ := List.lookup_eq_some_iff.mp found
    simp [simpleTokens, parts]
  · split
    · split
      · exact negativeLiteral_mem (by decide) _
      · decide
    · decide

/-- The end of the file is not the token of a character. -/
theorem scanToken_notEof (strict : Bool) (ch : Byte) (rest : List Byte)
    : NotEof (scanToken strict ch rest) := by
  simp only [scanToken]
  split
  · exact .ok (by decide) _ _
  split
  · exact .ok (by decide) _ _
  split
  · exact .ok (quotedTail_notEof rest) _ _
  split
  · cases rest with
    | nil => exact .error _
    | cons c more =>
      simp only [hashTail]
      split
      · exact (listTail_notEof (by decide) _ _ _).prepend _
      split
      · exact (listTail_notEof (by decide) _ _ _).prepend _
      · exact .error _
  split
  · exact stringTail_notEof rest
  split
  · unfold keywordTail
    split
    · exact .error _
    split
    · split
      · exact .ok (by decide) _ _
      split
      · exact .ok (by decide) _ _
      · exact .ok (by decide) _ _
    · exact .error _
  split
  · simp only [numberTail]
    split
    · exact .ok (by decide) _ _
    split
    · exact (listTail_notEof (by decide) _ _ _).prepend _
    split
    · exact (listTail_notEof (by decide) _ _ _).prepend _
    · exact .ok (by decide) _ _
  split
  · refine .ok (fun isEof => ?_) _ _
    have member := tokenizeCurrentSymbol_mem strict (ch :: rest.takeWhile (charClass · .symbol))
    rw [isEof] at member
    revert member
    decide
  · exact .error _

-- Whole runs

/-- The calls of a run account for `left`: separators and the characters of tokens alternate, the
text of a token is its characters, and these lie in the stretch that its own call has read. -/
def Lossless : List Byte → List Byte → List Call → Prop
  | left, _, [] => LastSeparators left
  | left, start, call :: calls =>
      ∃ front after, Separators front ∧ left = front ++ call.chars ++ after
        ∧ call.text = call.chars
        ∧ (call.chars ++ after).length ≤ start.length ∧ call.left.length ≤ after.length
        ∧ Lossless after call.left calls

variable {calls : List Call}

/-- Separators end where a token starts. -/
theorem lossless_cons {left start chars : List Byte} {call : Call}
    (starts : startsToken c = true) (isChars : call.chars = c :: chars)
    : Lossless left start (call :: calls) ↔ ∃ after, skip false left = call.chars ++ after
      ∧ call.text = call.chars
      ∧ (call.chars ++ after).length ≤ start.length ∧ call.left.length ≤ after.length
      ∧ Lossless after call.left calls := by
  simp only [Lossless, isChars]
  constructor
  · intro ⟨front, after, separators, isLeft, others⟩
    refine ⟨after, ?_, others⟩
    rw [isLeft, List.append_assoc, separators.skip, List.cons_append, skip_startsToken starts]
  · intro ⟨after, skipped, others⟩
    obtain ⟨front, separators, isLeft⟩ := skip_cons skipped
    exact ⟨front, after, separators, by simpa using isLeft, others⟩

theorem skip_starts {more : List Byte}
    (found : skip inComment rest = c :: more) : startsToken c = true := by
  induction rest generalizing inComment with
  | nil => cases inComment <;> simp [skip] at found
  | cons d rest ih =>
    cases inComment with
    | false =>
      simp only [skip] at found
      split at found
      · exact ih found
      split at found
      · next notWhite notComment =>
        obtain ⟨rfl, _⟩ := List.cons.inj found
        simpa [startsToken, notWhite] using notComment
      · exact ih found
    | true =>
      simp only [skip] at found
      split at found <;> exact ih found

variable {previous : List Byte} {l : Lexer} {fuel : Nat}

/-- A run ends, or it reads one token and goes on. -/
theorem readTokens_cases
    (at_ : At l strict previous rest) (run : readTokens fuel l = .ok calls)
    : (skip false rest = [] ∧ calls = [])
      ∨ ∃ ch more tok text after l' calls' fuel', skip false rest = ch :: more
        ∧ scanToken strict ch more = .ok (tok, text, after) ∧ At l' strict (ch :: text) after
        ∧ readTokens fuel' l' = .ok calls'
        ∧ calls = ⟨tok, ch :: text, (ch :: text).takeWhile (· ≠ 0), after⟩ :: calls' := by
  cases fuel with
  | zero => contradiction
  | succ fuel =>
    have next := nextToken_at at_
    rw [readTokens] at run
    cases skipped : skip false rest with
    | nil =>
      rw [skipped] at next
      obtain ⟨l', isEof⟩ := next
      rw [isEof] at run
      cases run
      exact .inl ⟨rfl, rfl⟩
    | cons ch more =>
      simp only [skipped] at next
      cases scanned : scanToken strict ch more with
      | error msg =>
        rw [scanned] at next
        have isError : l.nextToken = .error msg := next
        rw [isError] at run
        contradiction
      | ok found =>
        obtain ⟨tok, text, after⟩ := found
        have notEof := scanToken_notEof strict ch more tok text after scanned
        rw [scanned] at next
        obtain ⟨l', isOk, at'⟩ := next
        rw [isOk] at run
        simp only at run
        split at run
        · contradiction
        · next calls' more_run =>
          cases run
          refine .inr ⟨ch, more, tok, text, after, l', calls', fuel, rfl, scanned, at', more_run, ?_⟩
          rw [tokenStr, at'.token, at'.rest]
          rfl

theorem skip_length (inComment : Bool) (rest : List Byte) : (skip inComment rest).length ≤ rest.length := by
  induction rest generalizing inComment with
  | nil => cases inComment <;> exact Nat.le_refl _
  | cons c more ih =>
    cases inComment with
    | false =>
      simp only [skip]
      split
      · exact Nat.le_succ_of_le (ih false)
      split
      · exact Nat.le_refl _
      · exact Nat.le_succ_of_le (ih true)
    | true =>
      simp only [skip]
      split
      · exact Nat.le_succ_of_le (ih false)
      · exact Nat.le_succ_of_le (ih true)

theorem skip_comment_length (rest : List Byte)
    : skip true rest = [] ∨ (skip true rest).length < rest.length := by
  cases rest with
  | nil => exact .inl rfl
  | cons c more =>
    simp only [skip]
    split
    · exact .inr (Nat.lt_succ_of_le (skip_length false more))
    · exact .inr (Nat.lt_succ_of_le (skip_length true more))

/-- On a blank line it does not matter whether a comment was open. -/
theorem skip_blankLine (blank : blankLine rest = true)
    : skip true rest = skip false rest := by
  induction rest with
  | nil => rfl
  | cons c more ih =>
    by_cases ends : c = byte '\n'
    · have white : isWhitespace (byte '\n') = true := by decide
      simp [skip, ends, white]
    by_cases opens : c = byte ';'
    · rw [opens, skip_semicolon, skip, if_neg (by decide)]
    · simp only [blankLine, beq_eq_false_iff_ne.mpr ends, beq_eq_false_iff_ne.mpr opens,
        Bool.false_or, Bool.and_eq_true] at blank
      simp [skip, ends, blank.1, ih blank.2]

/-- On another line an open comment hides the first character of a token at least. -/
theorem skip_not_blankLine (notBlank : blankLine rest = false)
    : skip false rest ≠ []
      ∧ (skip true rest = [] ∨ (skip true rest).length + 2 ≤ (skip false rest).length) := by
  induction rest with
  | nil => contradiction
  | cons c more ih =>
    simp only [blankLine, Bool.or_eq_false_iff, beq_eq_false_iff_ne] at notBlank
    obtain ⟨⟨inLine, notComment⟩, other⟩ := notBlank
    by_cases white : isWhitespace c = true
    · simp only [white, Bool.true_and] at other
      simpa [skip, white, inLine] using ih other
    · have stays : skip false (c :: more) = c :: more := by simp [skip, white, notComment]
      have hides : skip true (c :: more) = skip true more := by simp [skip, inLine]
      rw [stays, hides]
      refine ⟨List.cons_ne_nil _ _, ?_⟩
      rcases skip_comment_length more with nothing | shorter
      · exact .inl nothing
      · exact .inr (Nat.succ_le_succ shorter)

/-- What a harmless character hides. -/
theorem skip_harmless {e : Byte} (isHarmless : harmless e rest = true)
    : skip false (e :: rest) = skip false rest := by
  simp only [harmless, Bool.or_eq_true, Bool.and_eq_true, beq_iff_eq] at isHarmless
  rcases isHarmless with white | ⟨rfl, blank⟩
  · simp [skip, white]
  · rw [skip_semicolon, skip_blankLine blank]

theorem text_eq_chars_iff (chars : List Byte)
    : chars.takeWhile (· ≠ 0) = chars ↔ chars.contains 0 = false := by
  rw [List.takeWhile_eq_self_iff]
  simp only [List.contains_eq_mem, decide_eq_false_iff_not, decide_eq_true_eq]
  exact ⟨fun all member => all 0 member rfl, fun absent c member isZero => absent (isZero ▸ member)⟩

/-- A lost character that matters leaves no way to lay out the next token: it would start before its
call, or end after it. -/
theorem not_lossless {e : Byte}
    (matters : harmless e rest = false) (at_ : At l strict previous rest)
    (run : readTokens fuel l = .ok calls) : ¬ Lossless (e :: rest) rest calls := by
  simp only [harmless, Bool.or_eq_false_iff] at matters
  obtain ⟨notWhite, other⟩ := matters
  rcases readTokens_cases at_ run with
    ⟨nothing, rfl⟩ | ⟨ch, more, tok, text, after, l', calls', fuel', found, scanned, _, _, rfl⟩
  · rw [Lossless, lastSeparators_iff]
    by_cases opens : e = byte ';'
    · subst opens
      exact absurd nothing (skip_not_blankLine (by simpa using other)).1
    · simp [skip, notWhite, opens]
  · rw [lossless_cons (skip_starts found) rfl]
    rintro ⟨left, skipped, -, starts, ends, -⟩
    by_cases opens : e = byte ';'
    · subst opens
      rw [skip_semicolon] at skipped
      have lengths : more.length ≤ text.length + 1 + after.length := by
        rcases scanToken_takes scanned with takes | ⟨e, isMore, _⟩
        · have parts := congrArg List.length takes.parts
          simp at parts
          omega
        · simp [isMore]
          omega
      rcases (skip_not_blankLine (by simpa using other)).2 with empty | shorter
      · rw [empty] at skipped
        contradiction
      · rw [skipped, found] at shorter
        simp at shorter ends
        omega
    · have stays : skip false (e :: rest) = e :: rest := by simp [skip, notWhite, opens]
      rw [← skipped, stays] at starts
      exact Nat.not_succ_le_self _ starts

/-- A run accounts for its input exactly when no loss matters, by induction on the calls. -/
theorem lossless_iff {left : List Byte}
    (at_ : At l strict previous rest) (same : skip false left = skip false rest)
    (run : readTokens fuel l = .ok calls)
    : Lossless left rest calls ↔ safe .outside left = true := by
  induction calls generalizing l previous rest left fuel with
  | nil =>
    rcases readTokens_cases at_ run with ⟨nothing, _⟩ | ⟨_, _, _, _, _, _, _, _, _, _, _, _, isCons⟩
    · rw [Lossless, lastSeparators_iff, (safe_skip left).1, same, nothing]
      simp [safe]
    · contradiction
  | cons call calls ih =>
    rcases readTokens_cases at_ run with
      ⟨_, isNil⟩ | ⟨ch, more, tok, text, after, l', calls', fuel', found, scanned, at', run', isCalls⟩
    · contradiction
    obtain ⟨rfl, rfl⟩ := List.cons.inj isCalls
    have bound : (ch :: more).length ≤ rest.length := found ▸ skip_length false rest
    rw [lossless_cons (skip_starts found) rfl, (safe_skip left).1, same, found, text_eq_chars_iff]
    rcases scanToken_takes scanned with ⟨parts, isSafe⟩ | ⟨e, rfl, notZero, isSafe⟩
    · rw [isSafe, Bool.and_eq_true, ← ih at' rfl run', Bool.not_eq_true']
      rw [parts] at bound ⊢
      simp only [List.append_cancel_left_eq, exists_eq_left', bound, Nat.le_refl, true_and]
    · have whole : ch :: (text ++ e :: after) = (ch :: text) ++ e :: after := rfl
      have noZero : (ch :: text).contains 0 = false := by simpa using notZero
      rw [isSafe, Bool.and_eq_true]
      rw [whole] at bound ⊢
      simp only [List.append_cancel_left_eq, exists_eq_left', bound, List.length_cons,
        Nat.le_add_right, noZero, true_and]
      cases matters : harmless e after with
      | true => simpa using ih at' (skip_harmless matters) run'
      | false => simpa using not_lossless matters at' run'

/-- The tokens of an input and the separators between them are the input, exactly when no keyword of
one character has a character behind it that matters and no zero byte is quoted. -/
theorem readTokens_lossless (fuel : Nat) (strict interactive : Bool) (input : List Byte)
    (calls : List Call) (run : readTokens fuel (openInput strict interactive input) = .ok calls)
    : Lossless input input calls ↔ safe .outside input = true :=
  lossless_iff (openInput_at strict interactive input) rfl run

theorem readTokens_lossless_two_characters
    : ∃ calls, readTokens 5 (openInput false false ([':', 'a', 'b', ')'].map byte)) = .ok calls
      ∧ calls.length = 2
      ∧ Lossless ([':', 'a', 'b', ')'].map byte) ([':', 'a', 'b', ')'].map byte) calls :=
  ⟨_, rfl, rfl, (readTokens_lossless 5 false false _ _ rfl).mpr (by decide)⟩

/-- The closing parenthesis after a keyword of one character is lost. -/
theorem readTokens_loses_parenthesis
    : ∃ calls, readTokens 5 (openInput true false ([':', 'a', ')'].map byte)) = .ok calls
      ∧ calls.map Call.text = [[':', 'a'].map byte]
      ∧ ¬ Lossless ([':', 'a', ')'].map byte) ([':', 'a', ')'].map byte) calls := by
  refine ⟨_, rfl, rfl, ?_⟩
  rw [lossless_iff (openInput_at true false _) rfl (rfl : readTokens 5 _ = _)]
  decide

end Ava6.Parser.Lexer

import Ava6.Parser.Smt2Lexer

/-! The lexer seen through its unread characters. Buffering and the character given back do not
show: every loop takes a stretch off the front of the unread characters.
-/

namespace Ava6.Parser.Lexer

variable {l : Lexer} {strict : Bool} {token rest : List Byte} {cc : CharacterClass}

/-- The end of the file is given back only when nothing is left. -/
def Valid (l : Lexer) : Prop :=
  (l.peekedChar = true → l.chPeeked = none → l.buffer.drop l.bufferPos ++ l.istream = [])
    ∧ l.peeked = []

/-- The current token and the unread characters of a valid lexer. -/
structure At (l : Lexer) (strict : Bool) (token rest : List Byte) : Prop where
  valid : l.Valid
  strict : l.isStrict = strict
  token : l.token = token
  rest : l.unread = rest

theorem openInput_at (strict interactive : Bool) (input : List Byte)
    : At (openInput strict interactive input) strict [] input :=
  ⟨⟨nofun, rfl⟩, rfl, rfl, rfl⟩

/-- A read without a character given back takes the first unread character, from the buffer, the
stream, or a refilled buffer. -/
theorem readNextChar_at (at_ : At l strict token rest) (plain : l.peekedChar = false)
    : (l.readNextChar).1 = rest.head? ∧ At (l.readNextChar).2 strict token rest.tail
      ∧ (l.readNextChar).2.peekedChar = false := by
  obtain ⟨⟨_, peeked⟩, strict, tok, unread⟩ := at_
  simp only [Lexer.unread, plain, Bool.false_eq_true, if_false, List.nil_append] at unread
  unfold readNextChar
  cases found : l.buffer[l.bufferPos]? with
  | some ch =>
    have front : l.buffer.drop l.bufferPos = ch :: l.buffer.drop (l.bufferPos + 1) := by
      obtain ⟨inside, here⟩ := List.getElem?_eq_some_iff.mp found
      rw [List.drop_eq_getElem_cons inside, here]
    rw [front, List.cons_append] at unread
    subst unread
    refine ⟨rfl, ⟨⟨by simp [plain], peeked⟩, strict, tok, ?_⟩, plain⟩
    simp [Lexer.unread, plain]
  | none =>
    have front : l.buffer.drop l.bufferPos = [] :=
      List.drop_eq_nil_of_le (List.getElem?_eq_none_iff.mp found)
    rw [front, List.nil_append] at unread
    cases l.isInteractive with
    | true =>
      simp only [if_true]
      cases stream : l.istream with
      | nil =>
        rw [stream] at unread
        subst unread
        exact ⟨rfl, ⟨⟨by simp [plain], peeked⟩, strict, tok, by simp [Lexer.unread, plain, front, stream]⟩,
          plain⟩
      | cons ch more =>
        rw [stream] at unread
        subst unread
        exact ⟨rfl, ⟨⟨by simp [plain], peeked⟩, strict, tok, by simp [Lexer.unread, plain, front]⟩, plain⟩
    | false =>
      simp only [Bool.false_eq_true, if_false]
      have parts := List.take_append_drop inputBufferSize l.istream
      cases chunk : l.istream.take inputBufferSize with
      | nil =>
        have empty : l.istream = [] := by
          cases stream : l.istream with
          | nil => rfl
          | cons ch more => simp [stream, inputBufferSize] at chunk
        rw [empty] at unread
        subst unread
        exact ⟨rfl, ⟨⟨by simp [plain], peeked⟩, strict, tok, by simp [Lexer.unread, plain, empty]⟩, plain⟩
      | cons ch more =>
        rw [chunk, List.cons_append, unread] at parts
        have head : rest.head? = some ch := congrArg List.head? parts.symm
        have tail : rest.tail = more ++ rest.drop inputBufferSize := congrArg List.tail parts.symm
        exact ⟨head.symm, ⟨⟨by simp [plain], peeked⟩, strict, tok,
          by simp [Lexer.unread, plain, tail, unread]⟩, plain⟩

/-- The next character is the first unread one. -/
theorem nextChar_at (at_ : At l strict token rest)
    : (l.nextChar).1 = rest.head? ∧ At (l.nextChar).2 strict token rest.tail
      ∧ (l.nextChar).2.peekedChar = false := by
  unfold nextChar
  cases plain : l.peekedChar with
  | false =>
    simp only [Bool.false_eq_true, if_false]
    exact readNextChar_at at_ plain
  | true =>
    simp only [if_true]
    obtain ⟨⟨empty, peeked⟩, strict, tok, unread⟩ := at_
    simp only [Lexer.unread, plain, if_true] at unread
    cases given : l.chPeeked with
    | none =>
      have nothing := empty plain given
      simp only [given, Option.toList_none, List.nil_append, nothing] at unread
      subst unread
      exact ⟨rfl, ⟨⟨nofun, peeked⟩, strict, tok, by simpa [Lexer.unread] using nothing⟩, trivial⟩
    | some ch =>
      simp only [given, Option.toList_some, List.cons_append] at unread
      subst unread
      exact ⟨rfl, ⟨⟨nofun, peeked⟩, strict, tok, by simp [Lexer.unread]⟩, trivial⟩

theorem nextChar_eof {l' : Lexer} (at_ : At l strict token rest) (isRead : l.nextChar = (none, l'))
    : rest = [] ∧ At l' strict token [] := by
  obtain ⟨read, after, _⟩ := nextChar_at at_
  rw [isRead] at read after
  obtain rfl := List.head?_eq_none_iff.mp read.symm
  exact ⟨rfl, after⟩

theorem nextChar_some {l' : Lexer} {ch : Byte} (at_ : At l strict token rest) (isRead : l.nextChar = (some ch, l'))
    : ∃ more, rest = ch :: more ∧ At l' strict token more := by
  obtain ⟨read, after, _⟩ := nextChar_at at_
  rw [isRead] at read after
  obtain ⟨more, rfl⟩ := List.head?_eq_some_iff.mp read.symm
  exact ⟨more, rfl, after⟩

/-- The character just read goes back to the front. -/
theorem saveChar_at {ch : Option Byte} (at_ : At l strict token rest.tail)
    (plain : l.peekedChar = false) (read : ch = rest.head?)
    : At (l.saveChar ch) strict token rest := by
  obtain ⟨⟨_, peeked⟩, strict, tok, unread⟩ := at_
  simp only [Lexer.unread, plain, Bool.false_eq_true, if_false, List.nil_append] at unread
  subst read
  cases rest with
  | nil => exact ⟨⟨fun _ _ => unread, peeked⟩, strict, tok, by simpa [Lexer.unread, saveChar] using unread⟩
  | cons c more =>
    refine ⟨⟨fun _ given => ?_, peeked⟩, strict, tok, ?_⟩
    · simp [saveChar] at given
    · simp only [Lexer.unread, saveChar, if_true, List.head?_cons, Option.toList_some,
        List.append_assoc, unread]
      rfl

theorem pushToToken_at (at_ : At l strict token rest) (c : Byte)
    : At (l.pushToToken (some c)) strict (token ++ [c]) rest :=
  ⟨at_.valid, at_.strict, by rw [pushToToken, at_.token]; rfl, at_.rest⟩

theorem not_class_eof (cc : CharacterClass) : isCharacterClass none cc = false := by
  cases cc <;> decide

theorem class_some (c : Byte) (cc : CharacterClass) : isCharacterClass (some c) cc = charClass c cc :=
  rfl

theorem parseCharListLoop_at (fuel : Nat) (at_ : At l strict token rest) (enough : rest.length < fuel)
    : At (parseCharListLoop cc fuel l) strict (token ++ rest.takeWhile (charClass · cc))
        (rest.dropWhile (charClass · cc)) := by
  induction fuel generalizing l token rest with
  | zero => omega
  | succ fuel ih =>
    obtain ⟨read, after, plain⟩ := nextChar_at at_
    simp only [parseCharListLoop]
    cases rest with
    | nil =>
      rw [read, List.head?_nil, not_class_eof]
      simpa using saveChar_at after plain rfl
    | cons c more =>
      rw [read, List.head?_cons, class_some]
      cases inside : charClass c cc with
      | false =>
        simpa [inside] using saveChar_at after plain rfl
      | true =>
        have step := ih (pushToToken_at after c) (by simpa using enough)
        simpa [inside] using step

theorem parseCharList_at (cc : CharacterClass) (at_ : At l strict token rest)
    : At (l.parseCharList cc) strict (token ++ rest.takeWhile (charClass · cc))
        (rest.dropWhile (charClass · cc)) :=
  parseCharListLoop_at _ at_ (by rw [at_.rest]; omega)

theorem parseNonEmptyCharList_at {c : Byte} (at_ : At l strict token (c :: rest))
    (inside : charClass c cc = true)
    : (l.parseNonEmptyCharList cc).1 = true
      ∧ At (l.parseNonEmptyCharList cc).2 strict (token ++ c :: rest.takeWhile (charClass · cc))
        (rest.dropWhile (charClass · cc)) := by
  obtain ⟨read, after, _⟩ := nextChar_at at_
  simp only [parseNonEmptyCharList, read, List.head?_cons, class_some, inside, if_true, true_and]
  simpa using parseCharList_at cc (pushToToken_at after c)

/-- On failure one character is lost. -/
theorem parseNonEmptyCharList_fails (cc : CharacterClass) (at_ : At l strict token rest)
    (outside : ∀ c ∈ rest.head?, charClass c cc = false)
    : (l.parseNonEmptyCharList cc).1 = false
      ∧ At (l.parseNonEmptyCharList cc).2 strict token rest.tail := by
  obtain ⟨read, after, _⟩ := nextChar_at at_
  have fails : isCharacterClass rest.head? cc = false := by
    cases rest with
    | nil => exact not_class_eof cc
    | cons c more => exact outside c rfl
  simp only [parseNonEmptyCharList, read, fails, Bool.false_eq_true, if_false, true_and]
  exact after

theorem parseChar_at {c : Byte} (at_ : At l strict token (c :: rest)) (inside : charClass c cc = true)
    : (l.parseChar cc).1 = true ∧ At (l.parseChar cc).2 strict (token ++ [c]) rest := by
  obtain ⟨read, after, _⟩ := nextChar_at at_
  simp only [parseChar, read, List.head?_cons, class_some, inside, if_true, true_and]
  exact pushToToken_at after c

theorem parseChar_fails (at_ : At l strict token rest)
    (outside : ∀ c ∈ rest.head?, charClass c cc = false) : (l.parseChar cc).1 = false := by
  obtain ⟨read, _, _⟩ := nextChar_at at_
  have fails : isCharacterClass rest.head? cc = false := by
    cases rest with
    | nil => exact not_class_eof cc
    | cons c more => exact outside c rfl
  simp [parseChar, read, fails]

-- Loops of tokens

/-- What is left after white space and comments, outside a comment or in one. -/
def skip : Bool → List Byte → List Byte
  | _, [] => []
  | false, c :: rest =>
      if isWhitespace c then skip false rest
      else if c ≠ byte ';' then c :: rest
      else skip true rest
  | true, c :: rest => if c = byte '\n' then skip false rest else skip true rest

theorem skipComment_at (fuel : Nat) (at_ : At l strict token rest) (enough : rest.length < fuel)
    : ∃ ended after, At (skipComment fuel l).2 strict token after ∧ (skipComment fuel l).1 = ended
      ∧ after.length ≤ rest.length ∧ skip true rest = if ended then skip false after else [] := by
  induction fuel generalizing l rest with
  | zero => omega
  | succ fuel ih =>
    simp only [skipComment]
    split
    · next l' isRead =>
      obtain ⟨rfl, after⟩ := nextChar_eof at_ isRead
      exact ⟨false, [], after, rfl, Nat.le_refl _, rfl⟩
    · next c l' isRead =>
      obtain ⟨more, rfl, after⟩ := nextChar_some at_ isRead
      by_cases ends : c = byte '\n'
      · rw [if_pos ends]
        exact ⟨true, more, after, rfl, Nat.le_succ _, by simp [skip, ends]⟩
      · rw [if_neg ends]
        obtain ⟨ended, left, here, isEnded, bound, skips⟩ := ih after (by simpa using enough)
        exact ⟨ended, left, here, isEnded, Nat.le_succ_of_le bound, by simp [skip, ends, skips]⟩

theorem skipSeparators_at (fuel : Nat) (at_ : At l strict token rest) (enough : rest.length < fuel)
    : (skipSeparators fuel l).1 = (skip false rest).head?
      ∧ ∃ left, At (skipSeparators fuel l).2 strict token left
        ∧ ((skip false rest).head? ≠ none → left = (skip false rest).tail) := by
  induction fuel generalizing l rest with
  | zero => omega
  | succ fuel ih =>
    simp only [skipSeparators]
    split
    · next l' isRead =>
      obtain ⟨rfl, after⟩ := nextChar_eof at_ isRead
      exact ⟨rfl, [], after, nofun⟩
    · next ch l' isRead =>
      obtain ⟨more, rfl, after⟩ := nextChar_some at_ isRead
      have shorter : more.length < fuel := by simpa using enough
      cases white : isWhitespace ch with
      | true =>
        simpa [class_some, charClass, white, skip] using ih after shorter
      | false =>
        by_cases comment : ch = byte ';'
        · obtain ⟨ended, left, here, isEnded, bound, skips⟩ :=
            skipComment_at (fuel + 1) after (Nat.lt_succ_of_lt shorter)
          have skipped : skip false (ch :: more) = if ended then skip false left else [] := by
            rw [← skips, skip, if_neg (by simp [white]), if_neg (by simp [comment])]
          rw [skipped, class_some, charClass, if_neg (by simp [white]), if_neg (by simp [comment])]
          cases ended with
          | false =>
            split
            · next same' => rw [same'] at here; exact ⟨rfl, left, here, nofun⟩
            · next same' => rw [same'] at isEnded; contradiction
          | true =>
            split
            · next same' => rw [same'] at isEnded; contradiction
            · next same' => rw [same'] at here; exact ih here (by omega)
        · have stays : skip false (ch :: more) = ch :: more := by
            rw [skip, if_neg (by simp [white]), if_pos comment]
          rw [stays, class_some, charClass, if_neg (by simp [white]), if_pos comment]
          exact ⟨rfl, more, after, fun _ => rfl⟩

/-- A token with its characters, and the characters after it; or an error. -/
abbrev Scanned := Except String (Token × List Byte × List Byte)

def Scanned.prepend (front : List Byte) : Scanned → Scanned
  | .ok (tok, text, rest) => .ok (tok, front ++ text, rest)
  | .error msg => .error msg

/-- The lexer returns the token, with its characters after those it already had. -/
def Reads (strict : Bool) (token : List Byte) (result : Except String (Token × Lexer))
    (scanned : Scanned) : Prop :=
  match scanned with
  | .error msg => result = .error msg
  | .ok (tok, text, rest) => ∃ l', result = .ok (tok, l') ∧ At l' strict (token ++ text) rest

theorem Reads.prepend {front : List Byte} {result : Except String (Token × Lexer)}
    {scanned : Scanned} (reads : Reads strict (token ++ front) result scanned)
    : Reads strict token result (scanned.prepend front) := by
  match scanned, reads with
  | .error msg, reads => exact reads
  | .ok (tok, text, rest), ⟨l', isOk, at_⟩ => exact ⟨l', isOk, by simpa using at_⟩

/-- The rest of a quoted symbol. -/
def quotedTail : List Byte → Token × List Byte × List Byte
  | [] => (.unterminatedQuotedSymbol, [], [])
  | c :: rest =>
      if c = byte '|' then (.quotedSymbol, [c], rest)
      else
        let (tok, text, after) := quotedTail rest
        (tok, c :: text, after)

theorem quotedSymbolLoop_at (fuel : Nat) (at_ : At l strict token rest) (enough : rest.length < fuel)
    : Reads strict token (.ok (quotedSymbolLoop fuel l)) (.ok (quotedTail rest)) := by
  induction fuel generalizing l token rest with
  | zero => omega
  | succ fuel ih =>
    simp only [quotedSymbolLoop]
    split
    · next l' isRead =>
      obtain ⟨rfl, after⟩ := nextChar_eof at_ isRead
      exact ⟨l', rfl, by simpa using after⟩
    · next ch l' isRead =>
      obtain ⟨more, rfl, after⟩ := nextChar_some at_ isRead
      have pushed := pushToToken_at after ch
      by_cases closes : ch = byte '|'
      · simp only [quotedTail, closes, if_true]
        exact ⟨_, rfl, closes ▸ pushed⟩
      · simp only [quotedTail, closes, if_false]
        exact (ih pushed (by simpa using enough)).prepend

/-- The rest of a string literal. -/
def stringTail : List Byte → Scanned
  | [] => .ok (.unterminatedStringLiteral, [], [])
  | c :: rest =>
      if !charClass c .printable then .error "Non-printable character in string literal"
      else if c = byte '"' then
        match rest with
        | [] => .ok (.stringLiteral, [c], [])
        | d :: more =>
            if d = byte '"' then (stringTail more).prepend [c, d]
            else .ok (.stringLiteral, [c], d :: more)
      else (stringTail rest).prepend [c]

theorem stringLiteralLoop_at (fuel : Nat) (at_ : At l strict token rest) (enough : rest.length < fuel)
    : Reads strict token (stringLiteralLoop fuel l) (stringTail rest) := by
  induction fuel generalizing l token rest with
  | zero => omega
  | succ fuel ih =>
    simp only [stringLiteralLoop]
    split
    · next l' isRead =>
      obtain ⟨rfl, after⟩ := nextChar_eof at_ isRead
      exact ⟨l', rfl, by simpa using after⟩
    · next ch l' isRead =>
      obtain ⟨more, rfl, after⟩ := nextChar_some at_ isRead
      have pushed := pushToToken_at after ch
      cases printable : charClass ch .printable with
      | false =>
        rw [stringTail.eq_def]
        simp only [class_some, printable]
        exact rfl
      | true =>
        by_cases quote : ch = byte '"'
        · obtain ⟨read', after', plain'⟩ := nextChar_at pushed
          cases more with
          | nil =>
            have other : (nextChar (pushToToken l' (some ch))).1 ≠ some (byte '"') := by simp [read']
            simp only [class_some, stringTail, printable, if_pos quote, if_pos other]
            exact ⟨_, rfl, saveChar_at after' plain' read'⟩
          | cons d more =>
            by_cases again : d = byte '"'
            · have same' : (nextChar (pushToToken l' (some ch))).1 = some d := by simp [read']
              simp only [class_some, stringTail, printable, if_pos quote, if_pos again, same']
              have step := ih (pushToToken_at after' d) (by simp at enough ⊢; omega)
              rw [List.append_assoc] at step
              simpa [again] using step.prepend
            · have other : (nextChar (pushToToken l' (some ch))).1 ≠ some (byte '"') := by
                simpa [read'] using again
              simp only [class_some, stringTail, printable, if_pos quote, if_neg again, if_pos other]
              exact ⟨_, rfl, saveChar_at after' plain' read'⟩
        · have step := ih pushed (by simpa using enough)
          rw [stringTail.eq_def]
          simp only [class_some, printable, if_neg quote]
          exact step.prepend

-- Tokens

/-- A list of characters that must not be empty. -/
def listTail (cc : CharacterClass) (tok : Token) (msg : String) : List Byte → Scanned
  | [] => .error msg
  | c :: rest =>
      if charClass c cc then
        .ok (tok, c :: rest.takeWhile (charClass · cc), rest.dropWhile (charClass · cc))
      else .error msg

theorem expectCharList_at {tok : Token} {msg : String} (at_ : At l strict token rest)
    : Reads strict token (l.expectCharList cc tok msg) (listTail cc tok msg rest) := by
  have failing (outside : ∀ c ∈ rest.head?, charClass c cc = false)
      : l.expectCharList cc tok msg = .error msg := by
    obtain ⟨fails, _⟩ := parseNonEmptyCharList_fails cc at_ outside
    unfold expectCharList
    split
    · next same => rw [same] at fails; contradiction
    · rfl
  cases rest with
  | nil => exact failing nofun
  | cons c more =>
    cases inside : charClass c cc with
    | false =>
      simp only [listTail, inside, Bool.false_eq_true, if_false]
      exact failing (by simpa using inside)
    | true =>
      obtain ⟨succeeds, after⟩ := parseNonEmptyCharList_at at_ inside
      simp only [listTail, inside, if_true]
      unfold expectCharList
      split
      · next same => rw [same] at after; exact ⟨_, rfl, after⟩
      · next same => rw [same] at succeeds; contradiction

def hashTail : List Byte → Scanned
  | [] => .error "Error finding token following #"
  | c :: rest =>
      if c = byte 'b' then
        (listTail .bit .binaryLiteral "Error expected bit string" rest).prepend [c]
      else if c = byte 'x' then
        (listTail .hexadecimalDigit .hexLiteral "Error expected hexadecimal string" rest).prepend [c]
      else .error "Error finding token following #"

theorem hashToken_at (at_ : At l strict token rest) : Reads strict token l.hashToken (hashTail rest) := by
  obtain ⟨read, after, _⟩ := nextChar_at at_
  cases rest with
  | nil => simp [hashToken, hashTail, read, Reads]
  | cons c more =>
    have pushed := pushToToken_at after c
    simp only [hashToken, hashTail, read, List.head?_cons, Option.some.injEq]
    split
    · exact (expectCharList_at pushed).prepend
    · split
      · exact (expectCharList_at pushed).prepend
      · rfl

def numberTail (rest : List Byte) : Scanned :=
  let digits := rest.takeWhile (charClass · .decimalDigit)
  match rest.dropWhile (charClass · .decimalDigit) with
  | [] => .ok (.integerLiteral, digits, [])
  | c :: more =>
      if c = byte '.' then
        (listTail .decimalDigit .decimalLiteral "Error expected decimal string following ." more).prepend
          (digits ++ [c])
      else if c = byte '/' then
        (listTail .decimalDigit .rationalLiteral "Error expected decimal string following ." more).prepend
          (digits ++ [c])
      else .ok (.integerLiteral, digits, c :: more)

theorem numberToken_at (at_ : At l strict token rest)
    : Reads strict token l.numberToken (numberTail rest) := by
  have digits := parseCharList_at .decimalDigit at_
  obtain ⟨read, after, plain⟩ := nextChar_at digits
  simp only [numberToken, numberTail]
  cases left : rest.dropWhile (charClass · .decimalDigit) with
  | nil =>
    rw [left] at read after
    simp only [read, List.head?_nil, reduceCtorEq, if_false]
    exact ⟨_, rfl, saveChar_at after plain rfl⟩
  | cons c more =>
    rw [left] at read after
    have pushed := pushToToken_at after c
    rw [List.append_assoc] at pushed
    simp only [read, List.head?_cons, Option.some.injEq]
    split
    · exact (expectCharList_at pushed).prepend
    · split
      · exact (expectCharList_at pushed).prepend
      · exact ⟨_, rfl, saveChar_at after plain rfl⟩

/-- The character after a keyword of one character is lost. -/
def keywordTail : List Byte → Scanned
  | [] => .error "Error expected symbol following :"
  | d :: rest =>
      if charClass d .symbolStart then
        match rest with
        | [] => .ok (.keyword, [d], [])
        | e :: more =>
            if charClass e .symbol then
              .ok (.keyword, d :: e :: more.takeWhile (charClass · .symbol),
                more.dropWhile (charClass · .symbol))
            else .ok (.keyword, [d], more)
      else .error "Error expected symbol following :"

theorem keywordToken_at (at_ : At l strict token rest)
    : Reads strict token l.keywordToken (keywordTail rest) := by
  have failing (outside : ∀ c ∈ rest.head?, charClass c .symbolStart = false)
      : l.keywordToken = .error "Error expected symbol following :" := by
    have fails := parseChar_fails at_ outside
    unfold keywordToken
    split
    · rfl
    · next same => rw [same] at fails; contradiction
  cases rest with
  | nil => exact failing nofun
  | cons d more =>
    cases inside : charClass d .symbolStart with
    | false =>
      simp only [keywordTail, inside, Bool.false_eq_true, if_false]
      exact failing (by simpa using inside)
    | true =>
      obtain ⟨succeeds, after⟩ := parseChar_at at_ inside
      simp only [keywordTail, inside, if_true]
      unfold keywordToken
      split
      · next same => rw [same] at succeeds; contradiction
      · next l' same =>
        rw [same] at after
        cases more with
        | nil =>
          obtain ⟨_, last⟩ := parseNonEmptyCharList_fails .symbol after nofun
          exact ⟨_, rfl, last⟩
        | cons e more =>
          cases longer : charClass e .symbol with
          | false =>
            obtain ⟨_, last⟩ := parseNonEmptyCharList_fails .symbol after (by simpa using longer)
            simp only [longer, Bool.false_eq_true, if_false]
            exact ⟨_, rfl, last⟩
          | true =>
            obtain ⟨_, last⟩ := parseNonEmptyCharList_at after longer
            simp only [longer, if_true]
            exact ⟨_, rfl, by simpa using last⟩

/-- The token that starts with a character. -/
def scanToken (strict : Bool) (ch : Byte) (rest : List Byte) : Scanned :=
  if ch = byte '(' then .ok (.lparenTok, [], rest)
  else if ch = byte ')' then .ok (.rparenTok, [], rest)
  else if ch = byte '|' then .ok (quotedTail rest)
  else if ch = byte '#' then hashTail rest
  else if ch = byte '"' then stringTail rest
  else if ch = byte ':' then keywordTail rest
  else if charClass ch .decimalDigit then numberTail rest
  else if charClass ch .symbolStart then
    .ok (tokenizeCurrentSymbol strict (ch :: rest.takeWhile (charClass · .symbol)),
      rest.takeWhile (charClass · .symbol), rest.dropWhile (charClass · .symbol))
  else .error "Error finding token"

theorem computeNextToken_at (at_ : At l strict [] rest)
    : match skip false rest with
      | [] => ∃ l', l.computeNextToken = .ok (.eofTok, l')
      | ch :: more => Reads strict [] l.computeNextToken ((scanToken strict ch more).prepend [ch]) := by
  have enough : rest.length < l.unread.length + 1 := by rw [at_.rest]; omega
  obtain ⟨first, left, here, isTail⟩ := skipSeparators_at (l.unread.length + 1) at_ enough
  unfold computeNextToken
  cases skipped : skip false rest with
  | nil =>
    rw [skipped] at first
    cases same : skipSeparators (l.unread.length + 1) l with
    | mk next l' =>
      rw [same] at first
      cases first
      exact ⟨l', rfl⟩
  | cons ch more =>
    rw [skipped] at first
    cases same : skipSeparators (l.unread.length + 1) l with
    | mk next l' =>
      rw [same] at first here
      cases first
      have isMore : left = more := by simpa [skipped] using isTail
      subst isMore
      have pushed := pushToToken_at here ch
      have fuel : left.length < (l'.pushToToken (some ch)).unread.length + 1 := by
        rw [pushed.rest]
        omega
      refine Reads.prepend ?_
      rw [List.nil_append] at pushed ⊢
      simp only [scanToken, class_some]
      split
      · exact ⟨_, rfl, by simpa using pushed⟩
      split
      · exact ⟨_, rfl, by simpa using pushed⟩
      split
      · exact quotedSymbolLoop_at _ pushed fuel
      split
      · exact hashToken_at pushed
      split
      · exact stringLiteralLoop_at _ pushed fuel
      split
      · exact keywordToken_at pushed
      by_cases digit : charClass ch .decimalDigit = true
      · simp only [digit, if_true]
        exact numberToken_at pushed
      by_cases starts : charClass ch .symbolStart = true
      · have symbols := parseCharList_at .symbol pushed
        simp only [digit, starts, if_true, Bool.false_eq_true, if_false]
        refine ⟨_, ?_, symbols⟩
        rw [symbols.strict, symbols.token, List.singleton_append]
      · simp only [digit, starts, Bool.false_eq_true, if_false]
        rfl

/-- One call of `nextToken`. -/
theorem nextToken_at {previous : List Byte} (at_ : At l strict previous rest)
    : match skip false rest with
      | [] => ∃ l', l.nextToken = .ok (.eofTok, l')
      | ch :: more => Reads strict [] l.nextToken ((scanToken strict ch more).prepend [ch]) := by
  have fresh : At { l with token := [] } strict [] rest := ⟨at_.valid, at_.strict, rfl, at_.rest⟩
  have same : l.nextToken = computeNextToken { l with token := [] } := by
    simp only [nextToken, at_.valid.2, nextTokenInternal]
  rw [same]
  exact computeNextToken_at fresh

end Ava6.Parser.Lexer

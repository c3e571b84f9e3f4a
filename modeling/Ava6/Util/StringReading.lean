import Ava6.Util.InternalString
import Mathlib.Tactic

/-! The reading of text with escapes, and that the reader finds it for all text that its position can
count. Printed strings are read back.
-/

namespace Ava6.Util.InternalString

-- The reading of SMT-LIB

def isHex (ch : UInt8) : Bool := isHexDigit ch.toNat

/-- The digits between braces, and the text behind. -/
def bracedDigits (text : List UInt8) : Option (List UInt8 × List UInt8) :=
  let digits := text.takeWhile isHex
  if 1 ≤ digits.length ∧ digits.length ≤ 5 then
    match text.dropWhile isHex with
    | ch :: rest => if ch = closeBrace then some (digits, rest) else none
    | [] => none
  else none

/-- Four digits, and the text behind. -/
def plainDigits (text : List UInt8) : Option (List UInt8 × List UInt8) :=
  if 4 ≤ (text.takeWhile isHex).length then some (text.take 4, text.drop 4) else none

def escapeDigits : List UInt8 → Option (List UInt8 × List UInt8)
  | first :: second :: text =>
      if first = backslash ∧ second = letterU then
        if text.head? = some openBrace then bracedDigits text.tail else plainDigits text
      else none
  | _ => none

/-- The code point of the escape that text starts with, and the text behind. -/
def escapeOf (text : List UInt8) : Option (Nat × List UInt8) :=
  match escapeDigits text with
  | some (digits, rest) =>
      if hexValue digits < numCodes then some (hexValue digits, rest) else none
  | none => none

theorem bracedDigits_length {text digits rest : List UInt8}
    (found : bracedDigits text = some (digits, rest))
    : rest.length ≤ text.length := by
  simp only [bracedDigits] at found
  split at found
  · split at found
    · next ch after isRest =>
        split at found
        · cases found
          have shorter := (List.dropWhile_suffix (l := text) isHex).length_le
          rw [isRest] at shorter
          exact Nat.le_of_succ_le shorter
        · cases found
    · cases found
  · cases found

theorem escapeDigits_length {text digits rest : List UInt8}
    (found : escapeDigits text = some (digits, rest))
    : rest.length < text.length := by
  rcases text with _ | ⟨first, _ | ⟨second, text⟩⟩
  · cases found
  · cases found
  · rw [escapeDigits] at found
    split at found
    · split at found
      · have shorter := bracedDigits_length found
        simp only [List.length_tail, List.length_cons] at shorter ⊢
        omega
      · rw [plainDigits] at found
        split at found
        · cases found
          simp only [List.length_drop, List.length_cons]
          omega
        · cases found
    · cases found

variable {code : Nat}

theorem escapeOf_length {text rest : List UInt8}
    (found : escapeOf text = some (code, rest))
    : rest.length < text.length := by
  rw [escapeOf] at found
  split at found
  · next digits after isEscape =>
      split at found
      · cases found
        exact escapeDigits_length isEscape
      · cases found
  · cases found

/-- Escapes stand for their code points, all other bytes for themselves. -/
def reading (text : List UInt8) : List Nat :=
  match text with
  | [] => []
  | ch :: rest =>
      match _found : escapeOf (ch :: rest) with
      | some (code, after) => code :: reading after
      | none => ch.toNat :: reading rest
termination_by text.length
decreasing_by
  · exact escapeOf_length _found
  · simp

@[simp] theorem reading_nil : reading [] = [] := by rw [reading]

theorem reading_escape {text rest : List UInt8}
    (found : escapeOf text = some (code, rest))
    : reading text = code :: reading rest := by
  cases text with
  | nil => cases found
  | cons ch after =>
      rw [reading]
      split
      · next other isEscape =>
          rw [found] at isEscape
          cases isEscape
          rfl
      · next isNone =>
          rw [found] at isNone
          cases isNone

theorem reading_literal {ch : UInt8} {rest : List UInt8} (none : escapeOf (ch :: rest) = none)
    : reading (ch :: rest) = ch.toNat :: reading rest := by
  rw [reading]
  split
  · next isEscape =>
      rw [none] at isEscape
      cases isEscape
  · rfl

theorem escapeOf_of_ne {ch : UInt8} {rest : List UInt8} (notEscape : ch ≠ backslash)
    : escapeOf (ch :: rest) = none := by
  have noDigits : escapeDigits (ch :: rest) = none := by
    cases rest with
    | nil => rfl
    | cons second text => rw [escapeDigits, if_neg (fun both => notEscape both.1)]
  rw [escapeOf, noDigits]

/-- No escape starts in text without a backslash. -/
theorem reading_append {text rest : List UInt8} (noEscape : ∀ ch ∈ text, ch ≠ backslash)
    : reading (text ++ rest) = text.map UInt8.toNat ++ reading rest := by
  induction text with
  | nil => rfl
  | cons ch text ih =>
      rw [List.cons_append, reading_literal (escapeOf_of_ne (noEscape ch (List.mem_cons_self ..))),
        ih (fun other member => noEscape other (List.mem_cons_of_mem _ member))]
      rfl

/-- The text that starts at a position. -/
def At (s : List UInt8) (i : UInt32) (text : List UInt8) : Prop := s.drop i.toNat = text

variable {s text rest : List UInt8} {i : UInt32} {ch : UInt8}

theorem At.not_lt (position : At s i []) : ¬i.toNat < s.length := by
  have empty := congrArg List.length position
  rw [List.length_drop, List.length_nil] at empty
  omega

theorem At.lt (position : At s i (ch :: text)) : i.toNat < s.length := by
  have notEmpty := congrArg List.length position
  rw [List.length_drop, List.length_cons] at notEmpty
  omega

theorem At.charAt (position : At s i (ch :: text)) : charAt s i = ch := by
  have head : (s.drop i.toNat).head? = some ch := by rw [position, List.head?_cons]
  rw [List.head?_drop] at head
  rw [InternalString.charAt, List.getD, head, Option.getD_some]

theorem At.next (short : s.length < 2 ^ 32) (position : At s i (ch :: text)) : At s (i + 1) text := by
  have inside := position.lt
  have next : (i + 1).toNat = i.toNat + 1 := by
    rw [UInt32.toNat_add, UInt32.toNat_one, Nat.mod_eq_of_lt (by omega)]
  have rest : (s.drop i.toNat).drop 1 = text := by rw [position, List.drop_one, List.tail_cons]
  rwa [At, next, ← List.drop_drop]

def Legal (ch : UInt8) : Prop := 32 ≤ ch.toNat ∧ ch.toNat ≤ 127

instance (ch : UInt8) : Decidable (Legal ch) :=
  inferInstanceAs (Decidable (32 ≤ ch.toNat ∧ ch.toNat ≤ 127))

theorem addCharToInternal_legal (legal : Legal ch) (str : List Nat)
    : addCharToInternal ch str = .ok (str ++ [ch.toNat]) := by
  rw [addCharToInternal, if_neg]
  rintro (large | small)
  · exact absurd legal.2 (Nat.not_le.mpr large)
  · exact absurd legal.1 (Nat.not_le.mpr small)

theorem addCharToInternal_illegal (illegal : ¬Legal ch) (str : List Nat)
    : addCharToInternal ch str = .error (.exception (illegalCharacter ch)) := by
  rw [addCharToInternal, if_pos]
  by_contra bounds
  exact illegal (by simpa [Legal, not_or, and_comm] using bounds)

theorem legal_of_isHex (hex : isHex ch = true) : Legal ch := by
  simp only [isHex, isHexDigit, isDigit, Bool.or_eq_true, decide_eq_true_eq] at hex
  rw [Legal]
  omega

-- Reading an escape

def Plain (ch : UInt8) : Prop := Legal ch ∧ ch ≠ backslash

instance (ch : UInt8) : Decidable (Plain ch) :=
  inferInstanceAs (Decidable (Legal ch ∧ ch ≠ backslash))

theorem plain_of_isHex (hex : isHex ch = true) : Plain ch :=
  ⟨legal_of_isHex hex, by rintro rfl; exact absurd hex (by decide)⟩

/-- An escape is read from text: the characters taken are kept and hold no backslash, and the digits
are the expected ones, if any. -/
def Finished (s : List UInt8) (cache : List Nat) (text : List UInt8)
    (expected : Option (List UInt8 × List UInt8)) (escape : Escape) : Prop :=
  ∃ taken rest, text = taken ++ rest ∧ At s escape.i rest
    ∧ escape.nonEscCache = cache ++ taken.map UInt8.toNat
    ∧ (∀ ch ∈ taken, Plain ch)
    ∧ expected
      = if escape.isEnd && escape.isEscapeSequence then some (escape.hexString, rest) else none

variable {cache : List Nat} {expected : Option (List UInt8 × List UInt8)} {escape : Escape}

/-- One more character was taken before. -/
theorem Finished.cons (finished : Finished s (cache ++ [ch.toNat]) text expected escape)
    (isPlain : Plain ch)
    : Finished s cache (ch :: text) expected escape := by
  obtain ⟨taken, rest, isText, position, kept, allPlain, isExpected⟩ := finished
  refine ⟨ch :: taken, rest, by rw [isText, List.cons_append], position, ?_,
    List.forall_mem_cons.mpr ⟨isPlain, allPlain⟩, isExpected⟩
  rw [kept, List.map_cons, List.append_assoc, List.singleton_append]

/-- Nothing more is taken, and there is no escape. -/
theorem Finished.reject (position : At s escape.i text) (isExpected : expected = none)
    (rejected : (escape.isEnd && escape.isEscapeSequence) = false)
    : Finished s escape.nonEscCache text expected escape := by
  refine ⟨[], text, rfl, position, by simp, by simp, ?_⟩
  rw [isExpected, rejected, if_neg (by simp)]

variable {digits : List UInt8}

theorem takeWhile_hex_append (hex : ∀ digit ∈ digits, isHex digit = true)
    : (digits ++ text).takeWhile isHex = digits ++ text.takeWhile isHex :=
  List.takeWhile_append_of_pos hex

theorem dropWhile_hex_append (hex : ∀ digit ∈ digits, isHex digit = true)
    : (digits ++ text).dropWhile isHex = text.dropWhile isHex :=
  List.dropWhile_append_of_pos hex

/-- The state after a character is taken. -/
def Escape.taken (escape : Escape) (ch : UInt8) : Escape :=
  { escape with nonEscCache := escape.nonEscCache ++ [ch.toNat], i := escape.i + 1, isStart := false }

theorem Escape.take_eq_taken (legal : Legal ch) (escape : Escape)
    : escape.take ch = .ok (escape.taken ch) := by
  rw [Escape.take, addCharToInternal_legal legal]
  rfl

theorem escapeLoop_nil (steps : Nat) (position : At s escape.i [])
    : escapeLoop s (steps + 1) escape = .ok escape := by
  rw [escapeLoop, if_neg position.not_lt]
  rfl

theorem escapeLoop_openBrace (steps : Nat) (position : At s escape.i (openBrace :: text))
    (isStart : escape.isStart = true)
    : escapeLoop s (steps + 1) escape
      = escapeLoop s steps { escape.taken openBrace with hasBrace := true } := by
  rw [escapeLoop, if_pos position.lt]
  simp only [position.charAt, isStart, beq_self_eq_true, Bool.and_self, if_true,
    Escape.take_eq_taken (show Legal openBrace by decide)]
  rfl

theorem escapeLoop_closeBrace (steps : Nat) (position : At s escape.i (closeBrace :: text))
    (notStart : escape.isStart = false)
    : escapeLoop s (steps + 1) escape
      = .ok { escape.taken closeBrace with
          isEscapeSequence := escape.hasBrace && !escape.hexString.isEmpty, isEnd := true } := by
  rw [escapeLoop, if_pos position.lt]
  simp only [position.charAt, notStart, beq_self_eq_true, Bool.false_and, Bool.not_false,
    Bool.and_self, Bool.false_eq_true, if_true, if_false,
    Escape.take_eq_taken (show Legal closeBrace by decide)]
  rfl

theorem escapeLoop_other (steps : Nat) (position : At s escape.i (ch :: text))
    (notHex : isHex ch = false) (notOpen : escape.isStart = true → ch ≠ openBrace)
    (notClose : escape.isStart = false → ch ≠ closeBrace)
    : escapeLoop s (steps + 1) escape
      = .ok { escape with isStart := false, isEscapeSequence := false } := by
  have noOpen : (escape.isStart && ch == openBrace) = false := by
    cases start : escape.isStart <;> simp [start, notOpen]
  have noClose : (!escape.isStart && ch == closeBrace) = false := by
    cases start : escape.isStart <;> simp [start, notClose]
  have noDigit : (!isHexDigit ch.toNat) = true := by
    have plain : isHexDigit ch.toNat = false := notHex
    simp [plain]
  rw [escapeLoop, if_pos position.lt]
  simp only [position.charAt, noOpen, noClose, noDigit, Bool.false_eq_true, if_true, if_false]
  rfl

/-- The state after a digit is taken. -/
def Escape.digit (escape : Escape) (ch : UInt8) : Escape :=
  { escape.taken ch with hexString := escape.hexString ++ [ch] }

theorem escapeLoop_digit (steps : Nat) (position : At s escape.i (ch :: text))
    (hex : isHex ch = true)
    : escapeLoop s (steps + 1) escape
      = if !escape.hasBrace && (escape.hexString ++ [ch]).length == 4 then
          .ok { escape.digit ch with isEnd := true }
        else if escape.hasBrace && decide ((escape.hexString ++ [ch]).length > 5) then
          .ok { escape.digit ch with isEscapeSequence := false }
        else escapeLoop s steps (escape.digit ch) := by
  have notOpen : ch ≠ openBrace := by
    rintro rfl
    exact absurd hex (by decide)
  have notClose : ch ≠ closeBrace := by
    rintro rfl
    exact absurd hex (by decide)
  have isDigit : (!isHexDigit ch.toNat) = false := by
    have plain : isHexDigit ch.toNat = true := hex
    simp [plain]
  rw [escapeLoop, if_pos position.lt]
  simp only [position.charAt, beq_eq_false_iff_ne.mpr notOpen, beq_eq_false_iff_ne.mpr notClose,
    Bool.and_false, Bool.false_eq_true, if_false, isDigit,
    Escape.take_eq_taken (legal_of_isHex hex)]
  rfl

/-- The state of the loop before the escape ends. -/
structure Escape.Open (escape : Escape) (hasBrace : Bool) : Prop where
  isEscapeSequence : escape.isEscapeSequence = true
  isEnd : escape.isEnd = false
  hasBrace : escape.hasBrace = hasBrace
  hex : ∀ digit ∈ escape.hexString, isHex digit = true

theorem Escape.Open.digit {hasBrace : Bool} (isOpen : escape.Open hasBrace) (hex : isHex ch = true)
    : (escape.digit ch).Open hasBrace :=
  ⟨isOpen.isEscapeSequence, isOpen.isEnd, isOpen.hasBrace, fun digit member =>
    (List.mem_append.mp member).elim (isOpen.hex digit) (fun isLast =>
      List.mem_singleton.mp isLast ▸ hex)⟩

theorem bracedDigits_append (hex : ∀ digit ∈ digits, isHex digit = true)
    (notHex : isHex ch = false)
    : bracedDigits (digits ++ ch :: text)
      = if (1 ≤ digits.length ∧ digits.length ≤ 5) ∧ ch = closeBrace then some (digits, text)
        else none := by
  rw [bracedDigits, takeWhile_hex_append hex, dropWhile_hex_append hex,
    List.takeWhile_cons_of_neg (by simp [notHex]), List.dropWhile_cons_of_neg (by simp [notHex]),
    List.append_nil]
  by_cases few : 1 ≤ digits.length ∧ digits.length ≤ 5
  · simp [few]
  · simp only [few, if_false, false_and]

variable {steps : Nat}

theorem escapeLoop_braced (short : s.length < 2 ^ 32) (enough : text.length < steps)
    (position : At s escape.i text) (isOpen : escape.Open true) (notStart : escape.isStart = false)
    (few : escape.hexString.length ≤ 5)
    : ∃ result, escapeLoop s steps escape = .ok result
      ∧ Finished s escape.nonEscCache text (bracedDigits (escape.hexString ++ text)) result := by
  induction text generalizing escape steps with
  | nil =>
      obtain ⟨steps, rfl⟩ := Nat.exists_eq_succ_of_ne_zero (Nat.ne_of_gt enough)
      refine ⟨escape, escapeLoop_nil steps position, .reject position ?_ (by simp [isOpen.isEnd])⟩
      have noRest : escape.hexString.dropWhile isHex = [] := by
        have dropped : (escape.hexString ++ []).dropWhile isHex = [] :=
          (dropWhile_hex_append isOpen.hex).trans List.dropWhile_nil
        rwa [List.append_nil] at dropped
      rw [List.append_nil, bracedDigits, noRest]
      simp
  | cons ch text ih =>
      obtain ⟨steps, rfl⟩ := Nat.exists_eq_succ_of_ne_zero (Nat.ne_of_gt (Nat.zero_lt_of_lt enough))
      cases hex : isHex ch with
      | true =>
          rw [Nat.succ_eq_add_one, escapeLoop_digit steps position hex]
          simp only [isOpen.hasBrace, Bool.not_true, Bool.false_and, Bool.false_eq_true, if_false,
            Bool.true_and, decide_eq_true_eq]
          split
          · next many =>
              refine ⟨_, rfl, ch :: [], text, rfl, position.next short, rfl,
                by simpa using plain_of_isHex hex, ?_⟩
              have tooMany : ¬((escape.hexString ++ ch :: text).takeWhile isHex).length ≤ 5 := by
                rw [takeWhile_hex_append isOpen.hex, List.takeWhile_cons_of_pos hex]
                simp only [List.length_append, List.length_cons, List.length_nil] at many ⊢
                omega
              rw [bracedDigits, if_neg (fun both => tooMany both.2)]
              simp
          · next notMany =>
              have next : At s (escape.digit ch).i text := position.next short
              obtain ⟨result, isResult, finished⟩ := ih (Nat.lt_of_succ_lt_succ enough) next
                (isOpen.digit hex) rfl (Nat.le_of_not_lt notMany)
              refine ⟨result, isResult, ?_⟩
              have sameText : (escape.digit ch).hexString ++ text = escape.hexString ++ ch :: text :=
                List.append_cons .. |>.symm
              rw [sameText] at finished
              exact finished.cons (plain_of_isHex hex)
      | false =>
          rw [bracedDigits_append isOpen.hex hex]
          by_cases close : ch = closeBrace
          · subst close
            refine ⟨_, escapeLoop_closeBrace steps position notStart, closeBrace :: [], text, rfl,
              position.next short, rfl, by simp only [List.forall_mem_singleton]; decide, ?_⟩
            simp only [isOpen.hasBrace, Escape.taken, Bool.true_and, few, and_true]
            cases escape.hexString <;> simp
          · refine ⟨_, escapeLoop_other steps position hex (by simp [notStart]) (fun _ => close), ?_⟩
            exact ⟨[], ch :: text, rfl, position, by simp, by simp,
              by rw [if_neg (fun both => close both.2)]; simp⟩

theorem plainDigits_append (hex : ∀ digit ∈ digits, isHex digit = true)
    (few : digits.length < 4) (noDigits : text.takeWhile isHex = [])
    : plainDigits (digits ++ text) = none := by
  rw [plainDigits, takeWhile_hex_append hex, noDigits, List.append_nil, if_neg (Nat.not_le.mpr few)]

theorem escapeLoop_plain (short : s.length < 2 ^ 32) (enough : text.length < steps)
    (position : At s escape.i text) (isOpen : escape.Open false)
    (notOpen : escape.isStart = true → text.head? ≠ some openBrace)
    (few : escape.hexString.length < 4)
    : ∃ result, escapeLoop s steps escape = .ok result
      ∧ Finished s escape.nonEscCache text (plainDigits (escape.hexString ++ text)) result := by
  induction text generalizing escape steps with
  | nil =>
      obtain ⟨steps, rfl⟩ := Nat.exists_eq_succ_of_ne_zero (Nat.ne_of_gt enough)
      exact ⟨escape, escapeLoop_nil steps position,
        .reject position (plainDigits_append isOpen.hex few rfl) (by simp [isOpen.isEnd])⟩
  | cons ch text ih =>
      obtain ⟨steps, rfl⟩ := Nat.exists_eq_succ_of_ne_zero (Nat.ne_of_gt (Nat.zero_lt_of_lt enough))
      cases hex : isHex ch with
      | true =>
          have sameText : (escape.digit ch).hexString ++ text = escape.hexString ++ ch :: text :=
            List.append_cons .. |>.symm
          rw [Nat.succ_eq_add_one, escapeLoop_digit steps position hex]
          simp only [isOpen.hasBrace, Bool.not_false, Bool.false_and, Bool.false_eq_true, if_false,
            Bool.true_and, beq_iff_eq]
          split
          · next four =>
              refine ⟨_, rfl, ch :: [], text, rfl, position.next short, rfl,
                by simpa using plain_of_isHex hex, ?_⟩
              have isLength : (escape.digit ch).hexString.length = 4 := four
              have allHex := (isOpen.digit hex).hex
              rw [← sameText, plainDigits, takeWhile_hex_append allHex, List.length_append, isLength,
                if_pos (Nat.le_add_right ..), List.take_append_of_le_length (Nat.le_of_eq isLength.symm),
                List.take_of_length_le (Nat.le_of_eq isLength),
                List.drop_append_of_le_length (Nat.le_of_eq isLength.symm),
                List.drop_of_length_le (Nat.le_of_eq isLength)]
              have accepted : (escape.digit ch).isEscapeSequence = true := isOpen.isEscapeSequence
              simp [accepted]
          · next notFour =>
              have next : At s (escape.digit ch).i text := position.next short
              have fewer : (escape.digit ch).hexString.length < 4 := by
                have count : (escape.digit ch).hexString.length = escape.hexString.length + 1 := by
                  simp [Escape.digit]
                simp only [List.length_append, List.length_singleton] at notFour
                omega
              obtain ⟨result, isResult, finished⟩ := ih (Nat.lt_of_succ_lt_succ enough) next
                (isOpen.digit hex) (fun isStart => by cases isStart) fewer
              rw [sameText] at finished
              exact ⟨result, isResult, finished.cons (plain_of_isHex hex)⟩
      | false =>
          have noDigits : plainDigits (escape.hexString ++ ch :: text) = none :=
            plainDigits_append isOpen.hex few (List.takeWhile_cons_of_neg (by simp [hex]))
          by_cases close : escape.isStart = false ∧ ch = closeBrace
          · obtain ⟨notStart, rfl⟩ := close
            refine ⟨_, escapeLoop_closeBrace steps position notStart, closeBrace :: [], text, rfl,
              position.next short, rfl, by simp only [List.forall_mem_singleton]; decide, ?_⟩
            simp [isOpen.hasBrace, noDigits]
          · refine ⟨_, escapeLoop_other steps position hex (fun isStart same => ?_)
              (fun notStart same => close ⟨notStart, same⟩), ?_⟩
            · exact notOpen isStart (by rw [same, List.head?_cons])
            · exact ⟨[], ch :: text, rfl, position, by simp, by simp, by simp [noDigits]⟩

/-- The loop started behind a backslash and the letter. -/
theorem escapeLoop_start (short : s.length < 2 ^ 32) (enough : text.length < steps)
    (position : At s i text) (cache : List Nat)
    : ∃ result, escapeLoop s steps ⟨i, cache, [], true, true, false, false⟩ = .ok result
      ∧ Finished s cache text (escapeDigits (backslash :: letterU :: text)) result := by
  have isOpen (hasBrace : Bool) (j : UInt32) (kept : List Nat) (isStart : Bool)
      : Escape.Open ⟨j, kept, [], true, isStart, false, hasBrace⟩ hasBrace :=
    ⟨rfl, rfl, rfl, by simp⟩
  rw [escapeDigits, if_pos ⟨rfl, rfl⟩]
  by_cases braced : text.head? = some openBrace
  · obtain ⟨text, rfl⟩ : ∃ rest, text = openBrace :: rest := by
      cases text with
      | nil => cases braced
      | cons ch rest => exact ⟨rest, by rw [Option.some.inj braced]⟩
    obtain ⟨steps, rfl⟩ := Nat.exists_eq_succ_of_ne_zero (Nat.ne_of_gt (Nat.zero_lt_of_lt enough))
    have next : At s (i + 1) text := position.next short
    rw [if_pos braced, Nat.succ_eq_add_one, escapeLoop_openBrace steps position rfl, List.tail_cons]
    obtain ⟨result, isResult, finished⟩ := escapeLoop_braced short (Nat.lt_of_succ_lt_succ enough)
      next (isOpen true (i + 1) (cache ++ [openBrace.toNat]) false) rfl (Nat.zero_le _)
    rw [List.nil_append] at finished
    exact ⟨result, isResult, finished.cons (by decide)⟩
  · rw [if_neg braced]
    exact escapeLoop_plain short enough position (isOpen false i cache true) (fun _ => braced)
      (by simp)

/-- What follows a backslash is read as an escape if it is one. -/
theorem readEscape_finished (short : s.length < 2 ^ 32) (enough : text.length < steps)
    (position : At s i text) (cache : List Nat)
    : ∃ result, readEscape s steps i cache = .ok result
      ∧ (result.isEscapeSequence = true → result.isEnd = true)
      ∧ Finished s cache text (escapeDigits (backslash :: text)) result := by
  rcases text with _ | ⟨ch, text⟩
  · refine ⟨⟨i, cache, [], false, true, false, false⟩, ?_, nofun, .reject position rfl rfl⟩
    simp only [readEscape, Nat.le_of_not_lt position.not_lt, decide_true, Bool.true_or, if_true]
    rfl
  · have inside : ¬s.length ≤ i.toNat := Nat.not_le.mpr position.lt
    by_cases isLetter : ch = letterU
    · subst isLetter
      obtain ⟨result, isResult, finished⟩ := escapeLoop_start short (Nat.lt_of_succ_lt enough)
        (position.next short) (cache ++ [letterU.toNat])
      refine ⟨{ result with isEscapeSequence := result.isEnd && result.isEscapeSequence }, ?_,
        fun both => (Bool.and_eq_true _ _ ▸ both).1, ?_⟩
      · simp only [readEscape, inside, position.charAt, decide_false, bne_self_eq_false, Bool.or_self,
          Bool.false_eq_true, if_false, addCharToInternal_legal (show Legal letterU by decide)]
        exact congrArg (fun escape => escape >>= fun escape => Except.ok
          { escape with isEscapeSequence := escape.isEnd && escape.isEscapeSequence }) isResult
      · obtain ⟨taken, rest, isText, atRest, kept, allPlain, isExpected⟩ :=
          finished.cons (show Plain letterU by decide)
        refine ⟨taken, rest, isText, atRest, kept, allPlain, ?_⟩
        rw [isExpected]
        simp only [← Bool.and_assoc, Bool.and_self]
    · refine ⟨⟨i, cache, [], false, true, false, false⟩, ?_, nofun, .reject position ?_ rfl⟩
      · simp only [readEscape, inside, position.charAt, bne_iff_ne.mpr isLetter, decide_false,
          Bool.or_true, if_true]
        rfl
      · rw [escapeDigits, if_neg (fun both => isLetter both.2)]

-- Reading text

/-- What is read behind a backslash and what is left make up the reading. -/
theorem Finished.reading
    (finished : Finished s [backslash.toNat] text (escapeDigits (backslash :: text)) escape)
    (ended : escape.isEscapeSequence = true → escape.isEnd = true)
    : ∃ taken rest, text = taken ++ rest ∧ At s escape.i rest ∧ (∀ ch ∈ taken, Legal ch)
      ∧ InternalString.reading (backslash :: text)
        = escape.codes ++ InternalString.reading rest := by
  obtain ⟨taken, rest, rfl, position, kept, allPlain, isExpected⟩ := finished
  refine ⟨taken, rest, rfl, position, fun ch member => (allPlain ch member).1, ?_⟩
  have literal (none : escapeOf (backslash :: (taken ++ rest)) = none)
      : InternalString.reading (backslash :: (taken ++ rest))
        = escape.nonEscCache ++ InternalString.reading rest := by
    rw [reading_literal none, reading_append (fun ch member => (allPlain ch member).2), kept]
    rfl
  rw [Escape.codes]
  cases isEscape : escape.isEscapeSequence with
  | false =>
      rw [isEscape, Bool.and_false, if_neg (by simp)] at isExpected
      simp only [Bool.false_and, Bool.false_eq_true, if_false]
      exact literal (by rw [escapeOf, isExpected])
  | true =>
      rw [isEscape, ended isEscape, Bool.and_self, if_pos rfl] at isExpected
      by_cases inRange : hexValue escape.hexString < numCodes
      · simp only [inRange, decide_true, Bool.and_self, if_true]
        have found : escapeOf (backslash :: (taken ++ rest))
            = some (hexValue escape.hexString, rest) := by
          rw [escapeOf, isExpected]
          exact if_pos inRange
        rw [reading_escape found, List.singleton_append]
      · simp only [inRange, decide_false, Bool.and_false, Bool.false_eq_true, if_false]
        refine literal ?_
        rw [escapeOf, isExpected]
        exact if_neg inRange

theorem internalLoop_nil (steps : Nat) (position : At s i []) (str : List Nat)
    : internalLoop s true (steps + 1) i str = .ok str := by
  rw [internalLoop, if_neg position.not_lt]
  rfl

theorem internalLoop_literal (steps : Nat) (position : At s i (ch :: text)) (str : List Nat)
    (notEscape : ch ≠ backslash)
    : internalLoop s true (steps + 1) i str
      = addCharToInternal ch str >>= internalLoop s true steps (i + 1) := by
  rw [internalLoop, if_pos position.lt]
  simp only [position.charAt, bne_iff_ne.mpr notEscape, Bool.true_or, if_true]

theorem internalLoop_backslash (steps : Nat) (position : At s i (backslash :: text)) (str : List Nat)
    {result : Escape} (isResult : readEscape s steps (i + 1) [backslash.toNat] = .ok result)
    : internalLoop s true (steps + 1) i str
      = internalLoop s true steps result.i (str ++ result.codes) := by
  rw [internalLoop, if_pos position.lt]
  simp only [position.charAt, bne_self_eq_false, Bool.not_true, Bool.or_self, Bool.false_eq_true,
    if_false, addCharToInternal_legal (show Legal backslash by decide)]
  exact congrArg (fun escape => escape >>= fun escape : Escape =>
    internalLoop s true steps escape.i (str ++ escape.codes)) isResult

/-- Text of legal characters is read as it should be. -/
theorem internalLoop_legal (short : s.length < 2 ^ 32) (enough : text.length < steps)
    (position : At s i text) (str : List Nat) (legal : ∀ ch ∈ text, Legal ch)
    : internalLoop s true steps i str = .ok (str ++ reading text) := by
  induction length : text.length using Nat.strong_induction_on generalizing text i str steps with
  | _ n ih =>
  obtain ⟨steps, rfl⟩ := Nat.exists_eq_succ_of_ne_zero (Nat.ne_of_gt (Nat.zero_lt_of_lt enough))
  rcases text with _ | ⟨ch, text⟩
  · rw [Nat.succ_eq_add_one, internalLoop_nil steps position, reading_nil, List.append_nil]
  · rw [List.length_cons] at length enough
    obtain ⟨isLegal, restLegal⟩ := List.forall_mem_cons.mp legal
    by_cases isBackslash : ch = backslash
    · subst isBackslash
      obtain ⟨result, isResult, ended, finished⟩ := readEscape_finished short
        (Nat.lt_of_succ_lt_succ enough) (position.next short) [backslash.toNat]
      obtain ⟨taken, rest, rfl, atRest, -, isReading⟩ := finished.reading ended
      rw [List.length_append] at length enough
      rw [Nat.succ_eq_add_one, internalLoop_backslash steps position str isResult, isReading,
        ih rest.length (by omega) (by omega) atRest _
          (fun ch member => restLegal ch (List.mem_append_right _ member)) rfl, List.append_assoc]
    · rw [Nat.succ_eq_add_one, internalLoop_literal steps position str isBackslash,
        addCharToInternal_legal isLegal, reading_literal (escapeOf_of_ne isBackslash)]
      have recursive := ih text.length (by omega) (Nat.lt_of_succ_lt_succ enough)
        (position.next short) (str ++ [ch.toNat]) restLegal rfl
      rw [List.append_assoc, List.singleton_append] at recursive
      exact recursive

/-- An illegal character is an error. -/
theorem internalLoop_illegal (short : s.length < 2 ^ 32) (enough : text.length < steps)
    (position : At s i text) (str : List Nat) (illegal : ∃ ch ∈ text, ¬Legal ch)
    : ∃ stop, internalLoop s true steps i str = .error stop := by
  induction length : text.length using Nat.strong_induction_on generalizing text i str steps with
  | _ n ih =>
  obtain ⟨steps, rfl⟩ := Nat.exists_eq_succ_of_ne_zero (Nat.ne_of_gt (Nat.zero_lt_of_lt enough))
  obtain ⟨bad, member, isIllegal⟩ := illegal
  rcases text with _ | ⟨ch, text⟩
  · cases member
  · rw [List.length_cons] at length enough
    by_cases isBackslash : ch = backslash
    · subst isBackslash
      obtain ⟨result, isResult, ended, finished⟩ := readEscape_finished short
        (Nat.lt_of_succ_lt_succ enough) (position.next short) [backslash.toNat]
      obtain ⟨taken, rest, rfl, atRest, takenLegal, -⟩ := finished.reading ended
      rw [List.length_append] at length enough
      rw [Nat.succ_eq_add_one, internalLoop_backslash steps position str isResult]
      refine ih rest.length (by omega) (by omega) atRest _ ⟨bad, ?_, isIllegal⟩ rfl
      rcases List.mem_cons.mp member with rfl | later
      · exact absurd (by decide) isIllegal
      · exact (List.mem_append.mp later).resolve_left (fun taken => isIllegal (takenLegal bad taken))
    · rw [Nat.succ_eq_add_one, internalLoop_literal steps position str isBackslash]
      by_cases isLegal : Legal ch
      · rw [addCharToInternal_legal isLegal]
        have later : bad ∈ text :=
          (List.mem_cons.mp member).resolve_left (fun same => isIllegal (same ▸ isLegal))
        exact ih text.length (by omega) (Nat.lt_of_succ_lt_succ enough) (position.next short)
          (str ++ [ch.toNat]) ⟨bad, later, isIllegal⟩ rfl
      · rw [addCharToInternal_illegal isLegal]
        exact ⟨_, rfl⟩

/-- In text that no position can count the loop does not come to an end. -/
theorem internalLoop_long (long : 2 ^ 32 ≤ s.length) (steps : Nat) (i : UInt32) (str result : List Nat)
    : internalLoop s true steps i str ≠ .ok result := by
  induction steps generalizing i str with
  | zero => nofun
  | succ steps ih =>
      have inside : i.toNat < s.length := Nat.lt_of_lt_of_le i.toNat_lt long
      rw [internalLoop, if_pos inside]
      dsimp only
      split
      · cases addCharToInternal (charAt s i) str with
        | error stop => nofun
        | ok str => exact ih (i + 1) str
      · cases addCharToInternal (charAt s i) [] with
        | error stop => nofun
        | ok cache =>
            cases escape : readEscape s steps (i + 1) cache with
            | error stop =>
                intro isOk
                have failed := congrArg (fun escape => escape >>= fun escape : Escape =>
                  internalLoop s true steps escape.i (str ++ escape.codes)) escape
                cases failed.symm.trans isOk
            | ok escape' =>
                intro isOk
                have continued := congrArg (fun escape => escape >>= fun escape : Escape =>
                  internalLoop s true steps escape.i (str ++ escape.codes)) escape
                exact ih escape'.i (str ++ escape'.codes) (continued.symm.trans isOk)

/-- The call comes to an end and returns this, whatever number of steps above some it is given. -/
def Returns (s : List UInt8) (useEscSequences : Bool) (str : List Nat) : Prop :=
  ∃ enough, ∀ steps ≥ enough, toInternal s useEscSequences steps = .ok str

/-- A call returns the reading of a legal text in which no position wraps around, and nothing else. -/
theorem returns_iff (s : List UInt8) (str : List Nat)
    : Returns s true str
      ↔ s.length < 2 ^ 32 ∧ (∀ ch ∈ s, Legal ch) ∧ str = reading s := by
  have position : At s 0 s := List.drop_zero
  constructor
  · rintro ⟨enough, returns⟩
    have isOk := returns (enough + s.length + 1) (by omega)
    have manySteps : s.length < enough + s.length + 1 := by omega
    have short : s.length < 2 ^ 32 := by
      by_contra long
      exact internalLoop_long (Nat.le_of_not_lt long) _ 0 [] str isOk
    have legal : ∀ ch ∈ s, Legal ch := by
      by_contra illegal
      have someIllegal : ∃ ch ∈ s, ¬Legal ch := by simpa using illegal
      obtain ⟨stop, isError⟩ := internalLoop_illegal short manySteps position [] someIllegal
      rw [toInternal, isError] at isOk
      cases isOk
    have isReading := internalLoop_legal short manySteps position [] legal
    rw [toInternal, isReading] at isOk
    exact ⟨short, legal, (Except.ok.inj isOk).symm⟩
  · rintro ⟨short, legal, rfl⟩
    exact ⟨s.length + 1, fun steps enough => internalLoop_legal short enough position [] legal⟩

-- Printed strings

theorem isHex_hexDigit : ∀ digit < 16, isHex (hexDigit digit) = true := by decide

theorem hexDigitValue_hexDigit : ∀ digit < 16, hexDigitValue (hexDigit digit) = digit := by decide

theorem isHex_hexDigits (number : Nat) : ∀ digit ∈ hexDigits number, isHex digit = true := by
  intro digit member
  rw [hexDigits] at member
  split at member
  · rw [List.mem_singleton.mp member]
    decide
  · obtain ⟨value, isValue, rfl⟩ := List.mem_map.mp member
    exact isHex_hexDigit value (Nat.digits_lt_base (by decide) (List.mem_reverse.mp isValue))

theorem hexValue_hexDigits (number : Nat) : hexValue (hexDigits number) = number := by
  rw [hexDigits]
  split
  · next isZero => rw [isZero]; decide
  · have values (digits : List Nat) (small : ∀ digit ∈ digits, digit < 16)
        : hexValue (digits.reverse.map hexDigit) = Nat.ofDigits 16 digits := by
      induction digits with
      | nil => rfl
      | cons digit rest ih =>
          obtain ⟨isSmall, restSmall⟩ := List.forall_mem_cons.mp small
          have first : hexValue (rest.reverse.map hexDigit) = Nat.ofDigits 16 rest := ih restSmall
          rw [hexValue] at first ⊢
          rw [List.reverse_cons, List.map_append, List.foldl_append, first, Nat.ofDigits_cons]
          simp only [List.map_cons, List.map_nil, List.foldl_cons, List.foldl_nil,
            hexDigitValue_hexDigit digit isSmall]
          ring
    rw [values _ (fun digit member => Nat.digits_lt_base (by decide) member), Nat.ofDigits_digits]

theorem hexDigits_length {number : Nat} (small : number < numCodes)
    : 1 ≤ (hexDigits number).length ∧ (hexDigits number).length ≤ 5 := by
  rw [hexDigits]
  split
  · exact ⟨le_rfl, by decide⟩
  · next notZero =>
      rw [List.length_map, List.length_reverse]
      refine ⟨List.length_pos_iff.mpr (Nat.digits_ne_nil_iff_ne_zero.mpr notZero), ?_⟩
      have bound : number < 16 ^ 5 := Nat.lt_trans small (by decide)
      exact (Nat.digits_length_le_iff (by decide) number).mpr bound

theorem escapeOf_printed (small : code < numCodes) (rest : List UInt8)
    : escapeOf ([backslash, letterU, openBrace] ++ hexDigits code ++ [closeBrace] ++ rest)
      = some (code, rest) := by
  have digits : escapeDigits ([backslash, letterU, openBrace] ++ hexDigits code ++ [closeBrace] ++ rest)
      = some (hexDigits code, rest) := by
    have braced : escapeDigits
        ([backslash, letterU, openBrace] ++ hexDigits code ++ [closeBrace] ++ rest)
          = bracedDigits (hexDigits code ++ closeBrace :: rest) := by
      simp [escapeDigits]
    rw [braced, bracedDigits_append (isHex_hexDigits code) (by decide),
      if_pos ⟨hexDigits_length small, rfl⟩]
  rw [escapeOf, digits]
  simp only [hexValue_hexDigits, small, if_true]

theorem reading_charToString (small : code < numCodes) (useEscSequences : Bool)
    (rest : List UInt8)
    : reading (charToString useEscSequences code ++ rest) = code :: reading rest := by
  rw [charToString]
  split
  · next printable =>
      simp only [isPrintable, Bool.and_eq_true, decide_eq_true_eq, bne_iff_ne, ne_eq] at printable
      have asByte : (UInt8.ofNat code).toNat = code := by
        rw [UInt8.toNat_ofNat', Nat.mod_eq_of_lt (by omega)]
      have notBackslash : UInt8.ofNat code ≠ backslash := by
        intro same
        have isBackslash : code = 92 := asByte.symm.trans (congrArg UInt8.toNat same)
        exact printable.1.2 isBackslash
      rw [List.singleton_append, reading_literal (escapeOf_of_ne notBackslash), asByte]
  · exact reading_escape (escapeOf_printed small rest)

theorem legal_charToString (useEscSequences : Bool)
    : ∀ ch ∈ charToString useEscSequences code, Legal ch := by
  intro ch member
  rw [charToString] at member
  split at member
  · next printable =>
      simp only [isPrintable, Bool.and_eq_true, decide_eq_true_eq] at printable
      rw [List.mem_singleton.mp member, Legal, UInt8.toNat_ofNat', Nat.mod_eq_of_lt (by omega)]
      omega
  · rcases List.mem_append.mp member with front | isClose
    · rcases List.mem_append.mp front with start | isDigit
      · simp only [List.mem_cons, List.not_mem_nil, or_false] at start
        rcases start with rfl | rfl | rfl <;> decide
      · exact legal_of_isHex (isHex_hexDigits code ch isDigit)
    · rw [List.mem_singleton.mp isClose]
      decide

/-- Printing is read back, by the lemmas for a plain and for an escaped character. -/
theorem reading_toString {str : List Nat} (codes : ∀ code ∈ str, code < numCodes)
    (useEscSequences : Bool)
    : reading (toString str useEscSequences) = str := by
  induction str with
  | nil => exact reading_nil
  | cons code rest ih =>
      obtain ⟨isCode, restCodes⟩ := List.forall_mem_cons.mp codes
      have split : toString (code :: rest) useEscSequences
          = charToString useEscSequences code ++ toString rest useEscSequences := List.flatMap_cons
      rw [split, reading_charToString isCode, ih restCodes]

theorem legal_toString (str : List Nat) (useEscSequences : Bool)
    : ∀ ch ∈ toString str useEscSequences, Legal ch := by
  intro ch member
  obtain ⟨code, -, isChar⟩ := List.mem_flatMap.mp member
  exact legal_charToString useEscSequences ch isChar

/-- Strings are read back from what is printed exactly if positions can count it, and what is read is
always the reading of the text. -/
theorem toInternal_reading (str : List Nat) (b : List UInt8)
    : ((∀ code ∈ str, code < numCodes) →
        (Returns (toString str false) true str ↔ (toString str false).length < 2 ^ 32))
      ∧ (Returns b true str → str = reading b) := by
  refine ⟨fun codes => ?_, fun returns => ((returns_iff b str).mp returns).2.2⟩
  rw [returns_iff, reading_toString codes]
  exact ⟨fun facts => facts.1, fun short => ⟨short, legal_toString str false, rfl⟩⟩

/-- A backslash and a letter are read back from the text of an escape and the letter. -/
theorem toInternal_reading_backslash
    : Returns (toString [92, 117] false) true [92, 117]
      ∧ reading (toString [92, 117] false) = [92, 117] := by
  have short : (toString [92, 117] false).length < 2 ^ 32 := by
    simp [toString, charToString, hexDigits, isPrintable]
  have facts := toInternal_reading [92, 117] (toString [92, 117] false)
  have returns := (facts.1 (by decide)).mpr short
  exact ⟨returns, (facts.2 returns).symm⟩

/-- Of the strings of zeros that a machine word counts, some are printed as text that it does not
count. -/
theorem toInternal_zeros_not_read_back
    : ∃ str : List Nat, (∀ code ∈ str, code < numCodes) ∧ str.length < 2 ^ 32
      ∧ ¬∃ result, Returns (toString str false) true result := by
  have printed (n : Nat) : (toString (List.replicate n 0) false).length = n * 5 := by
    have zero : (charToString false 0).length = 5 := by decide
    rw [toString, List.length_flatMap, List.map_replicate, zero, List.sum_replicate, smul_eq_mul]
  have noReading (n : Nat) (long : 2 ^ 32 ≤ n * 5)
      : ¬∃ result, Returns (toString (List.replicate n 0) false) true result := by
    rintro ⟨result, returns⟩
    have short := ((returns_iff _ _).mp returns).1
    rw [printed] at short
    omega
  refine ⟨List.replicate (2 ^ 30) 0, fun code member => ?_, ?_, noReading (2 ^ 30) (by norm_num)⟩
  · rw [List.eq_of_mem_replicate member]
    decide
  · rw [List.length_replicate]
    norm_num

end Ava6.Util.InternalString

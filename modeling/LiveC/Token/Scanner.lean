import LiveC.Token.Basic
import LiveC.Token.Error
import LiveC.Decimal.Reading

/-!
The scanner: from a position in the text to the next token or lexical error, and the
position behind it. A scan that returns a token or an error has consumed at least one
byte (`Cursor.length_token?_lt`), so repeating it ends.
-/

namespace LiveC

/-- A position in a text: what is left of it, a character per byte, and where that is. -/
structure Cursor where
  rest : List Char
  loc : Location
  deriving DecidableEq, Repr

namespace Cursor

def ofText (text : String) (loc : Location) : Cursor := ⟨Text.toByteChars text, loc⟩

/-- Splits off the longest run of characters that satisfy `p`. -/
def span (p : Char → Bool) (loc : Location) : List Char → List Char × Cursor
  | [] => ([], ⟨[], loc⟩)
  | c :: cs =>
    if p c then
      let (run, next) := span p (loc.after c) cs
      (c :: run, next)
    else ([], ⟨c :: cs, loc⟩)

/-! ### White space and comments -/

/-- What the scan of white space is in the middle of. -/
inductive TriviaState where
  | code
  | lineComment
  | blockComment (start : Location)

/-- What the scan of white space found: whether a line ended, and where it stopped. -/
structure Trivia where
  newline : Bool
  fault : Option LexFault
  next : Cursor

/-- White space within a line, as the scanner sees it. -/
def isSpace (c : Char) : Bool :=
  c == ' ' || c == '\t' || c == '\r' || c == '\x0c' || c == '\x0b'

/-- Skips white space, comments and escaped line ends. A line end inside a block comment
counts, one that is escaped does not. -/
def skipTrivia (newline : Bool) (loc : Location) : TriviaState → List Char → Trivia
  | .code, [] => ⟨newline, none, ⟨[], loc⟩⟩
  | .code, '\n' :: cs => skipTrivia true (loc.after '\n') .code cs
  | .code, '\\' :: '\n' :: cs =>
    skipTrivia newline ((loc.after '\\').after '\n') .code cs
  | .code, '/' :: '/' :: cs => skipTrivia newline ((loc.after '/').after '/') .lineComment cs
  | .code, '/' :: '*' :: cs =>
    skipTrivia newline ((loc.after '/').after '*') (.blockComment loc) cs
  | .code, c :: cs =>
    if isSpace c then skipTrivia newline (loc.after c) .code cs
    else ⟨newline, none, ⟨c :: cs, loc⟩⟩
  | .lineComment, [] => ⟨newline, none, ⟨[], loc⟩⟩
  | .lineComment, '\n' :: cs => skipTrivia true (loc.after '\n') .code cs
  | .lineComment, c :: cs => skipTrivia newline (loc.after c) .lineComment cs
  | .blockComment start, [] => ⟨newline, some ⟨start, .unterminatedComment⟩, ⟨[], loc⟩⟩
  | .blockComment _, '*' :: '/' :: cs =>
    skipTrivia newline ((loc.after '*').after '/') .code cs
  | .blockComment start, c :: cs =>
    skipTrivia (newline || c == '\n') (loc.after c) (.blockComment start) cs

/-- Skips what stands before the next token. -/
def trivia (c : Cursor) : Trivia := skipTrivia false c.loc .code c.rest

theorem skipTrivia_nil (newline : Bool) (loc : Location) :
    skipTrivia newline loc .code [] = ⟨newline, none, ⟨[], loc⟩⟩ := rfl

theorem skipTrivia_space {c : Char} (space : isSpace c = true) {newline : Bool} {loc : Location}
    {cs : List Char} :
    skipTrivia newline loc .code (c :: cs) = skipTrivia newline (loc.after c) .code cs := by
  have known : c = ' ' ∨ c = '\t' ∨ c = '\r' ∨ c = '\x0c' ∨ c = '\x0b' := by
    simpa [isSpace, or_assoc] using space
  obtain rfl | rfl | rfl | rfl | rfl := known <;> simp [skipTrivia, isSpace]

theorem skipTrivia_blockComment {c : Char} {cs : List Char}
    (notClose : ∀ others, c = '*' → cs ≠ '/' :: others) {newline : Bool} {loc start : Location} :
    skipTrivia newline loc (.blockComment start) (c :: cs) =
      skipTrivia (newline || c == '\n') (loc.after c) (.blockComment start) cs := by
  rw [skipTrivia]
  exact notClose

/-! ### Numbers -/

/-- The longest run that a number takes: word characters and points, and a sign behind
an exponent letter where the number is not hexadecimal. -/
def numberSpan (hex : Bool) (afterExponent : Bool) (loc : Location) :
    List Char → List Char × Cursor
  | [] => ([], ⟨[], loc⟩)
  | c :: cs =>
    if Text.isWordChar c || c == '.' || (!hex && afterExponent && (c == '+' || c == '-')) then
      let (run, next) := numberSpan hex (c == 'e' || c == 'E') (loc.after c) cs
      (c :: run, next)
    else ([], ⟨c :: cs, loc⟩)

/-- The value of a digit in a base up to sixteen. -/
def digit? (radix : Nat) (c : Char) : Option Nat :=
  let value? : Option Nat :=
    if '0' ≤ c && c ≤ '9' then some (c.toNat - '0'.toNat)
    else if 'a' ≤ c && c ≤ 'f' then some (c.toNat - 'a'.toNat + 10)
    else if 'A' ≤ c && c ≤ 'F' then some (c.toNat - 'A'.toNat + 10)
    else none
  value?.filter (· < radix)

/-- Reads the digits of a word on top of `acc`. Of a wrong digit and a value that grows
too large, the one further left is reported. -/
def digitsValue (radix : Nat) (text : String) (acc : Nat) : List Char → Except LexError Nat
  | [] => .ok acc
  | c :: cs =>
    match digit? radix c with
    | none => .error (.invalidInteger text)
    | some d =>
      if acc * radix + d < Word.modulus then digitsValue radix text (acc * radix + d) cs
      else .error (.integerTooLarge text)

/-- The flags (unsigned, long) of an integer suffix in lower case. -/
def suffixFlags? : List Char → Option (Bool × Bool)
  | [] => some (false, false)
  | ['u'] => some (true, false)
  | ['l'] | ['l', 'l'] => some (false, true)
  | ['u', 'l'] | ['l', 'u'] | ['u', 'l', 'l'] | ['l', 'l', 'u'] => some (true, true)
  | _ => none

/-- A character that starts the suffix of an integer. -/
def isSuffixStart (c : Char) : Bool := c == 'u' || c == 'U' || c == 'l' || c == 'L'

/-- Whether the text has a hexadecimal mark. -/
def isHex : List Char → Bool
  | '0' :: 'x' :: _ | '0' :: 'X' :: _ => true
  | _ => false

/-- Reads an integer constant. -/
def integer (cs : List Char) : Except LexError TokenKind :=
  let text := String.ofList cs
  let body := cs.takeWhile (!isSuffixStart ·)
  match suffixFlags? ((cs.dropWhile (!isSuffixStart ·)).map Char.toLower) with
  | none => .error (.invalidSuffix text)
  | some (unsigned, long) =>
    let (digits, radix) : List Char × Nat :=
      if isHex body then (body.drop 2, 16)
      else match body with
        | '0' :: c :: r => (c :: r, 8)
        | _ => (body, 10)
    if digits.isEmpty then .error (.invalidInteger text)
    else (digitsValue radix text 0 digits).map fun value =>
      .int value unsigned long (radix == 10)

/-- Reads a floating constant; a suffix of type letters is dropped. -/
def floating (cs : List Char) : Except LexError TokenKind :=
  let isTypeLetter (c : Char) : Bool := c == 'f' || c == 'F' || c == 'l' || c == 'L'
  match Decimal.unsigned? (cs.reverse.dropWhile isTypeLetter).reverse with
  | some value => .ok (.float value)
  | none => .error (.invalidFloating (String.ofList cs))

/-- Reads the text of a number: it is floating if it has a point or an exponent letter
and no hexadecimal mark. -/
def number (cs : List Char) : Except LexError TokenKind :=
  if !isHex cs && cs.any (fun c => c == '.' || c == 'e' || c == 'E') then floating cs
  else integer cs

/-! ### Characters and strings -/

/-- Up to `n` further octal digits on top of `acc`. -/
def octalDigits : Nat → Nat → Location → List Char → Nat × Cursor
  | 0, acc, loc, cs => (acc, ⟨cs, loc⟩)
  | _ + 1, acc, loc, [] => (acc, ⟨[], loc⟩)
  | n + 1, acc, loc, c :: cs =>
    match digit? 8 c with
    | some d => octalDigits n (acc * 8 + d) (loc.after c) cs
    | none => (acc, ⟨c :: cs, loc⟩)

/-- Every further hexadecimal digit on top of `acc`. -/
def hexDigits (acc : Nat) (loc : Location) : List Char → Nat × Cursor
  | [] => (acc, ⟨[], loc⟩)
  | c :: cs =>
    match digit? 16 c with
    | some d => hexDigits (acc * 16 + d) (loc.after c) cs
    | none => (acc, ⟨c :: cs, loc⟩)

/-- The byte that a letter stands for behind a backslash. -/
def simpleEscape? : Char → Option Char
  | 'n' => some '\n'
  | 't' => some '\t'
  | 'r' => some '\r'
  | 'a' => some '\x07'
  | 'b' => some '\x08'
  | 'f' => some '\x0c'
  | 'v' => some '\x0b'
  | '\\' => some '\\'
  | '\'' => some '\''
  | '"' => some '"'
  | '?' => some '?'
  | _ => none

/-- Reads an escape sequence behind its backslash. Octal and hexadecimal values keep
their low eight bits. -/
def escape (loc : Location) : List Char → Except LexError UInt8 × Cursor
  | [] => (.error .unterminatedEscape, ⟨[], loc⟩)
  | c :: cs =>
    match simpleEscape? c, digit? 8 c with
    | some e, _ => (.ok (Text.toByte e), ⟨cs, loc.after c⟩)
    | none, some d =>
      let (value, next) := octalDigits 2 d (loc.after c) cs
      (.ok (UInt8.ofNat value), next)
    | none, none =>
      if c == 'x' then
        let (value, next) := hexDigits 0 (loc.after c) cs
        if next.rest.length < cs.length then (.ok (UInt8.ofNat value), next)
        else (.error .missingHexDigits, next)
      else (.error (.unknownEscape c), ⟨cs, loc.after c⟩)

/-- Passes a closing quote if there is one. -/
def passQuote (c : Cursor) : Cursor :=
  match c.rest with
  | '\'' :: cs => ⟨cs, c.loc.after '\''⟩
  | _ => c

/-- Ends a character constant: skips to its quote, or to the end of the line, if more
than one character stands before it. -/
def closeCharacter (value : UInt8) (next : Cursor) : Except LexError TokenKind × Cursor :=
  if next.rest.head? = some '\'' then
    (.ok (.char (if value < 128 then value.toNat else (value.toNat : Int) - 256)), next.passQuote)
  else
    (.error .multiCharacter, (span (fun c => c != '\n' && c != '\'') next.loc next.rest).2.passQuote)

/-- Reads a character constant behind its opening quote. -/
def character (loc : Location) : List Char → Except LexError TokenKind × Cursor
  | [] => (.error .unterminatedCharacter, ⟨[], loc⟩)
  | '\n' :: cs => (.error .unterminatedCharacter, ⟨cs, loc.after '\n'⟩)
  | '\'' :: cs => (.error .emptyCharacter, ⟨cs, loc.after '\''⟩)
  | '\\' :: cs =>
    match escape (loc.after '\\') cs with
    | (.ok value, next) => closeCharacter value next
    | (.error e, next) => (.error e, next)
  | c :: cs => closeCharacter (Text.toByte c) ⟨cs, loc.after c⟩

theorem length_span_le (p : Char → Bool) (loc : Location) (cs : List Char) :
    (span p loc cs).2.rest.length ≤ cs.length := by
  induction cs generalizing loc with
  | nil => simp [span]
  | cons c cs ih =>
    simp only [span]
    split
    · exact Nat.le_succ_of_le (ih _)
    · exact Nat.le_refl _

theorem length_octalDigits_le (n acc : Nat) (loc : Location) (cs : List Char) :
    (octalDigits n acc loc cs).2.rest.length ≤ cs.length := by
  induction n generalizing acc loc cs with
  | zero => simp [octalDigits]
  | succ n ih =>
    cases cs with
    | nil => simp [octalDigits]
    | cons c cs =>
      simp only [octalDigits]
      split
      · exact Nat.le_succ_of_le (ih _ _ _)
      · exact Nat.le_refl _

theorem length_hexDigits_le (acc : Nat) (loc : Location) (cs : List Char) :
    (hexDigits acc loc cs).2.rest.length ≤ cs.length := by
  induction cs generalizing acc loc with
  | nil => simp [hexDigits]
  | cons c cs ih =>
    simp only [hexDigits]
    split
    · exact Nat.le_succ_of_le (ih _ _)
    · exact Nat.le_refl _

theorem length_escape_le (loc : Location) (cs : List Char) :
    (escape loc cs).2.rest.length ≤ cs.length := by
  cases cs with
  | nil => simp [escape]
  | cons c cs =>
    simp only [escape]
    split
    · exact Nat.le_succ _
    · exact Nat.le_succ_of_le (length_octalDigits_le _ _ _ _)
    · split
      · split <;> exact Nat.le_succ_of_le (length_hexDigits_le _ _ _)
      · exact Nat.le_succ _

/-- Reads a string literal behind its opening quote, on top of the bytes `acc`, which
are in reverse. A wrong escape ends the literal. -/
def string (acc : List UInt8) (loc : Location) : List Char → Except LexError TokenKind × Cursor
  | [] => (.error .unterminatedString, ⟨[], loc⟩)
  | '\n' :: cs => (.error .unterminatedString, ⟨cs, loc.after '\n'⟩)
  | '"' :: cs => (.ok (.str acc.reverse), ⟨cs, loc.after '"'⟩)
  | '\\' :: cs =>
    match h : escape (loc.after '\\') cs with
    | (.ok b, next) =>
      have : next.rest.length < cs.length + 1 := by
        have := length_escape_le (loc.after '\\') cs
        rw [h] at this
        exact Nat.lt_succ_of_le this
      string (b :: acc) next.loc next.rest
    | (.error e, next) => (.error e, next)
  | c :: cs => string (Text.toByte c :: acc) (loc.after c) cs
termination_by cs => cs.length

/-! ### Tokens -/

/-- The token that a word is. -/
def word (name : String) : TokenKind :=
  match Keyword.ofSpelling? name with
  | some kw => .keyword kw
  | none => .ident name

/-- Scans the text from `c`, which is no white space, to the end of one token. -/
def lexeme (c : Char) (cs : List Char) (loc : Location) : Except LexError TokenKind × Cursor :=
  let startsNumber := c.isDigit || (c == '.' && (cs.head?.any Char.isDigit))
  if Text.isWordStart c then
    let (run, next) := span Text.isWordChar (loc.after c) cs
    (.ok (word (String.ofList (c :: run))), next)
  else if startsNumber then
    let (run, next) := numberSpan (isHex (c :: cs)) false (loc.after c) cs
    (number (c :: run), next)
  else if c == '\'' then character (loc.after c) cs
  else if c == '"' then string [] (loc.after c) cs
  else match Punct.ofStart? (c :: cs) with
    | some (p, rest) => (.ok (.punct p), ⟨rest, p.spelling.toList.foldl Location.after loc⟩)
    | none => (.error (.unexpectedCharacter c), ⟨cs, loc.after c⟩)

/-- The next token or error at a cursor behind white space; `none` at the end. -/
def token? (c : Cursor) : Option (Except LexFault Token × Cursor) :=
  match c.rest with
  | [] => none
  | ch :: cs =>
    let (result, next) := lexeme ch cs c.loc
    match result with
    | .ok kind => some (.ok ⟨kind, c.loc⟩, next)
    | .error e => some (.error ⟨c.loc, e⟩, next)

/-! ### Progress -/

theorem length_skipTrivia_le (newline : Bool) (loc : Location) (st : TriviaState)
    (cs : List Char) : (skipTrivia newline loc st cs).next.rest.length ≤ cs.length := by
  fun_induction skipTrivia newline loc st cs <;> simp_all <;> omega

theorem length_trivia_le (c : Cursor) : c.trivia.next.rest.length ≤ c.rest.length :=
  length_skipTrivia_le _ _ _ _

theorem length_numberSpan_le (hex afterExponent : Bool) (loc : Location) (cs : List Char) :
    (numberSpan hex afterExponent loc cs).2.rest.length ≤ cs.length := by
  induction cs generalizing afterExponent loc with
  | nil => simp [numberSpan]
  | cons c cs ih =>
    simp only [numberSpan]
    split
    · exact Nat.le_succ_of_le (ih _ _)
    · exact Nat.le_refl _

theorem length_passQuote_le (c : Cursor) : c.passQuote.rest.length ≤ c.rest.length := by
  simp only [passQuote]
  split
  · rename_i h; simp [h]
  · exact Nat.le_refl _

theorem length_closeCharacter_le (value : UInt8) (next : Cursor) :
    (closeCharacter value next).2.rest.length ≤ next.rest.length := by
  simp only [closeCharacter]
  split
  · exact length_passQuote_le next
  · exact Nat.le_trans (length_passQuote_le _) (length_span_le _ _ _)

theorem length_character_le (loc : Location) (cs : List Char) :
    (character loc cs).2.rest.length ≤ cs.length := by
  unfold character
  split
  · exact Nat.le_refl _
  · exact Nat.le_succ _
  · exact Nat.le_succ _
  · rename_i cs
    have bound := length_escape_le (loc.after '\\') cs
    split
    · rename_i h
      rw [h] at bound
      exact Nat.le_succ_of_le (Nat.le_trans (length_closeCharacter_le _ _) bound)
    · rename_i h
      rw [h] at bound
      exact Nat.le_succ_of_le bound
  · exact Nat.le_succ_of_le (length_closeCharacter_le _ _)

theorem length_string_le (acc : List UInt8) (loc : Location) (cs : List Char) :
    (string acc loc cs).2.rest.length ≤ cs.length := by
  fun_induction string acc loc cs with
  | case1 | case2 | case3 => simp
  | case4 acc loc cs b next h this ih => simp; omega
  | case5 acc loc cs e next h =>
    have bound := length_escape_le (loc.after '\\') cs
    rw [h] at bound
    exact Nat.le_succ_of_le bound
  | case6 acc loc c cs h1 h2 h3 ih => exact Nat.le_succ_of_le ih

theorem length_lexeme_lt (c : Char) (cs : List Char) (loc : Location) :
    (lexeme c cs loc).2.rest.length < (c :: cs).length := by
  unfold lexeme
  dsimp only
  split
  · exact Nat.lt_succ_of_le (length_span_le _ _ _)
  · split
    · exact Nat.lt_succ_of_le (length_numberSpan_le _ _ _ _)
    · split
      · exact Nat.lt_succ_of_le (length_character_le _ _)
      · split
        · exact Nat.lt_succ_of_le (length_string_le _ _ _)
        · split
          · rename_i h
            exact Punct.length_ofStart?_lt h
          · exact Nat.lt_succ_self _

/-- Scanning a token, or failing to, consumes at least one byte. -/
theorem length_token?_lt {c next : Cursor} {result : Except LexFault Token}
    (h : c.token? = some (result, next)) : next.rest.length < c.rest.length := by
  unfold token? at h
  split at h
  · contradiction
  · rename_i ch cs hc
    have bound := length_lexeme_lt ch cs c.loc
    rw [hc]
    dsimp only at h
    split at h <;> cases h <;> exact bound

end Cursor

end LiveC

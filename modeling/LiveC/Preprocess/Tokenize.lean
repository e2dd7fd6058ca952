import LiveC.Preprocess.Directive

/-!
From a source text to its tokens: directives are carried out, macros expanded and
skipped groups left out. All lexical errors are collected before the text is refused.
-/

namespace LiveC

namespace PreprocState

/-- The end of the source: no group may be open. -/
def finish (st : PreprocState) (loc : Location) : PreprocOutput :=
  { tokens := [⟨.eof, loc⟩]
    faults := if st.conditionals.isEmpty then [] else [⟨loc, .unterminatedConditional⟩] }

/-- What a token or lexical error contributes where text is kept. -/
def lexeme (st : PreprocState) (result : Except LexFault Token) : PreprocOutput :=
  if st.active then
    match result with
    | .ok t => { tokens := st.macros.expand t.loc t.kind }
    | .error f => { faults := [f] }
  else .empty

/-- Processes the source from a cursor to its end. A number sign is a directive if only
white space stands before it on its line, as `lineStart` records. -/
def run (st : PreprocState) (lineStart : Bool) (c : Cursor) : PreprocOutput :=
  let start := c.trivia.next
  match c.trivia.fault with
  | some f => { faults := if st.active then [f] else [] } ++ st.finish start.loc
  | none =>
    match _h : c.trivia.next.token? with
    | none => st.finish start.loc
    | some (result, next) =>
      if _hs : c.trivia.next.rest.head? = some '#' ∧ (lineStart || c.trivia.newline) = true then
        let line := Cursor.restOfLine (c.trivia.next.loc.after '#') c.trivia.next.rest.tail
        let (st, output) := st.directive (Text.ofByteChars line.1).toList start.loc
        output ++ run st true line.2
      else st.lexeme result ++ run st false next
termination_by c.rest.length
decreasing_by
  · have := Cursor.length_trivia_le c
    have := Cursor.length_restOfLine_tail_lt (c.trivia.next.loc.after '#') _hs.1
    omega
  · have := Cursor.length_trivia_le c
    have := Cursor.length_token?_lt _h
    omega

end PreprocState

/-- The tokens of a source, the last of them the end of input, and its warnings. -/
structure Preprocessed where
  tokens : List Token
  warnings : List Diagnostic
  deriving Repr

/-- The macros given from outside, and what is wrong with their bodies. A later
definition of a name replaces an earlier one. -/
def predefined (defines : List (String × String)) : MacroTable × List LexFault :=
  defines.foldl
    (fun (m, faults) (name, body) =>
      let line := ScannedLine.ofText body.toList .start
      (m.insert name line.tokens, faults ++ line.faults))
    ({}, [])

/-- Tokenizes a source with the given predefined macros. -/
def tokenize (source : String) (defines : List (String × String)) :
    Except (List Diagnostic) Preprocessed :=
  let (macros, faults) := predefined defines
  let output := PreprocState.run { macros } true (Cursor.ofText source .start)
  match faults ++ output.faults with
  | [] => .ok ⟨output.tokens, output.warnings⟩
  | fs => .error (fs.map LexFault.diagnostic)

/-- Tokenizes a source that is given byte by byte. -/
def tokenizeBytes (cs : List Char) (defines : List (String × String)) :
    Except (List Diagnostic) Preprocessed :=
  let (macros, faults) := predefined defines
  let output := PreprocState.run { macros } true ⟨cs, .start⟩
  match faults ++ output.faults with
  | [] => .ok ⟨output.tokens, output.warnings⟩
  | fs => .error (fs.map LexFault.diagnostic)

/-- The form of a source that is evaluated without a detour through its bytes in memory. -/
theorem tokenize_of_bytes {source : String} {cs : List Char}
    (bytes : Text.toByteChars source = cs) (defines : List (String × String)) :
    tokenize source defines = tokenizeBytes cs defines := by
  rw [← bytes]
  rfl

end LiveC

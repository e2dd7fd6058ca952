import LiveC.Token.Scanner
import LiveC.Text.Bytes
import LiveC.Preprocess.Macros

/-!
Directives: macro definitions, conditional groups and the directives that only warn or
fail. The line of a directive is cut out of the source, and scanned as a text of its own like the
body of a macro. A conditional that is nested in a skipped group is tracked and never active.
-/

namespace LiveC

/-! ### Lines -/

namespace Cursor

/-- Every token and lexical error up to the end of the text. A comment without end is
the last of them. -/
def lexemes (c : Cursor) : List (Except LexFault Token) :=
  match c.trivia.fault with
  | some f => [.error f]
  | none =>
    match h : c.trivia.next.token? with
    | none => []
    | some (result, next) =>
      have := length_token?_lt h
      have := length_trivia_le c
      result :: lexemes next
termination_by c.rest.length

/-- The rest of a line, with a blank for each escaped line end, and the position of the
line end that stops it. -/
def restOfLine (loc : Location) : List Char → List Char × Cursor
  | [] => ([], ⟨[], loc⟩)
  | '\n' :: cs => ([], ⟨'\n' :: cs, loc⟩)
  | '\\' :: '\n' :: cs =>
    let (line, next) := restOfLine ((loc.after '\\').after '\n') cs
    (' ' :: line, next)
  | c :: cs =>
    let (line, next) := restOfLine (loc.after c) cs
    (c :: line, next)

theorem length_restOfLine_le (loc : Location) (cs : List Char) :
    (restOfLine loc cs).2.rest.length ≤ cs.length := by
  fun_induction restOfLine loc cs <;> simp_all <;> omega

theorem length_restOfLine_tail_lt {cs : List Char} (loc : Location)
    (h : cs.head? = some '#') : (restOfLine loc cs.tail).2.rest.length < cs.length := by
  cases cs with
  | nil => simp at h
  | cons c cs => exact Nat.lt_succ_of_le (length_restOfLine_le loc cs)

end Cursor

/-- A text scanned on its own: its tokens, and its errors. -/
structure ScannedLine where
  tokens : List Token
  faults : List LexFault

/-- Scans a text that starts at `loc`. -/
def ScannedLine.ofText (text : List Char) (loc : Location) : ScannedLine :=
  let lexemes := (Cursor.ofText (String.ofList text) loc).lexemes
  { tokens := lexemes.filterMap Except.toOption
    faults := lexemes.filterMap fun | .error f => some f | .ok _ => none }

/-! ### Directives -/

/-- One open conditional group. -/
structure Conditional where
  /-- The text around the group is active. -/
  parentActive : Bool
  /-- The current branch is active. -/
  active : Bool
  /-- Some branch was taken. -/
  taken : Bool
  seenElse : Bool := false
  deriving DecidableEq, Repr

/-- What a directive acts on: the macros, and the open groups with the innermost first. -/
structure PreprocState where
  macros : MacroTable := {}
  conditionals : List Conditional := []
  deriving Repr

/-- What a piece of source contributes to the result. -/
structure PreprocOutput where
  tokens : List Token := []
  warnings : List Diagnostic := []
  faults : List LexFault := []
  deriving Repr

namespace PreprocOutput

instance : Append PreprocOutput where
  append a b := ⟨a.tokens ++ b.tokens, a.warnings ++ b.warnings, a.faults ++ b.faults⟩

def empty : PreprocOutput := {}

def fault (loc : Location) (error : LexError) : PreprocOutput := { faults := [⟨loc, error⟩] }

def warning (loc : Location) (w : LexWarning) : PreprocOutput :=
  { warnings := [w.diagnostic loc] }

end PreprocOutput

open PreprocOutput

namespace PreprocState

/-- Whether text is kept at this point. -/
def active (st : PreprocState) : Bool := (st.conditionals.head?.map Conditional.active).getD true

/-- Opens a group whose first branch has the given condition. -/
def openGroup (st : PreprocState) (value : Bool) : PreprocState :=
  { st with conditionals :=
      { parentActive := st.active, active := st.active && value, taken := value } ::
        st.conditionals }

/-- The operand of `defined`, with or without parentheses. Also gives the tokens behind it. -/
def definedOperand (st : PreprocState) (loc : Location) (ts : List Token) :
    Bool × List LexFault × List Token :=
  let (parenthesized, ts) := match ts with
    | ⟨.punct .lparen, _⟩ :: r => (true, r)
    | r => (false, r)
  let (value, faults, ts) : Bool × List LexFault × List Token := match ts with
    | ⟨.ident name, _⟩ :: r => (st.macros.contains name, [], r)
    | _ :: r => (false, [⟨loc, .definedExpectsName⟩], r)
    | [] => (false, [⟨loc, .definedExpectsName⟩], [])
  if parenthesized then
    match ts with
    | ⟨.punct .rparen, _⟩ :: r => (value, faults, r)
    | r => (value, faults ++ [⟨loc, .missingCloseAfterDefined⟩], r)
  else (value, faults, ts)

/-- The value of a condition without its negations, and the tokens behind it. The value
of a macro is that of the integer constant with which its body starts, if any. -/
def conditionOperand (st : PreprocState) (loc : Location) (ts : List Token) :
    Bool × List LexFault × List Token :=
  match ts with
  | ⟨.int value _ _ _, _⟩ :: r => (value != 0, [], r)
  | ⟨.char value, _⟩ :: r => (value != 0, [], r)
  | ⟨.ident name, _⟩ :: r =>
    if name == "defined" then st.definedOperand loc r
    else match (st.macros.find? name).bind List.head? with
      | some ⟨.int value _ _ _, _⟩ => (value != 0, [], r)
      | _ => (false, [], r)
  | _ :: r => (false, [⟨loc, .conditionExpected⟩], r)
  | [] => (false, [⟨loc, .conditionExpected⟩], [])

/-- Strips leading negations: whether their number is odd, and what follows. -/
def negations : List Token → Bool × List Token
  | ⟨.punct .bang, _⟩ :: r => let (odd, ts) := negations r; (!odd, ts)
  | ts => (false, ts)

/-- The value of the text of a condition at `loc`, and what is wrong with it. -/
def condition (st : PreprocState) (text : List Char) (loc : Location) : Bool × List LexFault :=
  let line := ScannedLine.ofText text loc
  let (negate, ts) := negations line.tokens
  let (value, faults, rest) := st.conditionOperand loc ts
  let extra : List LexFault := match rest with
    | t :: _ => [⟨t.loc, .unsupportedCondition t.kind.describe⟩]
    | [] => []
  (value != negate, line.faults ++ faults ++ extra)

/-- The directives that ask whether a macro is defined; `expected` is the wanted answer. -/
def ifDefined (st : PreprocState) (directive : String) (expected : Bool)
    (rest : List Char) (loc restLoc : Location) : PreprocState × PreprocOutput :=
  let line := ScannedLine.ofText rest restLoc
  let (defined, faults) : Bool × List LexFault := match line.tokens with
    | ⟨.ident name, _⟩ :: _ => (st.macros.contains name, [])
    | _ => (false, if st.active then [⟨loc, .expectsMacroName directive⟩] else [])
  (st.openGroup (defined == expected), { faults := line.faults ++ faults })

/-- The start of a conditional group. A skipped condition is not evaluated. -/
def ifCondition (st : PreprocState) (rest : List Char) (restLoc : Location) :
    PreprocState × PreprocOutput :=
  if st.active then
    let (value, faults) := st.condition rest restLoc
    (st.openGroup value, { faults })
  else (st.openGroup false, .empty)

/-- A further branch with a condition, evaluated only if it can be taken. -/
def elif (st : PreprocState) (rest : List Char) (loc restLoc : Location) :
    PreprocState × PreprocOutput :=
  match st.conditionals with
  | [] => (st, fault loc .elifWithoutIf)
  | top :: outer =>
    if top.seenElse then (st, fault loc .elifAfterElse)
    else if top.parentActive && !top.taken then
      let (value, faults) := st.condition rest restLoc
      ({ st with conditionals := { top with active := value, taken := value } :: outer },
        { faults })
    else ({ st with conditionals := { top with active := false } :: outer }, .empty)

/-- The last branch, taken if no other was. -/
def elseBranch (st : PreprocState) (loc : Location) : PreprocState × PreprocOutput :=
  match st.conditionals with
  | [] => (st, fault loc .elseWithoutIf)
  | top :: outer =>
    if top.seenElse then (st, fault loc .elseAfterElse)
    else
      ({ st with conditionals :=
          { top with active := top.parentActive && !top.taken, taken := true, seenElse := true } ::
            outer }, .empty)

/-- The end of the innermost group. -/
def endif (st : PreprocState) (loc : Location) : PreprocState × PreprocOutput :=
  match st.conditionals with
  | [] => (st, fault loc .endifWithoutIf)
  | _ :: outer => ({ st with conditionals := outer }, .empty)

/-- Defines an object-like macro; `loc` is where the operand text starts. -/
def define (st : PreprocState) (rest : List Char) (loc : Location) :
    PreprocState × PreprocOutput :=
  let text := Text.trimStart rest
  let name := text.takeWhile Text.isWordChar
  let definition := text.dropWhile Text.isWordChar
  if name.isEmpty || name.head?.any Char.isDigit then (st, fault loc .macroNameExpected)
  else if definition.head? = some '(' then
    (st, fault loc (.functionLikeMacro (String.ofList name)))
  else
    let offset := Text.utf8Length rest - Text.utf8Length definition
    let line := ScannedLine.ofText definition ⟨loc.line, loc.column + offset⟩
    ({ st with macros := st.macros.insert (String.ofList name) line.tokens },
      { faults := line.faults })

/-- Carries out the directive whose number sign stands at `loc`; `line` is what follows it. -/
def directive (st : PreprocState) (line : List Char) (loc : Location) :
    PreprocState × PreprocOutput :=
  let trimmed := Text.trimStart line
  let name := String.ofList (trimmed.takeWhile Text.isWordChar)
  let rest := trimmed.dropWhile Text.isWordChar
  let restLoc : Location :=
    ⟨loc.line, loc.column + 1 + (Text.utf8Length line - Text.utf8Length rest)⟩
  let operand := String.ofList (Text.trim rest)
  if name == "ifdef" then st.ifDefined name true rest loc restLoc
  else if name == "ifndef" then st.ifDefined name false rest loc restLoc
  else if name == "if" then st.ifCondition rest restLoc
  else if name == "elif" then st.elif rest loc restLoc
  else if name == "else" then st.elseBranch loc
  else if name == "endif" then st.endif loc
  else if !st.active then (st, .empty)
  else if name == "" then (st, .empty)
  else if name == "define" then st.define rest restLoc
  else if name == "undef" then ({ st with macros := st.macros.erase operand }, .empty)
  else if name == "include" then (st, warning loc (.includeIgnored operand))
  else if name == "pragma" then (st, warning loc (.pragmaIgnored operand))
  else if name == "error" then (st, fault loc (.errorDirective operand))
  else (st, fault loc (.unknownDirective name))

end PreprocState

end LiveC

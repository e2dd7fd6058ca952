import LiveC.Parser.Scope
import LiveC.Program.Unit
import LiveC.Typing.Error

/-!
The parser's state and its elementary steps. Tokens are consumed from the front of a list;
behind it every look-ahead sees the end of input. `iterate` is the one loop: it goes on
only while tokens are consumed, so every parser ends.
-/

namespace LiveC

/-! ### Errors -/

/-- The cause of an error of form. A `found` token is the first one that does not fit. -/
inductive SyntaxError where
  | expectedPunct (expected : Punct) (found : TokenKind)
  | expectedWhile (found : TokenKind)
  | expectedSpecifiers (found : TokenKind)
  | expectedIdentifier (found : TokenKind)
  | expectedParameter (found : TokenKind)
  | expectedExpression (found : TokenKind)
  | expectedBraceAtEnd
  | nestedTooDeeply
  | expressionTooDeep
  | unterminatedAttribute
  | unbalancedDeclarator
  | unexpectedNameInType (name : String)
  | unexpectedTypeName (name : String)
  | typedefFunction
  deriving DecidableEq, Repr

def SyntaxError.message : SyntaxError → String
  | expectedPunct expected found => s!"expected '{expected.spelling}' before {found.describe}"
  | expectedWhile found => s!"expected 'while' before {found.describe}"
  | expectedSpecifiers found => s!"expected declaration specifiers before {found.describe}"
  | expectedIdentifier found => s!"expected identifier before {found.describe}"
  | expectedParameter found => s!"expected parameter declaration before {found.describe}"
  | expectedExpression found => s!"expected expression before {found.describe}"
  | expectedBraceAtEnd => "expected '\x7d' at end of input"
  | nestedTooDeeply => "code is nested too deeply"
  | expressionTooDeep => "expression is nested too deeply"
  | unterminatedAttribute => "unterminated attribute"
  | unbalancedDeclarator => "unbalanced parentheses in declarator"
  | unexpectedNameInType name => s!"unexpected identifier '{name}' in type name"
  | unexpectedTypeName name => s!"unexpected type name '{name}'"
  | typedefFunction => "function definition declared 'typedef'"

/-- An error of a source behind its tokens. -/
inductive SourceFault where
  | form (loc : Location) (error : SyntaxError)
  | meaning (fault : SemanticFault)
  deriving DecidableEq, Repr

def SourceFault.diagnostic : SourceFault → Diagnostic
  | form loc error => ⟨.parse, .error, error.message, some loc⟩
  | meaning fault => fault.diagnostic

/-! ### States -/

/-- The parser's state. -/
structure ParserState where
  rest : List Token
  /-- The place of the end of input. -/
  endLoc : Location
  unit : TranslationUnit := {}
  scopes : ScopeStack := {}
  /-- The locals of the current function, by number. -/
  locals : List LocalVar := []
  /-- The name and return type of the current function. -/
  current : Option (String × CType) := none
  loopDepth : Nat := 0
  /-- How many static local variables there are. -/
  staticLocals : Nat := 0
  warnings : List SemanticNotice := []
  errors : List SourceFault := []

/-- A parser. A failed one keeps the state it failed in. -/
abbrev Parser := EStateM SourceFault ParserState

namespace Parser

def fail {α : Type} (loc : Location) (e : SyntaxError) : Parser α := throw (.form loc e)

def refuse {α : Type} (loc : Location) (e : SemanticError) : Parser α :=
  throw (.meaning ⟨loc, e⟩)

def warn (loc : Location) (w : SemanticWarning) : Parser Unit :=
  modify fun s => { s with warnings := s.warnings ++ [⟨loc, w⟩] }

/-- Carries out a typing step. -/
def typed {α : Type} (t : Typing α) : Parser α := fun s =>
  match t.run s.warnings with
  | .ok (a, warnings) => .ok a { s with warnings }
  | .error f => .error (.meaning f) s

/-! ### Tokens -/

def peek : Parser Token := do
  let s ← get
  return s.rest.head?.getD ⟨.eof, s.endLoc⟩

/-- The token behind the next one. -/
def peekSecond : Parser Token := do
  let s ← get
  return s.rest.tail.head?.getD ⟨.eof, s.endLoc⟩

/-- Consumes a token unless the end is reached. -/
def next : Parser Token := do
  let t ← peek
  modify fun s => { s with rest := s.rest.tail }
  return t

def loc : Parser Location := return (← peek).loc

def atEnd : Parser Bool := return (← get).rest.isEmpty

def check (p : Punct) : Parser Bool := return (← peek).kind == .punct p

/-- Consumes a punctuator if it is next. -/
def eat (p : Punct) : Parser Bool := do
  if ← check p then
    let _ ← next
    return true
  else return false

/-- Consumes a keyword if it is next. -/
def eatKeyword (kw : Keyword) : Parser Bool := do
  if (← peek).kind == .keyword kw then
    let _ ← next
    return true
  else return false

def expect (p : Punct) : Parser Unit := do
  unless ← eat p do
    let t ← peek
    fail t.loc (.expectedPunct p t.kind)

/-- Repeats a step that consumes tokens until it is done. -/
def iterate {β : Type} (step : β → Parser (ForInStep β)) (b : β) (s : ParserState) :
    EStateM.Result SourceFault ParserState β :=
  match step b s with
  | .error e s' => .error e s'
  | .ok (.done b') s' => .ok b' s'
  | .ok (.yield b') s' =>
    if s'.rest.length < s.rest.length then iterate step b' s' else .ok b' s'
termination_by s.rest.length

/-- Runs a parser between two changes of the state, the second one also if it fails. -/
def between {α : Type} (enter leave : ParserState → ParserState) (p : Parser α) :
    Parser α := fun s =>
  match p (enter s) with
  | .ok a s' => .ok a (leave s')
  | .error e s' => .error e (leave s')

/-- Runs a parser in a block scope of its own. -/
def inBlock {α : Type} (p : Parser α) : Parser α :=
  between (fun s => { s with scopes := s.scopes.openBlock })
    (fun s => { s with scopes := s.scopes.closeBlock }) p

/-! ### Names -/

def find? (name : String) : Parser (Option Binding) := return (← get).scopes.find? name

def bind (name : String) (b : Binding) : Parser Unit :=
  modify fun s => { s with scopes := s.scopes.bind name b }

def bindFile (name : String) (b : Binding) : Parser Unit :=
  modify fun s => { s with scopes := s.scopes.bindFile name b }

def findSymbol? (name : String) : Parser (Option GlobalSymbol) :=
  return (← get).unit.symbols.find? name

def setSymbol (name : String) (symbol : GlobalSymbol) : Parser Unit :=
  modify fun s =>
    { s with unit := { s.unit with symbols := s.unit.symbols.insert name symbol } }

/-- Whether a token names a type. -/
def isTypedef (t : Token) : Parser Bool := do
  match t.kind with
  | .ident name => return (← find? name).any Binding.isTypedef
  | _ => return false

/-! ### Balanced parentheses and recovery -/

/-- What stands behind the parenthesis that closes `depth` open ones. -/
def behindClose? (depth : Nat) : List Token → Option (List Token)
  | [] => none
  | t :: ts =>
    match t.kind, depth with
    | .punct .lparen, d => behindClose? (d + 1) ts
    | .punct .rparen, d + 2 => behindClose? (d + 1) ts
    | .punct .rparen, _ => some ts
    | _, d => behindClose? d ts

/-- Consumes everything up to the parenthesis that closes the one just passed. -/
def skipToClose (e : SyntaxError) : Parser Unit := do
  let s ← get
  match behindClose? 1 s.rest with
  | some rest => set { s with rest }
  | none =>
    set { s with rest := [] }
    fail s.endLoc e

/-- What stands behind the declaration or statement that an error is in: past the next
semicolon outside braces, or past the braces that follow. The brace that closes the
enclosing block ends the search; it is left in place where `inBlock` says so. -/
def behindError (inBlock : Bool) (depth : Nat) : List Token → List Token
  | [] => []
  | t :: ts =>
    match t.kind, depth with
    | .punct .lbrace, d => behindError inBlock (d + 1) ts
    | .punct .rbrace, 0 => if inBlock then t :: ts else ts
    | .punct .rbrace, d + 1 => if d = 0 && !inBlock then ts else behindError inBlock d ts
    | .punct .semicolon, 0 => ts
    | _, d => behindError inBlock d ts

/-- Records an error and skips what it is in. -/
def recover (inBlock : Bool) (e : SourceFault) : Parser Unit :=
  modify fun s =>
    { s with errors := s.errors ++ [e], rest := behindError inBlock 0 s.rest }

end Parser

end LiveC

import LiveC.Diagnostic
import LiveC.Text.Bytes

/-!
What can be wrong with a text before it is parsed: malformed tokens, malformed
directives and badly nested conditionals.
-/

namespace LiveC

/-- The cause of a lexical error. Texts are as written in the source. -/
inductive LexError where
  | unterminatedComment
  | unexpectedCharacter (c : Char)
  | invalidFloating (text : String)
  | invalidSuffix (text : String)
  | invalidInteger (text : String)
  | integerTooLarge (text : String)
  | unterminatedEscape
  | missingHexDigits
  | unknownEscape (c : Char)
  | unterminatedCharacter
  | emptyCharacter
  | multiCharacter
  | unterminatedString
  | unterminatedConditional
  | expectsMacroName (directive : String)
  | elifWithoutIf
  | elifAfterElse
  | elseWithoutIf
  | elseAfterElse
  | endifWithoutIf
  | errorDirective (text : String)
  | unknownDirective (name : String)
  | macroNameExpected
  | functionLikeMacro (name : String)
  | definedExpectsName
  | missingCloseAfterDefined
  | conditionExpected
  | unsupportedCondition (token : String)
  deriving DecidableEq, Repr

namespace LexError

def message : LexError → String
  | unterminatedComment => "unterminated comment"
  | unexpectedCharacter c => s!"unexpected character '{Text.escape c}'"
  | invalidFloating text => s!"invalid floating constant '{text}'"
  | invalidSuffix text => s!"invalid suffix on integer constant '{text}'"
  | invalidInteger text => s!"invalid integer constant '{text}'"
  | integerTooLarge text => s!"integer constant '{text}' is too large"
  | unterminatedEscape => "unterminated escape sequence"
  | missingHexDigits => "\\x used with no following hex digits"
  | unknownEscape c => s!"unknown escape sequence '\\{c}'"
  | unterminatedCharacter => "unterminated character constant"
  | emptyCharacter => "empty character constant"
  | multiCharacter => "multi-character constant"
  | unterminatedString => "unterminated string literal"
  | unterminatedConditional => "unterminated conditional directive"
  | expectsMacroName directive => s!"#{directive} expects a macro name"
  | elifWithoutIf => "#elif without #if"
  | elifAfterElse => "#elif after #else"
  | elseWithoutIf => "#else without #if"
  | elseAfterElse => "#else after #else"
  | endifWithoutIf => "#endif without #if"
  | errorDirective text => s!"#error {text}"
  | unknownDirective name => s!"unknown directive #{name}"
  | macroNameExpected => "macro name must be an identifier"
  | functionLikeMacro name => s!"function-like macro '{name}' is not supported"
  | definedExpectsName => "'defined' expects a macro name"
  | missingCloseAfterDefined => "missing ')' after 'defined'"
  | conditionExpected => "#if expects an integer constant or 'defined'"
  | unsupportedCondition token => s!"unsupported #if expression near {token}"

end LexError

/-- A lexical error at its place. -/
structure LexFault where
  loc : Location
  error : LexError
  deriving DecidableEq, Repr

def LexFault.diagnostic (f : LexFault) : Diagnostic :=
  ⟨.parse, .error, f.error.message, some f.loc⟩

/-- What a directive is warned about. -/
inductive LexWarning where
  | includeIgnored (text : String)
  | pragmaIgnored (text : String)
  deriving DecidableEq, Repr

def LexWarning.message : LexWarning → String
  | includeIgnored text => s!"#include {text} ignored; declare host functions explicitly"
  | pragmaIgnored text => s!"#pragma {text} ignored"

def LexWarning.diagnostic (w : LexWarning) (loc : Location) : Diagnostic :=
  ⟨.parse, .warning, w.message, some loc⟩

end LiveC

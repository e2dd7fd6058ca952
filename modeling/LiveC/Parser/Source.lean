import LiveC.Parser.Declaration
import LiveC.Preprocess.Tokenize

/-!
From a source text to its typed unit.
-/

namespace LiveC

/-- Tokenizes and parses a source with predefined macros. Gives the unit with all warnings,
or every error of the first of the two stages that has any. -/
def parseSource (source : String) (defines : List (String × String)) :
    Except (List Diagnostic) (TranslationUnit × List Diagnostic) := do
  let text ← tokenize source defines
  match parseTokens text.tokens with
  | .ok parsed =>
    return (parsed.unit, text.warnings ++ parsed.warnings.map SemanticNotice.diagnostic)
  | .error faults => throw (faults.map SourceFault.diagnostic)

/-- Tokenizes and parses a source that is given byte by byte. -/
def parseBytes (cs : List Char) (defines : List (String × String)) :
    Except (List Diagnostic) (TranslationUnit × List Diagnostic) := do
  let text ← tokenizeBytes cs defines
  match parseTokens text.tokens with
  | .ok parsed =>
    return (parsed.unit, text.warnings ++ parsed.warnings.map SemanticNotice.diagnostic)
  | .error faults => throw (faults.map SourceFault.diagnostic)

theorem parseSource_of_bytes {source : String} {cs : List Char}
    (bytes : Text.toByteChars source = cs) (defines : List (String × String)) :
    parseSource source defines = parseBytes cs defines := by
  rw [parseSource, tokenize_of_bytes bytes]
  rfl

end LiveC

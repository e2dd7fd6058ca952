/-!
Positions in a source text: lines and bytes within a line, both counted from one.
-/

namespace LiveC

/-- A line and a column. -/
structure Location where
  line : Nat
  column : Nat
  deriving DecidableEq, Repr, Inhabited

namespace Location

def start : Location := ⟨1, 1⟩

/-- The position behind a byte, which is given as a character. -/
def after (loc : Location) (c : Char) : Location :=
  if c = '\n' then ⟨loc.line + 1, 1⟩ else ⟨loc.line, loc.column + 1⟩

def render (loc : Location) : String := s!"{loc.line}:{loc.column}"

end Location

end LiveC

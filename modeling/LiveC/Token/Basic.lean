import LiveC.Source.Location
import LiveC.Decimal.Notation

/-!
Tokens of the C subset, with the spelling of its keywords and punctuators.
-/

namespace LiveC

/-- Reserved words. Some are only recognised to be refused. -/
inductive Keyword where
  | autoKw | breakKw | caseKw | charKw | constKw | continueKw | defaultKw | doKw | doubleKw
  | elseKw | enumKw | externKw | floatKw | forKw | gotoKw | ifKw | inlineKw | intKw | longKw
  | registerKw | restrictKw | returnKw | shortKw | signedKw | sizeofKw | staticKw | structKw
  | switchKw | typedefKw | unionKw | unsignedKw | voidKw | volatileKw | whileKw | boolKw
  | inlineGnuKw | restrictGnuKw | attributeKw | declspecKw
  deriving DecidableEq, Repr

namespace Keyword

def all : List Keyword :=
  [autoKw, breakKw, caseKw, charKw, constKw, continueKw, defaultKw, doKw, doubleKw, elseKw,
   enumKw, externKw, floatKw, forKw, gotoKw, ifKw, inlineKw, intKw, longKw, registerKw,
   restrictKw, returnKw, shortKw, signedKw, sizeofKw, staticKw, structKw, switchKw,
   typedefKw, unionKw, unsignedKw, voidKw, volatileKw, whileKw, boolKw, inlineGnuKw,
   restrictGnuKw, attributeKw, declspecKw]

def spelling : Keyword → String
  | autoKw => "auto" | breakKw => "break" | caseKw => "case" | charKw => "char"
  | constKw => "const" | continueKw => "continue" | defaultKw => "default" | doKw => "do"
  | doubleKw => "double" | elseKw => "else" | enumKw => "enum" | externKw => "extern"
  | floatKw => "float" | forKw => "for" | gotoKw => "goto" | ifKw => "if"
  | inlineKw => "inline" | intKw => "int" | longKw => "long" | registerKw => "register"
  | restrictKw => "restrict" | returnKw => "return" | shortKw => "short"
  | signedKw => "signed" | sizeofKw => "sizeof" | staticKw => "static"
  | structKw => "struct" | switchKw => "switch" | typedefKw => "typedef"
  | unionKw => "union" | unsignedKw => "unsigned" | voidKw => "void"
  | volatileKw => "volatile" | whileKw => "while" | boolKw => "_Bool"
  | inlineGnuKw => "__inline" | restrictGnuKw => "__restrict"
  | attributeKw => "__attribute__" | declspecKw => "__declspec"

/-- The keyword with a spelling. -/
def ofSpelling? (name : String) : Option Keyword := all.find? (·.spelling == name)

end Keyword

/-- Punctuators, in the order in which a scan tries them: longer ones first. -/
inductive Punct where
  | shlAssign | shrAssign | ellipsis
  | arrow | increment | decrement | shl | shr | le | ge | eq | ne | andAnd | orOr
  | plusAssign | minusAssign | starAssign | slashAssign | percentAssign | ampAssign
  | barAssign | caretAssign
  | plus | minus | star | slash | percent | amp | bar | caret | tilde | bang | lt | gt
  | assign | question | colon | semicolon | comma | dot | lparen | rparen | lbracket
  | rbracket | lbrace | rbrace | hash
  deriving DecidableEq, Repr

namespace Punct

def all : List Punct :=
  [shlAssign, shrAssign, ellipsis, arrow, increment, decrement, shl, shr, le, ge, eq, ne,
   andAnd, orOr, plusAssign, minusAssign, starAssign, slashAssign, percentAssign, ampAssign,
   barAssign, caretAssign, plus, minus, star, slash, percent, amp, bar, caret, tilde, bang,
   lt, gt, assign, question, colon, semicolon, comma, dot, lparen, rparen, lbracket,
   rbracket, lbrace, rbrace, hash]

def spelling : Punct → String
  | shlAssign => "<<=" | shrAssign => ">>=" | ellipsis => "..." | arrow => "->"
  | increment => "++" | decrement => "--" | shl => "<<" | shr => ">>" | le => "<="
  | ge => ">=" | eq => "==" | ne => "!=" | andAnd => "&&" | orOr => "||"
  | plusAssign => "+=" | minusAssign => "-=" | starAssign => "*=" | slashAssign => "/="
  | percentAssign => "%=" | ampAssign => "&=" | barAssign => "|=" | caretAssign => "^="
  | plus => "+" | minus => "-" | star => "*" | slash => "/" | percent => "%" | amp => "&"
  | bar => "|" | caret => "^" | tilde => "~" | bang => "!" | lt => "<" | gt => ">"
  | assign => "=" | question => "?" | colon => ":" | semicolon => ";" | comma => ","
  | dot => "." | lparen => "(" | rparen => ")" | lbracket => "[" | rbracket => "]"
  | lbrace => "\x7b" | rbrace => "\x7d" | hash => "#"

/-- What follows `start` in a text that begins with it. -/
def behind? : List Char → List Char → Option (List Char)
  | [], cs => some cs
  | _ :: _, [] => none
  | p :: ps, c :: cs => if p = c then behind? ps cs else none

/-- The first punctuator of the table that the text starts with, and the rest. -/
def ofStart? (cs : List Char) : Option (Punct × List Char) :=
  all.findSome? fun p => (behind? p.spelling.toList cs).map fun rest => (p, rest)

theorem behind?_eq_some_iff {start cs rest : List Char} :
    behind? start cs = some rest ↔ cs = start ++ rest := by
  induction start generalizing cs with
  | nil => simp [behind?]
  | cons p ps ih =>
    cases cs with
    | nil => simp [behind?]
    | cons c cs =>
      simp only [behind?, List.cons_append, List.cons.injEq]
      split
      · rename_i h; simp [h, ih]
      · rename_i h; simp [Ne.symm h]

theorem length_ofStart?_lt {cs rest : List Char} {p : Punct}
    (h : ofStart? cs = some (p, rest)) : rest.length < cs.length := by
  obtain ⟨q, _, h⟩ := List.exists_of_findSome?_eq_some h
  obtain ⟨r, hr, he⟩ := Option.map_eq_some_iff.1 h
  cases he
  rw [behind?_eq_some_iff.1 hr]
  have : 0 < p.spelling.toList.length := by cases p <;> decide
  simp
  omega

end Punct

/-- What a token is. -/
inductive TokenKind where
  | ident (name : String)
  | keyword (kw : Keyword)
  /-- An integer constant below `2 ^ 64`, with the flags of its suffix and base. -/
  | int (value : Nat) (unsigned long decimal : Bool)
  | float (value : Double)
  /-- A character constant, a signed byte. -/
  | char (value : Int)
  | str (bytes : List UInt8)
  | punct (p : Punct)
  | eof
  deriving DecidableEq, Repr

structure Token where
  kind : TokenKind
  loc : Location
  deriving DecidableEq, Repr

namespace TokenKind

/-- How a message refers to a token. -/
def describe : TokenKind → String
  | ident name => s!"'{name}'"
  | keyword kw => s!"'{kw.spelling}'"
  | punct p => s!"'{p.spelling}'"
  | int value _ _ _ => s!"'{value}'"
  | float value => s!"'{value.render}'"
  | char _ => "character constant"
  | str _ => "string literal"
  | eof => "end of input"

end TokenKind

end LiveC

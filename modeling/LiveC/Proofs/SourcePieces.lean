import LiveC.Proofs.SourceLines
import LiveC.Proofs.LineScanning

/-!
A source cut into pieces: tokens, lexical errors and directives. How it is cut does not depend on
the macros or the open groups, so that the run over a source takes its pieces one by one. A text
that stands some lines further down is scanned into the same tokens and errors, each as many lines
further down.
-/

namespace LiveC

/-! ### Places -/

/-- The place `n` lines further down. -/
def Location.down (n : Nat) (loc : Location) : Location := ⟨loc.line + n, loc.column⟩

theorem Location.after_down (n : Nat) (loc : Location) (c : Char) :
    (loc.down n).after c = (loc.after c).down n := by
  unfold after down
  split
  · exact congrArg (Location.mk · 1) (Nat.add_right_comm ..)
  · rfl

theorem Location.down_column (n k : Nat) (loc : Location) :
    (⟨loc.line, loc.column + k⟩ : Location).down n = ⟨(loc.down n).line, (loc.down n).column + k⟩ :=
  rfl

def Cursor.down (n : Nat) (c : Cursor) : Cursor := ⟨c.rest, c.loc.down n⟩

def Token.down (n : Nat) (t : Token) : Token := ⟨t.kind, t.loc.down n⟩

def LexFault.down (n : Nat) (f : LexFault) : LexFault := ⟨f.loc.down n, f.error⟩

def Diagnostic.down (n : Nat) (d : Diagnostic) : Diagnostic :=
  { d with location := d.location.map (Location.down n) }

namespace Cursor

variable (n : Nat)

/-! ### White space -/

def TriviaState.down (n : Nat) : TriviaState → TriviaState
  | .code => .code
  | .lineComment => .lineComment
  | .blockComment start => .blockComment (start.down n)

def Trivia.down (n : Nat) (t : Trivia) : Trivia :=
  ⟨t.newline, t.fault.map (LexFault.down n), t.next.down n⟩

theorem skipTrivia_down (newline : Bool) (loc : Location) (st : TriviaState) (cs : List Char) :
    skipTrivia newline (loc.down n) (st.down n) cs = (skipTrivia newline loc st cs).down n := by
  fun_induction skipTrivia newline loc st cs with
  | case1 | case8 | case11 => rw [TriviaState.down, skipTrivia]; rfl
  | case2 _ _ _ ih | case9 _ _ _ ih =>
      rw [TriviaState.down, skipTrivia, Location.after_down]
      exact ih
  | case3 _ _ _ ih | case4 _ _ _ ih | case5 _ _ _ ih | case12 _ _ _ _ ih =>
      rw [TriviaState.down, skipTrivia, Location.after_down, Location.after_down]
      exact ih
  | case6 newline loc c cs notEnd notSplice notLine notBlock space ih =>
      rw [TriviaState.down, skipTrivia, if_pos space, Location.after_down]
      · exact ih
      all_goals assumption
  | case7 newline loc c cs notEnd notSplice notLine notBlock dense =>
      rw [TriviaState.down, skipTrivia, if_neg dense]
      · rfl
      all_goals assumption
  | case10 newline loc c cs notEnd ih =>
      rw [TriviaState.down, skipTrivia, Location.after_down]
      · exact ih
      · exact notEnd
  | case13 newline loc start c cs notClose ih =>
      rw [TriviaState.down, skipTrivia, Location.after_down]
      · exact ih
      · exact notClose

theorem trivia_down (c : Cursor) : (c.down n).trivia = c.trivia.down n :=
  skipTrivia_down n false c.loc .code c.rest

/-! ### Tokens -/

/-- What a scan gives, at a cursor further down. -/
abbrev movedDown {α : Type} (n : Nat) (r : α × Cursor) : α × Cursor := (r.1, r.2.down n)

theorem span_down (p : Char → Bool) (loc : Location) (cs : List Char) :
    span p (loc.down n) cs = movedDown n (span p loc cs) := by
  induction cs generalizing loc with
  | nil => rfl
  | cons c cs ih =>
      rw [span, span, Location.after_down, ih]
      split <;> rfl

theorem numberSpan_down (hex afterExponent : Bool) (loc : Location) (cs : List Char) :
    numberSpan hex afterExponent (loc.down n) cs =
      movedDown n (numberSpan hex afterExponent loc cs) := by
  induction cs generalizing afterExponent loc with
  | nil => rfl
  | cons c cs ih =>
      rw [numberSpan, numberSpan, Location.after_down, ih]
      split <;> rfl

theorem octalDigits_down (count acc : Nat) (loc : Location) (cs : List Char) :
    octalDigits count acc (loc.down n) cs = movedDown n (octalDigits count acc loc cs) := by
  fun_induction octalDigits count acc loc cs with
  | case1 | case2 => simp only [octalDigits]; rfl
  | case3 _ _ _ _ _ _ digit ih => simp only [octalDigits, digit, Location.after_down, ih]
  | case4 _ _ _ _ _ digit => simp only [octalDigits, digit]; rfl

theorem hexDigits_down (acc : Nat) (loc : Location) (cs : List Char) :
    hexDigits acc (loc.down n) cs = movedDown n (hexDigits acc loc cs) := by
  fun_induction hexDigits acc loc cs with
  | case1 => rfl
  | case2 _ _ _ _ _ digit ih => simp only [hexDigits, digit, Location.after_down, ih]
  | case3 _ _ _ _ digit => simp only [hexDigits, digit]; rfl

theorem escape_down (loc : Location) (cs : List Char) :
    escape (loc.down n) cs = movedDown n (escape loc cs) := by
  cases cs with
  | nil => rfl
  | cons c cs =>
      simp only [escape, Location.after_down, octalDigits_down, hexDigits_down]
      split
      case h_1 | h_2 => rfl
      case h_3 =>
        rw [show (hexDigits 0 (loc.after c) cs).2.down n = ⟨_, _⟩ from rfl]
        split
        · split <;> rfl
        · rfl

theorem passQuote_down (c : Cursor) : (c.down n).passQuote = c.passQuote.down n := by
  obtain ⟨rest, loc⟩ := c
  unfold passQuote
  simp only [down, Location.after_down]
  split <;> rfl

theorem closeCharacter_down (value : UInt8) (next : Cursor) :
    closeCharacter value (next.down n) = movedDown n (closeCharacter value next) := by
  have skipped := span_down n (fun c => c != '\n' && c != '\'') next.loc next.rest
  simp only [closeCharacter, passQuote_down]
  rw [show (next.down n).rest = next.rest from rfl,
    show (next.down n).loc = next.loc.down n from rfl, skipped, passQuote_down]
  split <;> rfl

theorem character_down (loc : Location) (cs : List Char) :
    character (loc.down n) cs = movedDown n (character loc cs) := by
  unfold character
  split
  · rfl
  · simp only [Location.after_down]; rfl
  · simp only [Location.after_down]; rfl
  case h_4 cs =>
    rw [Location.after_down, escape_down]
    obtain ⟨value | error, next⟩ := escape (loc.after '\\') cs
    · rfl
    · exact closeCharacter_down n _ next
  case h_5 c cs _ _ _ =>
    rw [Location.after_down]
    exact closeCharacter_down n (Text.toByte c) ⟨cs, loc.after c⟩

theorem string_down (acc : List UInt8) (loc : Location) (cs : List Char) :
    string acc (loc.down n) cs = movedDown n (string acc loc cs) := by
  fun_induction string acc loc cs with
  | case1 | case2 | case3 => simp only [string, Location.after_down]; rfl
  | case4 acc loc cs b next escaped _ ih =>
      have moved : escape ((loc.down n).after '\\') cs = (.ok b, next.down n) := by
        rw [Location.after_down, escape_down, escaped]
      rw [string_escape moved]
      exact ih
  | case5 acc loc cs e next escaped =>
      have moved : escape ((loc.down n).after '\\') cs = (.error e, next.down n) := by
        rw [Location.after_down, escape_down, escaped]
      rw [string]
      split
      case h_1 escaped' => cases moved.symm.trans escaped'
      case h_2 escaped' =>
        cases moved.symm.trans escaped'
        rfl
  | case6 acc loc c cs notEnd notQuote notEscape ih =>
      rw [string, Location.after_down]
      · exact ih
      all_goals assumption

theorem lexeme_down (c : Char) (cs : List Char) (loc : Location) :
    lexeme c cs (loc.down n) = movedDown n (lexeme c cs loc) := by
  have spelled (cs : List Char) (loc : Location) :
      cs.foldl Location.after (loc.down n) = (cs.foldl Location.after loc).down n := by
    induction cs generalizing loc with
    | nil => rfl
    | cons c cs ih => rw [List.foldl_cons, List.foldl_cons, Location.after_down, ih]
  unfold lexeme
  simp only [Location.after_down, span_down, numberSpan_down, character_down, string_down, spelled]
  split
  · rfl
  · split
    · rfl
    · split
      · rfl
      · split
        · rfl
        · split <;> rfl

/-- The result of a scan for a token, further down. -/
def scannedDown (n : Nat) (r : Except LexFault Token × Cursor) : Except LexFault Token × Cursor :=
  ((r.1.map (Token.down n)).mapError (LexFault.down n), r.2.down n)

theorem token?_down (c : Cursor) : (c.down n).token? = c.token?.map (scannedDown n) := by
  obtain ⟨_ | ⟨ch, cs⟩, loc⟩ := c
  · rfl
  · simp only [token?, down, lexeme_down]
    obtain ⟨result | result, next⟩ := lexeme ch cs loc <;> rfl

/-! ### Lines -/

theorem restOfLine_down (loc : Location) (cs : List Char) :
    restOfLine (loc.down n) cs = movedDown n (restOfLine loc cs) := by
  fun_induction restOfLine loc cs with
  | case1 | case2 => rw [restOfLine]; rfl
  | case3 loc cs line next read ih =>
      rw [restOfLine, Location.after_down, Location.after_down, ih, read]
  | case4 loc c cs notEnd notSplice line next read ih =>
      rw [restOfLine, Location.after_down, ih, read]
      · exact notEnd
      · exact notSplice

theorem lexemes_down (c : Cursor) :
    (c.down n).lexemes =
      c.lexemes.map fun r => (r.map (Token.down n)).mapError (LexFault.down n) := by
  fun_induction lexemes c with
  | case1 c f fault =>
      refine lexemes_of_fault ?_
      rw [trivia_down, Trivia.down, fault]
      rfl
  | case2 c noFault atEnd =>
      refine lexemes_of_end ?_ ?_
      · rw [trivia_down, Trivia.down, noFault]
        rfl
      · rw [trivia_down, Trivia.down, token?_down, atEnd]
        rfl
  | case3 c noFault result next scan _ _ ih =>
      rw [List.map_cons, ← ih]
      refine lexemes_of_token? ?_ ?_
      · rw [trivia_down, Trivia.down, noFault]
        rfl
      · rw [trivia_down, Trivia.down, token?_down, scan]
        rfl

end Cursor

theorem ScannedLine.ofText_down (n : Nat) (text : List Char) (loc : Location) :
    ScannedLine.ofText text (loc.down n) =
      ⟨(ScannedLine.ofText text loc).tokens.map (Token.down n),
        (ScannedLine.ofText text loc).faults.map (LexFault.down n)⟩ := by
  have moved := Cursor.lexemes_down n (Cursor.ofText (String.ofList text) loc)
  unfold ofText
  rw [show Cursor.ofText (String.ofList text) (loc.down n) =
    (Cursor.ofText (String.ofList text) loc).down n from rfl, moved]
  generalize (Cursor.ofText (String.ofList text) loc).lexemes = lexemes
  simp only [List.filterMap_map, List.map_filterMap, ScannedLine.mk.injEq]
  constructor
  · congr 1
    funext r
    cases r <;> rfl
  · congr 1
    funext r
    cases r <;> rfl

end LiveC

namespace LiveC

/-- What the run over a source reads at once. -/
inductive SourcePiece where
  | lexeme (result : Except LexFault Token)
  | directive (d : Directive)
  /-- A comment without end, behind which nothing is read. -/
  | comment (fault : LexFault)
  deriving DecidableEq

/-- The pieces of a text that begins behind other text, and where it ends. -/
structure Cut where
  pieces : List SourcePiece
  stop : Location

/-- A piece in front of others. -/
def Cut.cons (p : SourcePiece) (others : Cut) : Cut := ⟨p :: others.pieces, others.stop⟩

/-- Cuts the text from a cursor to its end. -/
def Cursor.cut (lineStart : Bool) (c : Cursor) : Cut :=
  let start := c.trivia.next
  match c.trivia.fault with
  | some f => ⟨[.comment f], start.loc⟩
  | none =>
    match _h : c.trivia.next.token? with
    | none => ⟨[], start.loc⟩
    | some (result, next) =>
      if _hs : c.trivia.next.rest.head? = some '#' ∧ (lineStart || c.trivia.newline) = true then
        let line := Cursor.restOfLine (c.trivia.next.loc.after '#') c.trivia.next.rest.tail
        (Cursor.cut true line.2).cons (.directive ⟨start.loc, (Text.ofByteChars line.1).toList⟩)
      else (Cursor.cut false next).cons (.lexeme result)
termination_by c.rest.length
decreasing_by
  · have := Cursor.length_trivia_le c
    have := Cursor.length_restOfLine_tail_lt (c.trivia.next.loc.after '#') _hs.1
    omega
  · have := Cursor.length_trivia_le c
    have := Cursor.length_token?_lt _h
    omega

namespace PreprocState

/-- What a piece does. -/
def piece (st : PreprocState) : SourcePiece → PreprocState × PreprocOutput
  | .lexeme result => (st, st.lexeme result)
  | .directive d => st.directive d.text d.loc
  | .comment f => (st, { faults := if st.active then [f] else [] })

/-- What pieces do that follow each other. -/
def pieces (st : PreprocState) : List SourcePiece → PreprocState × PreprocOutput
  | [] => (st, .empty)
  | p :: ps =>
    let others := (st.piece p).1.pieces ps
    (others.1, (st.piece p).2 ++ others.2)

theorem pieces_cons (st : PreprocState) (p : SourcePiece) (ps : List SourcePiece) :
    st.pieces (p :: ps) =
      (((st.piece p).1.pieces ps).1, (st.piece p).2 ++ ((st.piece p).1.pieces ps).2) := rfl

end PreprocState

/-! ### The first piece of a text -/

namespace Cursor

variable {lineStart : Bool} {c next : Cursor}

theorem cut_of_fault {f : LexFault} (fault : c.trivia.fault = some f) :
    c.cut lineStart = ⟨[.comment f], c.trivia.next.loc⟩ := by
  unfold cut
  split <;> simp_all

theorem cut_of_end (noFault : c.trivia.fault = none) (h : c.trivia.next.token? = none) :
    c.cut lineStart = ⟨[], c.trivia.next.loc⟩ := by
  rw [cut, noFault]
  dsimp only
  split <;> simp_all

theorem cut_of_token? {result : Except LexFault Token} (noFault : c.trivia.fault = none)
    (h : c.trivia.next.token? = some (result, next))
    (noDirective :
      ¬(c.trivia.next.rest.head? = some '#' ∧ (lineStart || c.trivia.newline) = true)) :
    c.cut lineStart = (next.cut false).cons (.lexeme result) := by
  rw [cut, noFault]
  dsimp only
  split
  · simp_all
  · rename_i scan
    obtain ⟨rfl, rfl⟩ := Prod.mk.inj (Option.some.inj (h.symm.trans scan))
    rw [dif_neg noDirective]

theorem cut_of_directive {newline : Bool} {loc : Location} {body text : List Char}
    (trivia : c.trivia = ⟨newline, none, ⟨'#' :: body, loc⟩⟩)
    (rest : restOfLine (loc.after '#') body = (text, next))
    (starts : (lineStart || newline) = true) :
    c.cut lineStart =
      (next.cut true).cons (.directive ⟨loc, (Text.ofByteChars text).toList⟩) := by
  rw [cut]
  generalize c.trivia = found at *
  cases trivia
  dsimp only
  split
  case h_1 atEnd => cases rest_eq_nil_of_token? atEnd
  case h_2 =>
    rw [dif_pos ⟨rfl, starts⟩]
    simp only [List.tail_cons, rest]

/-- Where a number sign has been reached. -/
theorem trivia_of_sign (noFault : c.trivia.fault = none)
    (sign : c.trivia.next.rest.head? = some '#') :
    c.trivia = ⟨c.trivia.newline, none, ⟨'#' :: c.trivia.next.rest.tail, c.trivia.next.loc⟩⟩ := by
  rw [List.cons_head?_tail sign, ← noFault]

end Cursor

/-! ### Texts further down -/

def Directive.down (n : Nat) (d : Directive) : Directive := ⟨d.loc.down n, d.text⟩

def SourcePiece.down (n : Nat) : SourcePiece → SourcePiece
  | .lexeme result => .lexeme ((result.map (Token.down n)).mapError (LexFault.down n))
  | .directive d => .directive (d.down n)
  | .comment f => .comment (f.down n)

def Cut.down (n : Nat) (c : Cut) : Cut := ⟨c.pieces.map (SourcePiece.down n), c.stop.down n⟩

theorem Cursor.cut_down (n : Nat) (lineStart : Bool) (c : Cursor) :
    (c.down n).cut lineStart = (c.cut lineStart).down n := by
  have trivia (c : Cursor) := trivia_down n c
  fun_induction cut lineStart c with
  | case1 lineStart c _ f fault =>
      rw [cut_of_fault (by rw [trivia, Trivia.down, fault]; rfl), trivia]
      rfl
  | case2 lineStart c _ noFault atEnd =>
      rw [cut_of_end (by rw [trivia, Trivia.down, noFault]; rfl)
        (by rw [trivia, Trivia.down, token?_down, atEnd]; rfl), trivia]
      rfl
  | case3 lineStart c start noFault result next scan sign line ih =>
      have shape := (trivia c).trans (congrArg _ (trivia_of_sign noFault sign.1))
      have rest := restOfLine_down n (c.trivia.next.loc.after '#') c.trivia.next.rest.tail
      rw [← Location.after_down] at rest
      rw [cut_of_directive shape rest sign.2]
      simp only [start, line] at ih ⊢
      rw [ih]
      rfl
  | case4 lineStart c noFault result next scan noSign ih =>
      have scanned : (c.down n).trivia.next.token? = some (scannedDown n (result, next)) := by
        rw [trivia, Trivia.down, token?_down, scan]
        rfl
      rw [cut_of_token? (by rw [trivia, Trivia.down, noFault]; rfl) scanned (by rwa [trivia]), ih]
      rfl

/-! ### Runs -/

/-- The run over a text takes its pieces and then ends. -/
theorem PreprocState.run_eq_pieces (st : PreprocState) (lineStart : Bool) (c : Cursor) :
    st.run lineStart c =
      (st.pieces (c.cut lineStart).pieces).2 ++
        (st.pieces (c.cut lineStart).pieces).1.finish (c.cut lineStart).stop := by
  fun_induction Cursor.cut lineStart c generalizing st with
  | case1 lineStart c _ f fault =>
      rw [run_of_fault fault, pieces_cons, pieces, PreprocOutput.append_empty]
      rfl
  | case2 lineStart c _ noFault atEnd =>
      rw [run_of_end noFault atEnd]
      rfl
  | case3 lineStart c start noFault result next scan sign line ih =>
      rw [run_of_directive (Cursor.trivia_of_sign noFault sign.1) rfl sign.2]
      simp only [start, line] at ih ⊢
      simp only [ih, Cut.cons, pieces_cons, piece, PreprocOutput.append_assoc]
  | case4 lineStart c noFault result next scan noSign ih =>
      rw [run_of_token? noFault scan noSign, ih, ← PreprocOutput.append_assoc]
      rfl

end LiveC

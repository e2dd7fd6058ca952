import Mathlib.Data.List.Infix
import LiveC.Proofs.ConditionalGroups
import LiveC.Proofs.MovedSource

/-!
Text that a conditional group skips. It is scanned as any text is, so that quotes in it decide where
tokens end; a line that leaves no literal open gives the next line its beginning.
-/

namespace LiveC

/-! ### Literals of a line -/

/-- Where in a line a scan for literals is. -/
inductive LiteralState where
  | outside
  | string
  /-- Behind the apostrophe that begins a character constant. -/
  | opened
  /-- Behind the first character of a character constant. -/
  | character
  deriving DecidableEq, Repr

namespace LiteralState

def next : LiteralState → Char → LiteralState
  | .outside, c => if c = '"' then .string else if c = '\'' then .opened else .outside
  | .string, c => if c = '"' then .outside else .string
  | .opened, c | .character, c => if c = '\'' then .outside else .character

/-- At the end of a line the scan takes the line end for a part of the literal. A character constant
with too many characters ends with its line. -/
def isOpen : LiteralState → Bool
  | .string | .opened => true
  | .outside | .character => false

/-- Whether text behind this place leaves a literal open. -/
def leavesOpen (st : LiteralState) (cs : List Char) : Bool := (cs.foldl next st).isOpen

end LiteralState

/-- Whether a line leaves a string or a character constant open. -/
def leavesOpen (line : String) : Bool := LiteralState.outside.leavesOpen (Text.toByteChars line)

/-- Text within a line in which no comment and no escape begins. -/
structure PlainText (cs : List Char) : Prop where
  oneLine : '\n' ∉ cs
  noEscape : '\\' ∉ cs
  noLineComment : ¬ ['/', '/'] <:+: cs
  noBlockComment : ¬ ['/', '*'] <:+: cs

theorem PlainText.suffix {cs rest : List Char} (h : PlainText cs) (suffix : rest <:+ cs) :
    PlainText rest where
  oneLine member := h.oneLine (suffix.subset member)
  noEscape member := h.noEscape (suffix.subset member)
  noLineComment inside := h.noLineComment (inside.trans suffix.isInfix)
  noBlockComment inside := h.noBlockComment (inside.trans suffix.isInfix)

/-- A line that is no directive and in which no comment and no escape begins. -/
structure PlainLine (line : String) : Prop where
  plain : PlainText (Text.toByteChars line)
  noSign : ((Text.toByteChars line).dropWhile Cursor.isSpace).head? ≠ some '#'

instance (cs : List Char) : Decidable (PlainText cs) :=
  decidable_of_iff ('\n' ∉ cs ∧ '\\' ∉ cs ∧ ¬ ['/', '/'] <:+: cs ∧ ¬ ['/', '*'] <:+: cs)
    ⟨fun h => ⟨h.1, h.2.1, h.2.2.1, h.2.2.2⟩,
      fun h => ⟨h.oneLine, h.noEscape, h.noLineComment, h.noBlockComment⟩⟩

instance (line : String) : Decidable (PlainLine line) :=
  decidable_of_iff (PlainText (Text.toByteChars line) ∧
      ((Text.toByteChars line).dropWhile Cursor.isSpace).head? ≠ some '#')
    ⟨fun h => ⟨h.1, h.2⟩, fun h => ⟨h.plain, h.noSign⟩⟩

namespace Cursor

/-! ### Lexemes of a line -/

/-- Where a scan stops that begins in a line, in front of `tail` and its line end: within the line
and outside of literals, or behind the line end, which only a literal that is left open takes. -/
inductive Stops (st : LiteralState) (loc : Location) (cs tail : List Char) : Cursor → Prop
  | within {used rest : List Char} (same : cs = used ++ rest)
      (outside : LiteralState.outside.leavesOpen rest = st.leavesOpen cs) :
      Stops st loc cs tail ⟨rest ++ '\n' :: tail, used.foldl Location.after loc⟩
  | behind (isOpen : st.leavesOpen cs = true) :
      Stops st loc cs tail ⟨tail, (cs.foldl Location.after loc).after '\n'⟩

variable {st : LiteralState} {loc : Location} {cs tail : List Char} {next : Cursor}

theorem Stops.cons {c : Char} (h : Stops (st.next c) (loc.after c) cs tail next) :
    Stops st loc (c :: cs) tail next := by
  cases h with
  | @within used rest same outside =>
      exact .within (show c :: cs = (c :: used) ++ rest from congrArg (c :: ·) same) outside
  | behind isOpen => exact .behind isOpen

theorem Stops.here (outside : LiteralState.outside.leavesOpen cs = st.leavesOpen cs) :
    Stops st loc cs tail ⟨cs ++ '\n' :: tail, loc⟩ :=
  .within (List.nil_append cs).symm outside

theorem Stops.unquoted {c : Char} (quotes : c ≠ '"') (quote : c ≠ '\'')
    (h : Stops .outside (loc.after c) cs tail next) : Stops .outside loc (c :: cs) tail next := by
  refine .cons ?_
  rwa [LiteralState.next, if_neg quotes, if_neg quote]

theorem span_stops {p : Char → Bool} (newline : p '\n' = false) (quotes : p '"' = false)
    (quote : p '\'' = false) (loc : Location) (cs tail : List Char) :
    Stops .outside loc cs tail (span p loc (cs ++ '\n' :: tail)).2 := by
  induction cs generalizing loc with
  | nil =>
      rw [List.nil_append, span, if_neg (Bool.eq_false_iff.mp newline)]
      exact .here rfl
  | cons c cs ih =>
      rw [List.cons_append, span]
      split
      case isTrue taken =>
        refine .unquoted ?_ ?_ (ih _)
        · rintro rfl
          cases taken.symm.trans quotes
        · rintro rfl
          cases taken.symm.trans quote
      case isFalse => exact .here rfl

theorem numberSpan_stops (hex afterExponent : Bool) (loc : Location) (cs tail : List Char) :
    Stops .outside loc cs tail (numberSpan hex afterExponent loc (cs ++ '\n' :: tail)).2 := by
  have newline (hex afterExponent : Bool) : (Text.isWordChar '\n' || '\n' == '.' ||
      (!hex && afterExponent && ('\n' == '+' || '\n' == '-'))) = false := by
    cases hex <;> cases afterExponent <;> decide
  induction cs generalizing afterExponent loc with
  | nil =>
      rw [List.nil_append, numberSpan, if_neg (Bool.eq_false_iff.mp (newline _ _))]
      exact .here rfl
  | cons c cs ih =>
      rw [List.cons_append, numberSpan]
      split
      case isTrue taken =>
        refine .unquoted ?_ ?_ (ih _ _)
        · rintro rfl
          revert taken
          cases hex <;> cases afterExponent <;> decide
        · rintro rfl
          revert taken
          cases hex <;> cases afterExponent <;> decide
      case isFalse => exact .here rfl

theorem string_stops (acc : List UInt8) (loc : Location) (oneLine : '\n' ∉ cs)
    (noEscape : '\\' ∉ cs) (tail : List Char) :
    Stops .string loc cs tail (string acc loc (cs ++ '\n' :: tail)).2 := by
  induction cs generalizing acc loc with
  | nil =>
      rw [List.nil_append, string]
      exact .behind rfl
  | cons c cs ih =>
      rw [List.mem_cons, not_or] at oneLine noEscape
      by_cases quotes : c = '"'
      · subst quotes
        rw [List.cons_append, string]
        exact .cons (.here rfl)
      · rw [List.cons_append, string]
        · refine .cons ?_
          rw [LiteralState.next, if_neg quotes]
          exact ih _ _ oneLine.2 noEscape.2
        · exact fun same => oneLine.1 same.symm
        · exact quotes
        · exact fun same => noEscape.1 same.symm

/-- A character constant with too many characters ends at its apostrophe or with its line. -/
theorem passQuote_stops (loc : Location) (oneLine : '\n' ∉ cs) (tail : List Char) :
    Stops .character loc cs tail
      (span (fun c => c != '\n' && c != '\'') loc (cs ++ '\n' :: tail)).2.passQuote := by
  induction cs generalizing loc with
  | nil => exact .here rfl
  | cons c cs ih =>
      rw [List.mem_cons, not_or] at oneLine
      rw [List.cons_append, span]
      by_cases quote : c = '\''
      · subst quote
        exact .cons (.here rfl)
      · have taken : (c != '\n' && c != '\'') = true := by simp [quote, Ne.symm oneLine.1]
        rw [if_pos taken]
        refine .cons ?_
        rw [LiteralState.next, if_neg quote]
        exact ih _ oneLine.2

theorem closeCharacter_stops (value : UInt8) (loc : Location) (oneLine : '\n' ∉ cs)
    (tail : List Char) :
    Stops .character loc cs tail (closeCharacter value ⟨cs ++ '\n' :: tail, loc⟩).2 := by
  unfold closeCharacter
  split
  case isTrue closed =>
    cases cs with
    | nil => cases closed
    | cons c cs =>
        obtain rfl : c = '\'' := Option.some.inj closed
        exact .cons (.here rfl)
  case isFalse => exact passQuote_stops loc oneLine tail

theorem character_stops (loc : Location) (oneLine : '\n' ∉ cs)
    (noEscape : '\\' ∉ cs) (tail : List Char) :
    Stops .opened loc cs tail (character loc (cs ++ '\n' :: tail)).2 := by
  cases cs with
  | nil => exact .behind rfl
  | cons c cs =>
      rw [List.mem_cons, not_or] at oneLine noEscape
      by_cases quote : c = '\''
      · subst quote
        exact .cons (.here rfl)
      · rw [List.cons_append, character]
        · refine .cons ?_
          rw [LiteralState.next, if_neg quote]
          exact closeCharacter_stops _ _ oneLine.2 tail
        · exact fun same => oneLine.1 same.symm
        · exact quote
        · exact fun same => noEscape.1 same.symm

theorem lexeme_stops {c : Char} (oneLine : '\n' ∉ c :: cs) (noEscape : '\\' ∉ c :: cs)
    (loc : Location) (tail : List Char) :
    Stops .outside loc (c :: cs) tail (lexeme c (cs ++ '\n' :: tail) loc).2 := by
  have oneLine' := (not_or.mp (mt List.mem_cons.mpr oneLine)).2
  have noEscape' := (not_or.mp (mt List.mem_cons.mpr noEscape)).2
  have noQuotes {p : Char → Bool} {d : Char} (no : p d = false) (yes : p c = true) : c ≠ d := by
    rintro rfl
    cases yes.symm.trans no
  unfold lexeme
  dsimp only
  split
  case isTrue isWord =>
    exact .unquoted (noQuotes (by decide) isWord) (noQuotes (by decide) isWord)
      (span_stops (by decide) (by decide) (by decide) _ cs tail)
  case isFalse notWord =>
    split
    case isTrue isNumber =>
      refine .unquoted ?_ ?_ (numberSpan_stops _ _ _ cs tail)
      · rintro rfl
        simp at isNumber
      · rintro rfl
        simp at isNumber
    case isFalse notNumber =>
      split
      case isTrue quote =>
        obtain rfl := eq_of_beq quote
        exact .cons (character_stops _ oneLine' noEscape' tail)
      case isFalse notQuote =>
        split
        case isTrue quotes =>
          obtain rfl := eq_of_beq quotes
          exact .cons (string_stops [] _ oneLine' noEscape' tail)
        case isFalse notQuotes =>
          split
          case h_1 found =>
            rw [← List.cons_append, ofStart?_append (c :: cs) (behindLine_newline tail)] at found
            obtain ⟨⟨p, rest⟩, spelled, same⟩ := Option.map_eq_some_iff.mp found
            cases same
            refine .within (spelling_of_ofStart? spelled) ?_
            have outside : p.spelling.toList.foldl LiteralState.next .outside = .outside := by
              cases p <;> rfl
            rw [spelling_of_ofStart? spelled, LiteralState.leavesOpen, LiteralState.leavesOpen,
              List.foldl_append, outside]
          case h_2 =>
            exact .unquoted (fun same => notQuotes (by rw [same]; rfl))
              (fun same => notQuote (by rw [same]; rfl)) (.here rfl)

theorem exists_token? (c : Char) (cs : List Char) (loc : Location) :
    ∃ result, token? ⟨c :: cs, loc⟩ = some (result, (lexeme c cs loc).2) := by
  unfold token?
  dsimp only
  split <;> exact ⟨_, rfl⟩

/-! ### Lines -/

/-- A plain text in front of a line end whose first character is no white space. -/
theorem skipTrivia_dense {c : Char} (plain : PlainText (c :: cs)) (dense : isSpace c = false)
    (newline : Bool) (loc : Location) (tail : List Char) :
    skipTrivia newline loc .code (c :: (cs ++ '\n' :: tail)) =
      ⟨newline, none, ⟨c :: (cs ++ '\n' :: tail), loc⟩⟩ := by
  have second {d : Char} {others : List Char} (same : cs ++ '\n' :: tail = d :: others)
      (notEnd : d ≠ '\n') : [c, d] <+: c :: cs := by
    cases cs with
    | nil => exact absurd (List.cons.inj same).1.symm notEnd
    | cons e cs =>
        rw [(List.cons.inj same).1]
        exact ⟨cs, rfl⟩
  rw [skipTrivia, if_neg (Bool.eq_false_iff.mp dense)]
  · rintro rfl
    exact plain.oneLine List.mem_cons_self
  · rintro others rfl -
    exact plain.noEscape List.mem_cons_self
  · rintro others rfl slash
    exact plain.noLineComment (second slash (by decide)).isInfix
  · rintro others rfl star
    exact plain.noBlockComment (second star (by decide)).isInfix

end Cursor

open Cursor

namespace PreprocState

variable {st : PreprocState} (inactive : st.active = false)
include inactive

theorem lexeme_inactive (result : Except LexFault Token) : st.lexeme result = .empty := by
  unfold PreprocState.lexeme
  exact if_neg (Bool.eq_false_iff.mp inactive)

/-- The run over a line where text is skipped. Behind a literal that is left open the next line has
no beginning. -/
theorem run_plainText {cs : List Char} (plain : PlainText cs) {lineStart : Bool}
    (noSign : lineStart = true → (cs.dropWhile isSpace).head? ≠ some '#') (loc : Location)
    (tail : List Char) :
    ∃ starts, st.run lineStart ⟨cs ++ '\n' :: tail, loc⟩ =
        st.run starts ⟨tail, (cs.foldl Location.after loc).after '\n'⟩ ∧
      (LiteralState.outside.leavesOpen cs = false → starts = true) := by
  induction length : cs.length using Nat.strongRecOn generalizing cs lineStart loc with
  | ind n ih =>
      cases cs with
      | nil => exact ⟨true, run_newline lineStart loc tail, fun _ => rfl⟩
      | cons c cs =>
          cases dense : isSpace c with
          | true =>
              have skipped : Cursor.trivia ⟨c :: cs ++ '\n' :: tail, loc⟩ =
                  Cursor.trivia ⟨cs ++ '\n' :: tail, loc.after c⟩ := skipTrivia_space dense
              have outside : LiteralState.outside.next c = .outside := by
                rw [LiteralState.next, if_neg (by rintro rfl; cases dense),
                  if_neg (by rintro rfl; cases dense)]
              obtain ⟨starts, run, closed⟩ := ih cs.length
                (by rw [← length]; exact Nat.lt_succ_self _)
                (plain.suffix (List.suffix_cons c cs))
                (fun yes => by simpa [List.dropWhile_cons, dense] using noSign yes)
                (loc.after c) rfl
              refine ⟨starts, ?_, fun none => closed ?_⟩
              · rw [List.foldl_cons, ← run]
                exact run_congr (by rw [skipped]) (by rw [skipped]) (by rw [skipped])
              · rwa [LiteralState.leavesOpen, List.foldl_cons, outside] at none
          | false =>
              have stays : Cursor.trivia ⟨c :: (cs ++ '\n' :: tail), loc⟩ =
                  ⟨false, none, ⟨c :: (cs ++ '\n' :: tail), loc⟩⟩ :=
                skipTrivia_dense plain dense false loc tail
              have stops := lexeme_stops plain.oneLine plain.noEscape loc tail
              have shorter := length_lexeme_lt c (cs ++ '\n' :: tail) loc
              obtain ⟨result, scanned⟩ := exists_token? c (cs ++ '\n' :: tail) loc
              generalize (Cursor.lexeme c (cs ++ '\n' :: tail) loc).2 = next at *
              have token : st.run lineStart ⟨c :: (cs ++ '\n' :: tail), loc⟩ =
                  st.run false next := by
                rw [run_of_token? (by rw [stays]) (by rw [stays]; exact scanned),
                  lexeme_inactive inactive, PreprocOutput.empty_append]
                rw [stays, Bool.or_false]
                rintro ⟨sign, yes⟩
                exact noSign yes (by simpa [List.dropWhile_cons, dense] using sign)
              rw [List.cons_append, token]
              cases stops with
              | behind isOpen =>
                  exact ⟨false, rfl, fun none => by cases isOpen.symm.trans none⟩
              | @within used rest same outside =>
                  have noSign' : false = true → (rest.dropWhile isSpace).head? ≠ some '#' :=
                    fun never => Bool.noConfusion never
                  obtain ⟨starts, run, closed⟩ := ih rest.length
                    (by simp only [List.length_append, List.length_cons] at shorter length; omega)
                    (plain.suffix ⟨used, same.symm⟩) noSign' (used.foldl Location.after loc) rfl
                  refine ⟨starts, ?_, fun none => closed (outside.trans none)⟩
                  rw [run, same, List.foldl_append]

/-- The run over lines where text is skipped. -/
theorem run_plainLines {lines : List String} (plain : ∀ line ∈ lines, PlainLine line)
    {back : List String} (more : back ≠ []) (lineStart : Bool) (loc : Location) :
    ∃ starts, st.run lineStart (ofText (sourceOf (lines ++ back)) loc) =
        st.run starts (ofText (sourceOf back) (lines.foldl Location.behindLine loc)) ∧
      (lines = [] → starts = lineStart) ∧
      ∀ line ∈ lines.getLast?, leavesOpen line = false → starts = true := by
  induction lines generalizing lineStart loc with
  | nil => exact ⟨lineStart, rfl, fun _ => rfl, nofun⟩
  | cons line lines ih =>
      rw [List.forall_mem_cons] at plain
      obtain ⟨begins, first, closed⟩ := @run_plainText st inactive _ plain.1.plain lineStart
        (fun _ => plain.1.noSign) loc (Text.toByteChars (sourceOf (lines ++ back)))
      obtain ⟨starts, others, same, last⟩ := ih plain.2 begins (loc.behindLine line)
      refine ⟨starts, ?_, nofun, fun line' isLast noLiteral => ?_⟩
      · rw [List.cons_append, ofText,
          toByteChars_sourceOf_cons (List.append_ne_nil_of_right_ne_nil _ more), first]
        exact others
      · cases lines with
        | nil =>
            obtain rfl : line = line' := Option.some.inj isLast
            rw [same rfl]
            exact closed noLiteral
        | cons line'' lines => exact last line' isLast noLiteral

/-- What is wrong with the operands of directives that ask whether a macro is defined. -/
def operandFaults : SourcePiece → List LexFault
  | .directive d =>
    if d.name = "ifdef" ∨ d.name = "ifndef" then (ScannedLine.ofText d.operand d.operandLoc).faults
    else []
  | .lexeme _ | .comment _ => []

theorem ifDefined_inactive (name : String) (expected : Bool) (rest : List Char)
    (loc restLoc : Location) :
    (st.ifDefined name expected rest loc restLoc).2 =
      { faults := (ScannedLine.ofText rest restLoc).faults } := by
  unfold ifDefined
  rw [if_neg (Bool.eq_false_iff.mp inactive)]
  dsimp only
  split <;> exact congrArg (PreprocOutput.mk [] []) (List.append_nil _)

theorem endif_inactive (loc : Location) : (st.endif loc).2 = .empty := by
  unfold endif
  split
  case h_1 none =>
    rw [active, none] at inactive
    cases inactive
  case h_2 => rfl

/-- Where text is skipped, a piece adds nothing but errors in such an operand, unless it begins the
next branch of the group. -/
theorem piece_inactive {p : SourcePiece}
    (noBranch : ∀ d, p = .directive d → d.name ≠ "elif" ∧ d.name ≠ "else") :
    (st.piece p).2 = { faults := operandFaults p } := by
  cases p with
  | lexeme result => exact lexeme_inactive inactive result
  | comment f =>
      rw [piece, if_neg (Bool.eq_false_iff.mp inactive)]
      rfl
  | directive d =>
      obtain ⟨noElif, noElse⟩ := noBranch d rfl
      rw [piece, directive_eq, operandFaults]
      by_cases asks : d.name = "ifdef" ∨ d.name = "ifndef"
      · rw [if_pos asks]
        obtain name | name := asks
        · rw [name]
          exact ifDefined_inactive inactive ..
        · rw [name]
          exact ifDefined_inactive inactive ..
      · rw [if_neg asks]
        rw [not_or] at asks
        simp only [beq_iff_eq, asks, noElif, noElse, if_false, inactive, Bool.not_false, if_true]
        split
        · rw [ifCondition, if_neg (Bool.eq_false_iff.mp inactive)]
          rfl
        · split
          · exact endif_inactive inactive _
          · rfl

end PreprocState

/-! ### Skipped groups -/

/-- What tokenizing a source gives that stands `n` lines further down. The first `given` diagnostics
are those of macros given from outside. -/
def tokenizedDown (n given : Nat) :
    Except (List Diagnostic) Preprocessed → Except (List Diagnostic) Preprocessed
  | .ok text => .ok ⟨text.tokens.map (Token.down n), text.warnings.map (Diagnostic.down n)⟩
  | .error ds => .error (ds.take given ++ (ds.drop given).map (Diagnostic.down n))

theorem Location.behindLine_eq {line : String} (oneLine : '\n' ∉ Text.toByteChars line)
    (loc : Location) : loc.behindLine line = ⟨loc.line + 1, 1⟩ := by
  unfold behindLine
  generalize Text.toByteChars line = cs at oneLine ⊢
  induction cs generalizing loc with
  | nil => rfl
  | cons c cs ih =>
      rw [List.mem_cons, not_or] at oneLine
      rw [List.foldl_cons, ih _ oneLine.2, after, if_neg (Ne.symm oneLine.1)]

theorem Location.behindLines_eq {lines : List String}
    (oneLine : ∀ line ∈ lines, '\n' ∉ Text.toByteChars line) (number : Nat) :
    lines.foldl behindLine ⟨number, 1⟩ = ⟨number + lines.length, 1⟩ := by
  induction lines generalizing number with
  | nil => rfl
  | cons line lines ih =>
      rw [List.forall_mem_cons] at oneLine
      rw [List.foldl_cons, behindLine_eq oneLine.1, ih oneLine.2, List.length_cons,
        Nat.add_right_comm, Nat.add_assoc]

theorem run_skippedLines {m : MacroTable} {lines : List String}
    (plain : ∀ line ∈ lines, PlainLine line)
    (closed : ∀ line ∈ lines.getLast?, leavesOpen line = false) (source : String) :
    PreprocState.run { macros := m } true
        (ofText (sourceOf ("#if 0" :: (lines ++ ["#endif", source]))) .start) =
      (PreprocState.run { macros := m } true (ofText source .start)).down (lines.length + 2) := by
  have isIf : Opens "#if 0" := by decide +kernel
  have isEndif : IsDirective "#endif" := by decide +kernel
  have condition : condition? "#if 0" .start = some (.constant false) := by decide +kernel
  have oneLine (line : String) (member : line ∈ lines) := (plain line member).plain.oneLine
  have opened := @PreprocState.line_opens { macros := m } _ .start isIf rfl _ condition
  have more : lines ++ ["#endif", source] ≠ [] := List.append_ne_nil_of_right_ne_nil _ (by simp)
  obtain ⟨starts, run, same, last⟩ := PreprocState.run_plainLines
    (show (PreprocState.openGroup { macros := m } false).active = false from rfl) plain
    (List.cons_ne_nil "#endif" [source]) true (Location.start.behindLine "#if 0")
  obtain rfl : starts = true := by
    cases found : lines.getLast? with
    | none => exact same (List.getLast?_eq_none_iff.mp found)
    | some line => exact last line found (closed line found)
  have place : (lines.foldl Location.behindLine (Location.start.behindLine "#if 0")).behindLine
      "#endif" = Location.start.down (lines.length + 2) := by
    rw [Location.behindLine_eq (by decide +kernel), Location.behindLine_eq (by decide +kernel),
      Location.behindLines_eq oneLine, Location.down]
    exact congrArg (Location.mk · 1) (by simp only [Location.start]; omega)
  rw [run_sourceOf_cons (.inr isIf.isDirective) more, opened]
  dsimp only
  rw [PreprocOutput.empty_append, BranchCondition.holds, run,
    run_sourceOf_cons (.inr isEndif) (List.cons_ne_nil _ _),
    PreprocState.line_endif rfl isEndif (by decide +kernel), place]
  dsimp only
  rw [PreprocOutput.empty_append, sourceOf, String.intercalate_singleton]
  exact PreprocState.run_down ⟨rfl, rfl⟩ _ true (ofText source .start)

theorem tokenize_down {source moved : String} {defines : List (String × String)} {n : Nat}
    (runs : PreprocState.run { macros := (predefined defines).1 } true (ofText moved .start) =
      (PreprocState.run { macros := (predefined defines).1 } true (ofText source .start)).down n) :
    tokenize moved defines =
      tokenizedDown n (predefined defines).2.length (tokenize source defines) := by
  unfold tokenize
  dsimp only
  rw [runs]
  generalize PreprocState.run _ true (ofText source .start) = output
  generalize (predefined defines).2 = given
  have diagnostic (f : LexFault) : (f.down n).diagnostic = f.diagnostic.down n := rfl
  cases given with
  | cons f given =>
      simp [PreprocOutput.down, tokenizedDown, Function.comp_def, diagnostic]
  | nil =>
      cases faults : output.faults with
      | nil => simp [PreprocOutput.down, tokenizedDown, faults]
      | cons f fs => simp [PreprocOutput.down, tokenizedDown, faults, Function.comp_def, diagnostic]

/-- Lines of a skipped group that are no directives are as if they were not there, provided that the
last of them leaves no literal open. In any source, what is read where text is skipped adds nothing
but the errors in the name that a nested directive asks for, unless it begins the next branch. -/
theorem tokenize_skippedText (defines : List (String × String)) :
    (∀ (lines : List String) (source : String), (∀ line ∈ lines, PlainLine line) →
      (∀ line ∈ lines.getLast?, leavesOpen line = false) →
      tokenize (sourceOf ("#if 0" :: (lines ++ ["#endif", source]))) defines =
        tokenizedDown (lines.length + 2) (predefined defines).2.length
          (tokenize source defines)) ∧
    ∀ source : String,
      let start : PreprocState := { macros := (predefined defines).1 }
      let cut := (ofText source .start).cut true
      start.run true (ofText source .start) =
        (start.pieces cut.pieces).2 ++ (start.pieces cut.pieces).1.finish cut.stop ∧
      ∀ front p back, cut.pieces = front ++ p :: back → (start.pieces front).1.active = false →
        (∀ d, p = .directive d → d.name ≠ "elif" ∧ d.name ≠ "else") →
        ((start.pieces front).1.piece p).2 = { faults := PreprocState.operandFaults p } := by
  refine ⟨fun lines source plain closed => tokenize_down (run_skippedLines plain closed source),
    fun source => ⟨PreprocState.run_eq_pieces _ true _, fun front p back _ inactive noBranch => ?_⟩⟩
  exact PreprocState.piece_inactive inactive noBranch

/-- Quotes, apostrophes and characters of no token are skipped, and a nested directive whose operand
does not scan is not. -/
theorem tokenize_skippedText_quotes :
    let lines := ["say \"hi", "it isn't 'closed' @"]
    let nested := "#if 0\n#ifdef '\n#endif\n#endif"
    let start : PreprocState := { macros := (predefined []).1 }
    (∀ line ∈ lines, PlainLine line) ∧ (∀ line ∈ lines.getLast?, leavesOpen line = false) ∧
    tokenize (sourceOf ("#if 0" :: (lines ++ ["#endif", "int x;"]))) [] =
      tokenizedDown 4 0 (tokenize "int x;" []) ∧
    ∃ front p back, ((ofText nested .start).cut true).pieces = front ++ p :: back ∧
      (start.pieces front).1.active = false ∧
      ((start.pieces front).1.piece p).2 = { faults := [⟨⟨2, 8⟩, .unterminatedCharacter⟩] } := by
  intro lines nested start
  have plain : ∀ line ∈ lines, PlainLine line := by decide +kernel
  have closed : ∀ line ∈ lines.getLast?, leavesOpen line = false := by decide +kernel
  let front : List SourcePiece := [.directive ⟨⟨1, 1⟩, "if 0".toList⟩]
  let asked : Directive := ⟨⟨2, 1⟩, "ifdef '".toList⟩
  let back : List SourcePiece :=
    [.directive ⟨⟨3, 1⟩, "endif".toList⟩, .directive ⟨⟨4, 1⟩, "endif".toList⟩]
  have pieces : ((ofText nested .start).cut true).pieces = front ++ .directive asked :: back := by
    decide +kernel
  have inactive : (start.pieces front).1.active = false := by decide +kernel
  have noBranch (d) (same : SourcePiece.directive asked = .directive d) :
      d.name ≠ "elif" ∧ d.name ≠ "else" := by
    cases same
    decide +kernel
  have added := ((tokenize_skippedText []).2 nested).2 front _ back pieces inactive noBranch
  have faults : PreprocState.operandFaults (.directive asked) =
      [⟨⟨2, 8⟩, .unterminatedCharacter⟩] := by decide +kernel
  exact ⟨plain, closed, (tokenize_skippedText []).1 lines "int x;" plain closed,
    front, _, back, pieces, inactive, faults ▸ added⟩

/-- A quote that is left open in a skipped line hides the directive behind it, and an apostrophe
behind a nested directive is an error. -/
theorem tokenize_of_openLiteral :
    PlainLine "say \"hi" ∧
      (tokenize (sourceOf ["#if 0", "say \"hi", "#endif", "int x;"]) []).map Preprocessed.tokens =
        .error [⟨.parse, .error, "unterminated conditional directive", some ⟨4, 7⟩⟩] ∧
      (tokenizedDown 3 0 (tokenize "int x;" [])).map Preprocessed.tokens =
        .ok [⟨.keyword .intKw, ⟨4, 1⟩⟩, ⟨.ident "x", ⟨4, 5⟩⟩, ⟨.punct .semicolon, ⟨4, 6⟩⟩,
          ⟨.eof, ⟨4, 7⟩⟩] ∧
      (tokenize "#if 0\n#ifdef '\n#endif\n#endif" []).map Preprocessed.tokens =
        .error [⟨.parse, .error, "unterminated character constant", some ⟨2, 8⟩⟩] := by
  refine ⟨by decide +kernel, by decide +kernel, by decide +kernel, ?_⟩
  rw [tokenize_of_bytes (Text.toByteChars_of_all ?_)]
  all_goals decide +kernel

end LiveC

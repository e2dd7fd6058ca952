import Mathlib.Data.List.Basic
import LiveC.Proofs.LineScanning
import LiveC.Text.Bytes

/-!
A source read line by line. A line of text adds its tokens where text is kept and leaves the
state alone; a directive is carried out on the text behind its number sign. So the run over a
source is that over its first lines followed by that over the others.
-/

namespace LiveC

namespace PreprocOutput

theorem append_assoc (a b c : PreprocOutput) : a ++ b ++ c = a ++ (b ++ c) := by
  simp only [HAppend.hAppend, Append.append, PreprocOutput.mk.injEq]
  exact ⟨List.append_assoc .., List.append_assoc .., List.append_assoc ..⟩

@[simp]
theorem empty_append (a : PreprocOutput) : empty ++ a = a := rfl

@[simp]
theorem append_empty (a : PreprocOutput) : a ++ empty = a := by
  simp only [HAppend.hAppend, Append.append]
  cases a
  simp only [PreprocOutput.mk.injEq]
  exact ⟨List.append_nil _, List.append_nil _, List.append_nil _⟩

end PreprocOutput

/-! ### The directive of a line -/

/-- A directive of the source. -/
structure Directive where
  /-- Where its number sign stands. -/
  loc : Location
  /-- What follows the number sign, with a blank for each escaped line end. -/
  text : List Char
  deriving DecidableEq, Repr

namespace Directive

/-- The directive of a line that stands at `loc`, if the line is one. -/
def ofLine? (line : String) (loc : Location) : Option Directive :=
  let trivia := (Cursor.ofText line loc).trivia
  match trivia.fault, trivia.next.rest with
  | none, '#' :: body =>
    let text := (Cursor.restOfLine (trivia.next.loc.after '#') body).1
    some ⟨trivia.next.loc, (Text.ofByteChars text).toList⟩
  | _, _ => none

def name (d : Directive) : String :=
  String.ofList ((Text.trimStart d.text).takeWhile Text.isWordChar)

/-- What follows the name. -/
def operand (d : Directive) : List Char := (Text.trimStart d.text).dropWhile Text.isWordChar

def operandLoc (d : Directive) : Location :=
  ⟨d.loc.line, d.loc.column + 1 + (Text.utf8Length d.text - Text.utf8Length d.operand)⟩

end Directive

/-- Where the line behind one that stands at `loc` starts. -/
def Location.behindLine (loc : Location) (line : String) : Location :=
  ((Text.toByteChars line).foldl Location.after loc).after '\n'

/-- The tokens of a line that stands at `loc`. -/
def lineTokens (line : String) (loc : Location) : List Token :=
  (Cursor.ofText line loc).lexemes.filterMap Except.toOption

/-- A line of text: its tokens are well formed, and the first of them is no number sign. -/
structure IsText (line : String) : Prop where
  oneLine : '\n' ∉ Text.toByteChars line
  lexes : ∀ r ∈ (Cursor.ofText line .start).lexemes, r.isOk = true
  noDirective : ((lineTokens line .start).head?.map Token.kind) ≠ some (.punct .hash)

/-- A line that is a directive. Line ends may stand in it that are escaped. -/
structure IsDirective (line : String) : Prop where
  isDirective : (Directive.ofLine? line .start).isSome = true
  whole : (Cursor.restOfLine .start (Cursor.ofText line .start).trivia.next.rest.tail).2.rest = []
  noSplice : (Text.toByteChars line).getLast? ≠ some '\\'

instance (line : String) : Decidable (IsText line) :=
  decidable_of_iff ('\n' ∉ Text.toByteChars line ∧
      (∀ r ∈ (Cursor.ofText line .start).lexemes, r.isOk = true) ∧
      (lineTokens line .start).head?.map Token.kind ≠ some (.punct .hash))
    ⟨fun h => ⟨h.1, h.2.1, h.2.2⟩, fun h => ⟨h.oneLine, h.lexes, h.noDirective⟩⟩

instance (line : String) : Decidable (IsDirective line) :=
  decidable_of_iff ((Directive.ofLine? line .start).isSome = true ∧
      (Cursor.restOfLine .start (Cursor.ofText line .start).trivia.next.rest.tail).2.rest = [] ∧
      (Text.toByteChars line).getLast? ≠ some '\\')
    ⟨fun h => ⟨h.1, h.2.1, h.2.2⟩, fun h => ⟨h.isDirective, h.whole, h.noSplice⟩⟩

namespace PreprocState

open PreprocOutput

/-- What a text with these tokens contributes. -/
def kept (st : PreprocState) (ts : List Token) : PreprocOutput :=
  if st.active then { tokens := ts.flatMap fun t => st.macros.expand t.loc t.kind } else .empty

/-- What a line that stands at `loc` does. -/
def line (st : PreprocState) (line : String) (loc : Location) : PreprocState × PreprocOutput :=
  match Directive.ofLine? line loc with
  | some d => st.directive d.text d.loc
  | none => (st, st.kept (lineTokens line loc))

/-- What lines do that follow each other from `loc` on. -/
def lines (st : PreprocState) (loc : Location) : List String → PreprocState × PreprocOutput
  | [] => (st, .empty)
  | l :: ls =>
    let (st, output) := st.line l loc
    let (st, others) := st.lines (loc.behindLine l) ls
    (st, output ++ others)

theorem kept_cons (st : PreprocState) (t : Token) (ts : List Token) :
    st.kept (t :: ts) = st.lexeme (.ok t) ++ st.kept ts := by
  unfold kept lexeme
  split <;> rfl

theorem kept_nil (st : PreprocState) : st.kept [] = .empty := by
  unfold kept
  split <;> rfl

theorem lines_cons (st : PreprocState) (loc : Location) (l : String) (ls : List String) :
    st.lines loc (l :: ls) =
      let others := (st.line l loc).1.lines (loc.behindLine l) ls
      (others.1, (st.line l loc).2 ++ others.2) := rfl

theorem lines_append (st : PreprocState) (loc : Location) (ls others : List String) :
    st.lines loc (ls ++ others) =
      let front := st.lines loc ls
      let back := front.1.lines (ls.foldl Location.behindLine loc) others
      (back.1, front.2 ++ back.2) := by
  induction ls generalizing st loc with
  | nil => rfl
  | cons l ls ih => simp only [List.cons_append, lines, ih, List.foldl_cons, append_assoc]

/-! ### Running over a line -/

variable {st : PreprocState}

theorem run_of_fault {lineStart : Bool} {c : Cursor} {f : LexFault}
    (fault : c.trivia.fault = some f) :
    st.run lineStart c =
      { faults := if st.active then [f] else [] } ++ st.finish c.trivia.next.loc := by
  unfold run
  split <;> simp_all

theorem run_of_end {lineStart : Bool} {c : Cursor} (noFault : c.trivia.fault = none)
    (h : c.trivia.next.token? = none) : st.run lineStart c = st.finish c.trivia.next.loc := by
  rw [run, noFault]
  dsimp only
  split <;> simp_all

theorem run_of_token? {lineStart : Bool} {c next : Cursor} {result : Except LexFault Token}
    (noFault : c.trivia.fault = none) (h : c.trivia.next.token? = some (result, next))
    (noDirective :
      ¬(c.trivia.next.rest.head? = some '#' ∧ (lineStart || c.trivia.newline) = true)) :
    st.run lineStart c = st.lexeme result ++ st.run false next := by
  rw [run, noFault]
  dsimp only
  split
  · simp_all
  · rename_i scan
    obtain ⟨rfl, rfl⟩ := Prod.mk.inj (Option.some.inj (h.symm.trans scan))
    rw [dif_neg noDirective]

theorem run_of_directive {lineStart : Bool} {c next : Cursor} {newline : Bool} {loc : Location}
    {body text : List Char} (trivia : c.trivia = ⟨newline, none, ⟨'#' :: body, loc⟩⟩)
    (rest : Cursor.restOfLine (loc.after '#') body = (text, next))
    (starts : (lineStart || newline) = true) :
    st.run lineStart c =
      let (st, output) := st.directive (Text.ofByteChars text).toList loc
      output ++ st.run true next := by
  rw [run]
  generalize c.trivia = found at *
  cases trivia
  dsimp only
  split
  case h_1 atEnd => cases Cursor.rest_eq_nil_of_token? atEnd
  case h_2 =>
    rw [dif_pos ⟨rfl, starts⟩]
    simp only [List.tail_cons, rest]

/-- A run sees of the white space in front only whether a line ended. -/
theorem run_congr {lineStart lineStart' : Bool} {c c' : Cursor}
    (fault : c.trivia.fault = c'.trivia.fault) (next : c.trivia.next = c'.trivia.next)
    (starts : (lineStart || c.trivia.newline) = (lineStart' || c'.trivia.newline)) :
    st.run lineStart c = st.run lineStart' c' := by
  rw [run, run]
  generalize c.trivia = t at *
  generalize c'.trivia = t' at *
  obtain ⟨newline, _, _⟩ := t
  cases fault
  cases next
  dsimp only at starts ⊢
  rw [starts]

theorem run_newline (lineStart : Bool) (loc : Location) (cs : List Char) :
    st.run lineStart ⟨'\n' :: cs, loc⟩ = st.run true ⟨cs, loc.after '\n'⟩ := by
  have trivia : Cursor.trivia ⟨'\n' :: cs, loc⟩ =
      { Cursor.trivia ⟨cs, loc.after '\n'⟩ with newline := true } := by
    simpa [Cursor.trivia, Cursor.skipTrivia] using
      Cursor.skipTrivia_newline true false (loc.after '\n') .code cs
  exact run_congr (by rw [trivia]) (by rw [trivia]) (by rw [trivia, Bool.or_true, Bool.true_or])

theorem run_nil (lineStart : Bool) (loc : Location) : st.run lineStart ⟨[], loc⟩ = st.finish loc :=
  run_of_end rfl rfl

theorem run_behindLine {tail : List Char} (behind : Cursor.BehindLine tail) (lineStart : Bool)
    (loc : Location) : st.run lineStart ⟨tail, loc⟩ = st.run true ⟨tail, loc⟩ := by
  obtain rfl | ⟨after, rfl⟩ := behind.cases
  · rw [run_nil, run_nil]
  · rw [run_newline, run_newline]

open Cursor in
/-- The run over a piece of text within a line. -/
theorem run_scanned {cs : List Char} {kinds : List TokenKind} (h : Scanned cs kinds)
    (oneLine : '\n' ∉ cs) {lineStart : Bool}
    (noDirective : lineStart = true → kinds.head? ≠ some (.punct .hash)) (loc : Location)
    {tail : List Char} (behind : BehindLine tail) :
    st.run lineStart ⟨cs ++ tail, loc⟩ =
      st.kept ((Cursor.lexemes ⟨cs, loc⟩).filterMap Except.toOption) ++
        st.run true ⟨tail, cs.foldl Location.after loc⟩ := by
  induction h generalizing lineStart loc with
  | @blank cs skips =>
      obtain ⟨used, saw, same, seen, trivia⟩ := skips.trivia
      rw [List.append_nil] at same
      subst same
      obtain rfl : saw = false := Bool.eq_false_iff.mpr fun yes => oneLine (seen yes)
      obtain ⟨ts, scan, none⟩ := (Scanned.blank skips).lexemes loc
      rw [List.map_eq_nil_iff] at none
      rw [scan, none, List.map_nil, List.filterMap_nil, kept_nil, empty_append,
        ← run_behindLine behind lineStart]
      have passed : Cursor.trivia ⟨cs ++ tail, loc⟩ =
          Cursor.trivia ⟨tail, cs.foldl Location.after loc⟩ := trivia loc tail behind
      exact run_congr (by rw [passed]) (by rw [passed]) (by rw [passed])
  | @token cs used rest c kind kinds skips dense reads others ih =>
      obtain ⟨lead, saw, rfl, seen, trivia⟩ := skips.trivia
      rw [List.mem_append, not_or, List.mem_cons, not_or, List.mem_append, not_or] at oneLine
      obtain rfl : saw = false := Bool.eq_false_iff.mpr fun yes => oneLine.1 (seen yes)
      have stops {tail} (behind : BehindLine tail) :=
        (trivia loc tail behind).trans (dense tail behind _ _)
      have token {tail} (behind : BehindLine tail) :=
        token?_of_lexeme (reads (lead.foldl Location.after loc) tail behind)
      have here := stops behind
      have alone := stops behindLine_nil
      rw [List.append_nil, List.append_nil] at alone
      have scan := lexemes_of_token? (c := ⟨lead ++ c :: (used ++ rest), loc⟩) (by rw [alone])
        (by rw [alone]; simpa using token behindLine_nil)
      rw [scan, List.filterMap_cons]
      dsimp only [Except.toOption]
      rw [kept_cons, append_assoc, run_of_token? (by rw [here]) (by rw [here]; exact token behind),
        @ih oneLine.2.2.2 false nofun]
      · simp only [List.foldl_append, List.foldl_cons]
      · rintro ⟨hash, starts⟩
        rw [here] at hash starts
        obtain rfl : c = '#' := Option.some.inj hash
        have read := congrArg Prod.fst (reads loc [] behindLine_nil)
        rw [lexeme_hash] at read
        exact noDirective (by rwa [Bool.or_false] at starts)
          (congrArg some (Except.ok.inj read).symm)

end PreprocState

/-! ### Running over lines -/

open Cursor

namespace IsText

variable {line : String} (h : IsText line)
include h

theorem scanned : ∃ kinds, Scanned (Text.toByteChars line) kinds ∧
    kinds.head? ≠ some (.punct .hash) := by
  obtain ⟨kinds, scanned⟩ := scanned_of_lexemes h.lexes
  obtain ⟨ts, scan, rfl⟩ := scanned.lexemes .start
  refine ⟨_, scanned, fun hash => h.noDirective ?_⟩
  have tokens : lineTokens line .start = ts := by
    have same : (Cursor.ofText line .start).lexemes = ts.map .ok := scan
    rw [lineTokens, same, List.filterMap_map]
    exact List.filterMap_some
  rw [tokens, ← List.head?_map, hash]

theorem ofLine? (loc : Location) : Directive.ofLine? line loc = none := by
  obtain ⟨kinds, scanned, noHash⟩ := h.scanned
  have noSign (body : List Char) : (Cursor.ofText line loc).trivia.next.rest ≠ '#' :: body :=
    fun sign => noHash (scanned.head?_of_sign sign)
  unfold Directive.ofLine?
  dsimp only
  split
  case h_1 sign => exact absurd sign (noSign _)
  case h_2 => rfl

theorem run {st : PreprocState} (loc : Location) {tail : List Char} (behind : BehindLine tail) :
    st.run true ⟨Text.toByteChars line ++ tail, loc⟩ =
      (st.line line loc).2 ++
        (st.line line loc).1.run true ⟨tail, (Text.toByteChars line).foldl Location.after loc⟩ := by
  obtain ⟨kinds, scanned, noHash⟩ := h.scanned
  rw [PreprocState.run_scanned scanned h.oneLine (fun _ => noHash) loc behind, PreprocState.line,
    h.ofLine?]
  rfl

end IsText

namespace IsDirective

variable {line : String} (h : IsDirective line)
include h

/-- The line is cut wherever it stands and whatever follows it. -/
theorem cut : ∃ lead body text, Text.toByteChars line = lead ++ '#' :: body ∧
    (∀ loc, Directive.ofLine? line loc =
      some ⟨lead.foldl Location.after loc, (Text.ofByteChars text).toList⟩) ∧
    ∀ loc tail, BehindLine tail →
      (∃ newline, Cursor.trivia ⟨Text.toByteChars line ++ tail, loc⟩ =
        ⟨newline, none, ⟨'#' :: (body ++ tail), lead.foldl Location.after loc⟩⟩) ∧
      restOfLine loc (body ++ tail) = (text, ⟨tail, body.foldl Location.after loc⟩) := by
  have isDirective := h.isDirective
  unfold Directive.ofLine? at isDirective
  dsimp only at isDirective
  split at isDirective
  case h_2 => cases isDirective
  case h_1 body noFault sign =>
    have skips : Skips .code (Text.toByteChars line) ('#' :: body) :=
      sign ▸ skips_skipTrivia noFault
    obtain ⟨lead, saw, same, -, trivia⟩ := skips.trivia
    have whole := h.whole
    have noSplice := h.noSplice
    rw [sign, List.tail_cons] at whole
    rw [same, List.getLast?_append_cons] at noSplice
    have noSplice' : body.getLast? ≠ some '\\' := by
      cases body with
      | nil => nofun
      | cons => rwa [List.getLast?_cons_cons] at noSplice
    have stops (loc tail) (behind : BehindLine tail) :
        Cursor.trivia ⟨Text.toByteChars line ++ tail, loc⟩ =
          ⟨saw, none, ⟨'#' :: (body ++ tail), lead.foldl Location.after loc⟩⟩ := by
      rw [trivia loc tail behind, List.cons_append, skipTrivia]
      · rfl
      all_goals
        intros
        contradiction
    refine ⟨lead, body, _, same, fun loc => ?_, fun loc tail behind =>
      ⟨⟨saw, stops loc tail behind⟩,
      restOfLine_append whole noSplice' loc behind⟩⟩
    have alone := stops loc [] behindLine_nil
    have cut := restOfLine_append whole noSplice' ((lead.foldl Location.after loc).after '#')
      behindLine_nil
    rw [List.append_nil] at alone cut
    rw [List.append_nil] at alone
    unfold Directive.ofLine?
    rw [Cursor.ofText, alone]
    simp only [cut]

theorem run {st : PreprocState} (loc : Location) {tail : List Char} (behind : BehindLine tail) :
    st.run true ⟨Text.toByteChars line ++ tail, loc⟩ =
      (st.line line loc).2 ++
        (st.line line loc).1.run true ⟨tail, (Text.toByteChars line).foldl Location.after loc⟩ := by
  obtain ⟨lead, body, text, same, isLine, cut⟩ := h.cut
  obtain ⟨newline, trivia⟩ := (cut loc tail behind).1
  rw [PreprocState.run_of_directive trivia (cut _ tail behind).2 rfl, PreprocState.line, isLine, same,
    List.foldl_append, List.foldl_cons]

end IsDirective

/-- A line of a source: of text, or a directive. -/
def IsLine (line : String) : Prop := IsText line ∨ IsDirective line

theorem IsLine.run {st : PreprocState} {line : String} (h : IsLine line) (loc : Location)
    {tail : List Char} (behind : BehindLine tail) :
    st.run true ⟨Text.toByteChars line ++ tail, loc⟩ =
      (st.line line loc).2 ++
        (st.line line loc).1.run true ⟨tail, (Text.toByteChars line).foldl Location.after loc⟩ :=
  h.elim (fun text => text.run loc behind) (fun directive => directive.run loc behind)

/-- The source that has these lines. -/
def sourceOf (lines : List String) : String := "\n".intercalate lines

theorem toByteChars_sourceOf_cons {line : String} {lines : List String} (more : lines ≠ []) :
    Text.toByteChars (sourceOf (line :: lines)) =
      Text.toByteChars line ++ '\n' :: Text.toByteChars (sourceOf lines) := by
  rw [sourceOf, String.intercalate_cons_of_ne_nil more, Text.toByteChars_append,
    Text.toByteChars_append, Text.toByteChars_newline, List.append_assoc]
  rfl

section

variable {st : PreprocState} {line : String} {lines back : List String}

theorem run_sourceOf_cons (h : IsLine line) (more : lines ≠ []) (loc : Location) :
    st.run true (Cursor.ofText (sourceOf (line :: lines)) loc) =
      (st.line line loc).2 ++ (st.line line loc).1.run true
        (Cursor.ofText (sourceOf lines) (loc.behindLine line)) := by
  rw [Cursor.ofText, toByteChars_sourceOf_cons more, h.run loc (behindLine_newline _),
    PreprocState.run_newline]
  rfl

/-- The run over a source is that over its first lines, and then over the others. -/
theorem run_sourceOf_append (h : ∀ line ∈ lines, IsLine line) (more : back ≠ []) (loc : Location) :
    st.run true (Cursor.ofText (sourceOf (lines ++ back)) loc) =
      (st.lines loc lines).2 ++ (st.lines loc lines).1.run true
        (Cursor.ofText (sourceOf back) (lines.foldl Location.behindLine loc)) := by
  induction lines generalizing st loc with
  | nil => rfl
  | cons line lines ih =>
      rw [List.forall_mem_cons] at h
      rw [List.cons_append, run_sourceOf_cons h.1 (List.append_ne_nil_of_right_ne_nil _ more),
        ih h.2,
        PreprocState.lines, List.foldl_cons, PreprocOutput.append_assoc]

/-- The run over a source is that over its lines, up to its end. -/
theorem run_sourceOf (h : ∀ line ∈ lines, IsLine line) (loc : Location) :
    st.run true (Cursor.ofText (sourceOf lines) loc) =
      (st.lines loc lines).2 ++ (st.lines loc lines).1.finish
        ((Text.toByteChars (sourceOf lines)).foldl Location.after loc) := by
  induction lines generalizing st loc with
  | nil =>
      rw [sourceOf, String.intercalate_nil, Cursor.ofText, Text.toByteChars_empty,
        PreprocState.run_nil]
      rfl
  | cons line lines ih =>
      rw [List.forall_mem_cons] at h
      cases lines with
      | nil =>
          have alone := @IsLine.run st line h.1 loc [] behindLine_nil
          rw [List.append_nil, PreprocState.run_nil] at alone
          rw [PreprocState.lines_cons, PreprocState.lines]
          dsimp only
          rw [PreprocOutput.append_empty]
          exact alone
      | cons line' lines =>
          have more : line' :: lines ≠ [] := List.cons_ne_nil _ _
          rw [run_sourceOf_cons h.1 more, ih h.2, toByteChars_sourceOf_cons more,
            PreprocState.lines_cons st loc line, List.foldl_append, List.foldl_cons,
            PreprocOutput.append_assoc]
          rfl

end

end LiveC

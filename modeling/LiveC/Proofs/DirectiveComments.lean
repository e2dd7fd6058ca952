import Mathlib.Data.List.TakeWhile
import LiveC.Proofs.DirectiveLines
import LiveC.Proofs.TrailingComments

/-!
Comments behind directives. A directive that scans its operand, or has none, does the same with a
comment behind it. `#undef` takes its operand as it is written, so that it names no macro then.
-/

namespace LiveC

/-! ### Ends of texts -/

namespace Text

theorem takeWhile_append {p : Char → Bool} {tail : List Char} (stops : tail.head?.any p = false)
    (cs : List Char) : (cs ++ tail).takeWhile p = cs.takeWhile p := by
  have none : tail.takeWhile p = [] := by
    obtain _ | ⟨c, tail⟩ := tail
    · rfl
    · exact List.takeWhile_cons_of_neg (Bool.eq_false_iff.mp stops)
  rw [List.takeWhile_append, none, List.append_nil]
  split
  case isTrue whole => exact ((List.takeWhile_prefix p).eq_of_length whole).symm
  case isFalse => rfl

theorem dropWhile_append {p : Char → Bool} {tail : List Char} (stops : tail.head?.any p = false)
    (cs : List Char) : (cs ++ tail).dropWhile p = cs.dropWhile p ++ tail := by
  have all : tail.dropWhile p = tail := by
    obtain _ | ⟨c, tail⟩ := tail
    · rfl
    · exact List.dropWhile_cons_of_neg (Bool.eq_false_iff.mp stops)
  rw [List.dropWhile_append, all]
  split
  case isTrue none => rw [List.isEmpty_iff.mp none, List.nil_append]
  case isFalse => rfl

theorem trimStart_append {cs : List Char} (notBlank : trimStart cs ≠ []) (tail : List Char) :
    trimStart (cs ++ tail) = trimStart cs ++ tail := by
  rw [trimStart, List.dropWhile_append, if_neg (by rwa [List.isEmpty_iff])]
  rfl

theorem utf8Length_append (cs ds : List Char) :
    utf8Length (cs ++ ds) = utf8Length cs + utf8Length ds := by
  induction cs with
  | nil => rw [List.nil_append, utf8Length, Nat.zero_add]
  | cons c cs ih => rw [List.cons_append, utf8Length, utf8Length, ih, Nat.add_assoc]

theorem mem_dropWhile {p : Char → Bool} {c : Char} {cs : List Char} (kept : p c = false)
    (member : c ∈ cs) : c ∈ cs.dropWhile p := by
  rw [← List.takeWhile_append_dropWhile (p := p) (l := cs), List.mem_append] at member
  refine member.resolve_left fun dropped => ?_
  cases (List.mem_takeWhile_imp dropped).symm.trans kept

theorem mem_trim {c : Char} {cs : List Char} (notBlank : isBlank c = false) (member : c ∈ cs) :
    c ∈ trim cs := by
  rw [trim, List.mem_reverse]
  exact mem_dropWhile notBlank (List.mem_reverse.mpr (mem_dropWhile notBlank member))

end Text

/-! ### Operands -/

namespace PreprocState

variable {st : PreprocState} {rest c : List Char}

theorem condition_comment (plain : Unquoted rest) (comment : IsComment c) (loc : Location) :
    st.condition (rest ++ ' ' :: c) loc = st.condition rest loc := by
  rw [condition, condition, ScannedLine.ofText_comment plain comment]

theorem ifDefined_comment (plain : Unquoted rest) (comment : IsComment c) (directive : String)
    (expected : Bool) (loc restLoc : Location) :
    st.ifDefined directive expected (rest ++ ' ' :: c) loc restLoc =
      st.ifDefined directive expected rest loc restLoc := by
  rw [ifDefined, ifDefined, ScannedLine.ofText_comment plain comment]

theorem ifCondition_comment (plain : Unquoted rest) (comment : IsComment c) (restLoc : Location) :
    st.ifCondition (rest ++ ' ' :: c) restLoc = st.ifCondition rest restLoc := by
  rw [ifCondition, ifCondition, condition_comment plain comment]

theorem elif_comment (plain : Unquoted rest) (comment : IsComment c) (loc restLoc : Location) :
    st.elif (rest ++ ' ' :: c) loc restLoc = st.elif rest loc restLoc := by
  rw [elif, elif, condition_comment plain comment]

theorem define_of_noName {loc : Location}
    (noName : (Text.trimStart rest).takeWhile Text.isWordChar = []) :
    st.define rest loc = (st, .fault loc .macroNameExpected) := by
  unfold define
  dsimp only
  rw [noName]
  rfl

theorem trimStart_comment (blank : Text.trimStart rest = []) (comment : IsComment c) :
    Text.trimStart (rest ++ ' ' :: c) = c := by
  have kept : c.dropWhile Text.isBlank = c := by
    cases comment <;> exact List.dropWhile_cons_of_neg (by decide)
  have space : (' ' :: c).dropWhile Text.isBlank = c.dropWhile Text.isBlank :=
    List.dropWhile_cons_of_pos (by decide)
  have none : (rest.dropWhile Text.isBlank).isEmpty = true := List.isEmpty_iff.mpr blank
  rw [Text.trimStart, List.dropWhile_append, if_pos none, space, kept]

theorem define_comment (plain : Unquoted rest) (comment : IsComment c) (loc : Location) :
    st.define (rest ++ ' ' :: c) loc = st.define rest loc := by
  by_cases blank : Text.trimStart rest = []
  · have noName : c.takeWhile Text.isWordChar = [] := by
      cases comment <;> exact List.takeWhile_cons_of_neg (by decide)
    rw [define_of_noName (by rw [trimStart_comment blank comment, noName]),
      define_of_noName (by rw [blank, List.takeWhile_nil])]
  · have stops : (' ' :: c).head?.any Text.isWordChar = false := rfl
    have head (ds : List Char) : (ds ++ ' ' :: c).head? = some '(' ↔ ds.head? = some '(' := by
      obtain _ | ⟨d, ds⟩ := ds
      · simp
      · rfl
    have definition : Unquoted ((Text.trimStart rest).dropWhile Text.isWordChar) :=
      plain.suffix ((List.dropWhile_suffix _).trans (List.dropWhile_suffix _))
    unfold define
    dsimp only
    simp only [Text.trimStart_append blank, Text.takeWhile_append stops,
      Text.dropWhile_append stops, head, Text.utf8Length_append, Nat.add_sub_add_right,
      ScannedLine.ofText_comment definition comment]

end PreprocState

/-! ### Directives -/

namespace Directive

variable {loc : Location} {d c : List Char}

theorem trimStart_ne_nil (named : (Directive.mk loc d).name ≠ "") : Text.trimStart d ≠ [] := by
  intro blank
  rw [name, blank] at named
  exact named rfl

/-- A comment behind a directive belongs to its operand. -/
theorem comment_parts (named : (Directive.mk loc d).name ≠ "") :
    (Directive.mk loc (d ++ ' ' :: c)).name = (Directive.mk loc d).name ∧
      (Directive.mk loc (d ++ ' ' :: c)).operand = (Directive.mk loc d).operand ++ ' ' :: c ∧
      (Directive.mk loc (d ++ ' ' :: c)).operandLoc = (Directive.mk loc d).operandLoc := by
  have stops : (' ' :: c).head?.any Text.isWordChar = false := rfl
  have trimmed := Text.trimStart_append (trimStart_ne_nil named) (' ' :: c)
  have operand : (Directive.mk loc (d ++ ' ' :: c)).operand =
      (Directive.mk loc d).operand ++ ' ' :: c := by
    rw [Directive.operand, trimmed, Text.dropWhile_append stops]
    rfl
  refine ⟨?_, operand, ?_⟩
  · rw [name, trimmed, Text.takeWhile_append stops]
    rfl
  · rw [operandLoc, operand]
    dsimp only
    rw [Text.utf8Length_append, Text.utf8Length_append, Nat.add_sub_add_right]
    rfl

end Directive

namespace PreprocState

variable {st : PreprocState} {loc : Location} {d c : List Char}

theorem directive_comment (plain : Unquoted d) (comment : IsComment c)
    (known : (Directive.mk loc d).name ∈
      ["define", "if", "ifdef", "ifndef", "elif", "else", "endif"]) :
    st.directive (d ++ ' ' :: c) loc = st.directive d loc := by
  have named : (Directive.mk loc d).name ≠ "" := by
    intro none
    rw [none] at known
    revert known
    decide
  have operand : Unquoted (Directive.mk loc d).operand :=
    plain.suffix ((List.dropWhile_suffix _).trans (List.dropWhile_suffix _))
  obtain ⟨sameName, sameOperand, sameLoc⟩ := Directive.comment_parts (c := c) named
  have left := @directive_eq st ⟨loc, d ++ ' ' :: c⟩
  have right := @directive_eq st ⟨loc, d⟩
  rw [sameName, sameOperand, sameLoc, ifDefined_comment operand comment,
    ifDefined_comment operand comment, ifCondition_comment operand comment,
    elif_comment operand comment, define_comment operand comment] at left
  refine left.trans (Eq.trans ?_ right.symm)
  simp only [List.mem_cons, List.not_mem_nil, or_false] at known
  obtain same | same | same | same | same | same | same := known <;> simp [same]

end PreprocState

namespace MacroTable

theorem erase_eq_self_iff {m : MacroTable} {name : String} :
    m.erase name = m ↔ m.contains name = false := by
  obtain ⟨entries⟩ := m
  rw [erase, MacroTable.mk.injEq, List.filter_eq_self, contains, find?, Option.isSome_eq_false_iff,
    Option.isNone_iff_eq_none, List.lookup_eq_none_iff]
  exact forall₂_congr fun e _ => by rw [bne_comm]

theorem erase_of_mem {m : MacroTable} {c : Char} {cs : List Char} (member : c ∈ cs)
    (names : ∀ e ∈ m.entries, c ∉ e.1.toList) : m.erase (String.ofList cs) = m := by
  obtain ⟨entries⟩ := m
  rw [erase, MacroTable.mk.injEq, List.filter_eq_self]
  refine fun e among => bne_iff_ne.mpr fun same => names e among ?_
  rwa [same, String.toList_ofList]

end MacroTable

namespace Text

theorem toByte_ofByte (b : UInt8) : toByte (ofByte b) = b := by
  have valid : b.toNat.isValidChar := .inl (Nat.lt_of_lt_of_le b.toNat_lt (by decide))
  have same : (ofByte b).toNat = b.toNat := by
    rw [ofByte, Char.ofNat, dif_pos valid]
    rfl
  rw [toByte, same, UInt8.ofNat_toNat]

theorem ofByteChars_toByteChars (s : String) : ofByteChars (toByteChars s) = s := by
  have bytes : (toByteChars s).map toByte = s.toByteArray.data.toList := by
    rw [toByteChars, List.map_map, utf8, String.toUTF8, toList_eq_data]
    exact (List.map_congr_left fun b _ => toByte_ofByte b).trans (List.map_id _)
  have valid : String.fromUTF8? ⟨s.toByteArray.data⟩ = some s := dif_pos s.isValidUTF8
  rw [ofByteChars, bytes, Array.toArray_toList, valid, Option.getD_some]

end Text

namespace PreprocState

variable {st : PreprocState} {loc : Location} {d c : List Char}

theorem directive_undef (named : (Directive.mk loc d).name = "undef") :
    st.directive d loc =
      if st.active then
        ({ st with
          macros := st.macros.erase (String.ofList (Text.trim (Directive.mk loc d).operand)) },
          .empty)
      else (st, .empty) := by
  have eq := @directive_eq st ⟨loc, d⟩
  rw [named] at eq
  refine eq.trans ?_
  cases st.active <;> rfl

/-- With a comment behind it, `#undef` drops no definition: no macro is called what it names. -/
theorem directive_undef_comment (named : (Directive.mk loc d).name = "undef")
    (comment : IsComment c) (names : ∀ e ∈ st.macros.entries, '/' ∉ e.1.toList) :
    st.directive (d ++ ' ' :: c) loc = (st, .empty) := by
  obtain ⟨sameName, sameOperand, -⟩ :=
    Directive.comment_parts (c := c) (named ▸ by decide : (Directive.mk loc d).name ≠ "")
  have slash : '/' ∈ Text.trim ((Directive.mk loc d).operand ++ ' ' :: c) := by
    refine Text.mem_trim (by decide) (List.mem_append_right _ (.tail _ ?_))
    cases comment <;> exact List.mem_cons_self
  rw [directive_undef (sameName.trans named), sameOperand, MacroTable.erase_of_mem slash names,
    ite_self]

theorem restOfLine_fst {cs : List Char} (oneLine : '\n' ∉ cs) (loc : Location) :
    (Cursor.restOfLine loc cs).1 = cs := by
  fun_induction Cursor.restOfLine loc cs with
  | case1 => rfl
  | case2 => exact absurd List.mem_cons_self oneLine
  | case3 => exact absurd (.tail _ (.head _)) oneLine
  | case4 loc c cs notEnd notSplice line next read ih =>
      rw [read] at ih
      exact congrArg (c :: ·) (ih fun member => oneLine (.tail _ member))

/-- A line of blanks and a number sign is the directive of what stands behind the sign. -/
theorem line_sign {lead text : List Char} (blank : ∀ b ∈ lead, Cursor.isSpace b = true)
    (oneLine : '\n' ∉ text) (loc : Location) :
    st.line (String.ofList (lead ++ '#' :: text)) loc =
      st.directive text (lead.foldl Location.after loc) := by
  have bytes : Text.toByteChars (String.ofList (lead ++ '#' :: text)) =
      lead ++ '#' :: Text.toByteChars (String.ofList text) := by
    rw [Text.toByteChars_ofList_append, Text.toByteChars_ofList_ascii (by decide),
      Text.toByteChars_ofList fun b member => IsBlank.ascii (.inl (blank b member))]
  have skip (newline : Bool) : Cursor.skipTrivia newline loc .code
      (lead ++ '#' :: Text.toByteChars (String.ofList text)) =
        ⟨newline, none, ⟨'#' :: Text.toByteChars (String.ofList text),
          lead.foldl Location.after loc⟩⟩ := by
    clear bytes
    induction lead generalizing loc with
    | nil =>
        simp [Cursor.skipTrivia, Cursor.isSpace]
    | cons b lead ih =>
        rw [List.forall_mem_cons] at blank
        rw [List.cons_append, Cursor.skipTrivia_space blank.1, ih blank.2]
        rfl
  have body : '\n' ∉ Text.toByteChars (String.ofList text) :=
    fun member => oneLine (Text.mem_of_toByteChars (by decide) member)
  have isLine : Directive.ofLine? (String.ofList (lead ++ '#' :: text)) loc =
      some ⟨lead.foldl Location.after loc, text⟩ := by
    unfold Directive.ofLine?
    rw [Cursor.ofText, Cursor.trivia, bytes, skip]
    simp only [restOfLine_fst body, Text.ofByteChars_toByteChars, String.toList_ofList]
  exact line_eq_directive isLine

/-- A comment behind a directive changes nothing, on a line of the source or on its own, unless the
directive is `#undef` where text is kept. The comment then belongs to the operand, so that no
definition is dropped. -/
theorem directive_trailingComment {d c : List Char} (plain : Unquoted d) (comment : IsComment c)
    (st : PreprocState) (loc : Location)
    (known : (Directive.mk loc d).name ∈
      ["undef", "define", "if", "ifdef", "ifndef", "elif", "else", "endif"]) :
    ((Directive.mk loc d).name ≠ "undef" ∨ st.active = false →
      st.directive (d ++ ' ' :: c) loc = st.directive d loc) ∧
    ((Directive.mk loc d).name = "undef" → st.active = true →
      (∀ e ∈ st.macros.entries, '/' ∉ e.1.toList) →
      st.directive (d ++ ' ' :: c) loc = (st, .empty) ∧
      (st.directive (d ++ ' ' :: c) loc = st.directive d loc ↔
        st.macros.contains (String.ofList (Text.trim (Directive.mk loc d).operand)) = false)) ∧
    ∀ lead start, (∀ b ∈ lead, Cursor.isSpace b = true) → '\n' ∉ d →
      lead.foldl Location.after start = loc →
      st.line (String.ofList (lead ++ '#' :: d)) start = st.directive d loc ∧
      st.line (String.ofList (lead ++ '#' :: (d ++ ' ' :: c))) start =
        st.directive (d ++ ' ' :: c) loc := by
  refine ⟨fun other => ?_, fun undef active names => ?_, fun lead start blank oneLine same => ?_⟩
  · obtain undef | known := List.mem_cons.mp known
    · have inactive := other.resolve_left (not_not_intro undef)
      obtain ⟨sameName, -⟩ :=
        Directive.comment_parts (c := c) (undef ▸ by decide : (Directive.mk loc d).name ≠ "")
      rw [directive_undef undef, directive_undef (sameName.trans undef), inactive]
      rfl
    · exact directive_comment plain comment known
  · have unchanged := directive_undef_comment undef comment names
    refine ⟨unchanged, ?_⟩
    rw [unchanged, directive_undef undef, if_pos active, ← MacroTable.erase_eq_self_iff,
      Prod.mk.injEq, and_iff_left rfl]
    exact ⟨fun same => (congrArg PreprocState.macros same).symm, fun same => by rw [same]⟩
  · have oneLine' : '\n' ∉ d ++ ' ' :: c := by
      rw [List.mem_append, List.mem_cons, not_or, not_or]
      exact ⟨oneLine, by decide, comment.oneLine⟩
    rw [line_sign blank oneLine, line_sign blank oneLine', same]
    exact ⟨rfl, rfl⟩

/-- A comment behind a definition is white space, one behind `#undef` keeps the macro. -/
theorem directive_commentedEdits :
    let st : PreprocState := { macros := ⟨[("A", [])]⟩ }
    st.directive "define B 2 // two".toList .start = st.directive "define B 2".toList .start ∧
      st.directive "undef A /* gone */".toList ⟨1, 2⟩ = (st, .empty) ∧
      st.line " #undef A /* gone */" .start = (st, .empty) := by
  intro st
  have define := (directive_trailingComment (d := "define B 2".toList) (by decide +kernel)
    (@IsComment.line " two".toList (by decide)) st .start (by decide +kernel)).1
  have undef := directive_trailingComment (d := "undef A".toList) (by decide +kernel)
    (@IsComment.block " gone ".toList (by decide) (by decide)) st ⟨1, 2⟩ (by decide +kernel)
  have dropped := (undef.2.1 (by decide +kernel) rfl (by decide)).1
  exact ⟨define (by decide +kernel), dropped,
    ((undef.2.2 [' '] .start (List.forall_mem_singleton.mpr rfl) (by decide) rfl).2).trans dropped⟩

/-- A comment behind `#undef` keeps the definition, which is dropped without the comment. -/
theorem tokenize_commentedUndef :
    Unquoted "undef A".toList ∧ IsComment "// gone".toList ∧
      (tokenize "#define A 1\n#undef A\nA" []).map Preprocessed.tokens =
        .ok [⟨.ident "A", ⟨3, 1⟩⟩, ⟨.eof, ⟨3, 2⟩⟩] ∧
      (tokenize "#define A 1\n#undef A // gone\nA" []).map Preprocessed.tokens =
        .ok [⟨.int 1 false false true, ⟨3, 1⟩⟩, ⟨.eof, ⟨3, 2⟩⟩] := by
  refine ⟨by decide, @IsComment.line " gone".toList (by decide), ?_, ?_⟩
  · rw [tokenize_of_bytes (Text.toByteChars_of_all ?_)]
    all_goals decide +kernel
  · rw [tokenize_of_bytes (Text.toByteChars_of_all ?_)]
    all_goals decide +kernel

end PreprocState

end LiveC

import LiveC.Proofs.SpelledSources

/-!
Comments at the end of a text. Where no literal and no comment starts in a text, a blank and a
comment behind it add nothing to its tokens and errors.
-/

namespace LiveC

/-! ### The bytes of characters outside of ASCII -/

namespace Text

variable {a b : Char} {cs : List Char}

theorem toByteChars_ofList_cons (c : Char) (cs : List Char) :
    toByteChars (String.ofList (c :: cs)) =
      (String.utf8EncodeChar c).map ofByte ++ toByteChars (String.ofList cs) := by
  simp only [toByteChars, utf8, String.toUTF8, toList_eq_data, String.toByteArray_ofList,
    List.utf8Encode, List.data_toByteArray, List.toList_toArray, List.flatMap_cons, List.map_append]

theorem toByteChars_ofList_append (cs ds : List Char) :
    toByteChars (String.ofList (cs ++ ds)) =
      toByteChars (String.ofList cs) ++ toByteChars (String.ofList ds) := by
  rw [String.ofList_append, toByteChars_append]

theorem toByteChars_ofList_ascii {c : Char} (ascii : c.toNat < 128) (cs : List Char) :
    toByteChars (String.ofList (c :: cs)) = c :: toByteChars (String.ofList cs) := by
  have single := toByteChars_ofList (List.forall_mem_singleton.mpr ascii)
  rw [toByteChars_ofList_cons, String.ofList_nil, toByteChars_empty, List.append_nil] at single
  rw [toByteChars_ofList_cons, single, List.singleton_append]

/-- A character is a byte of its own, or all its bytes lie outside of ASCII. -/
theorem ofByte_utf8EncodeChar (c : Char) : (String.utf8EncodeChar c).map ofByte = [c] ∨
    ∀ b ∈ (String.utf8EncodeChar c).map ofByte, 128 ≤ b.toNat := by
  by_cases ascii : c.toNat < 128
  · left
    have single := toByteChars_ofList (List.forall_mem_singleton.mpr ascii)
    rwa [toByteChars_ofList_cons, String.ofList_nil, toByteChars_empty, List.append_nil] at single
  · right
    have byte {n : Nat} (high : 128 ≤ n) (low : n < 256) :
        128 ≤ (ofByte (UInt8.ofNat n)).toNat := by
      have valid : n.isValidChar := .inl (by omega)
      rw [ofByte, UInt8.toNat_ofNat_of_lt' low, Char.ofNat, dif_pos valid]
      exact high
    have large : ¬c.val.toNat ≤ 127 := fun small => ascii (Nat.lt_succ_of_le small)
    intro b member
    obtain ⟨u, encoded, rfl⟩ := List.mem_map.mp member
    unfold String.utf8EncodeChar at encoded
    dsimp only at encoded
    rw [if_neg large] at encoded
    split at encoded
    · simp only [List.mem_cons, List.not_mem_nil, or_false] at encoded
      obtain rfl | rfl := encoded <;> exact byte (by omega) (by omega)
    · split at encoded
      · simp only [List.mem_cons, List.not_mem_nil, or_false] at encoded
        obtain rfl | rfl | rfl := encoded <;> exact byte (by omega) (by omega)
      · simp only [List.mem_cons, List.not_mem_nil, or_false] at encoded
        obtain rfl | rfl | rfl | rfl := encoded <;> exact byte (by omega) (by omega)

/-- A text in ASCII stands in front of bytes only where it stands in front of their characters. -/
theorem prefix_of_toByteChars {ps : List Char} (ascii : ∀ p ∈ ps, p.toNat < 128)
    (starts : ps <+: toByteChars (String.ofList cs)) : ps <+: cs := by
  induction ps generalizing cs with
  | nil => exact List.nil_prefix
  | cons p ps ih =>
      rw [List.forall_mem_cons] at ascii
      obtain _ | ⟨c, cs⟩ := cs
      · rwa [String.ofList_nil, toByteChars_empty] at starts
      · rw [toByteChars_ofList_cons] at starts
        obtain single | high := ofByte_utf8EncodeChar c
        · rw [single, List.singleton_append, List.cons_prefix_cons] at starts
          exact List.cons_prefix_cons.mpr ⟨starts.1, ih ascii.2 starts.2⟩
        · obtain ⟨u, us, encoded⟩ :=
            List.exists_cons_of_ne_nil (String.utf8EncodeChar_ne_nil (c := c))
          rw [encoded, List.map_cons, List.cons_append, List.cons_prefix_cons] at starts
          rw [encoded, List.map_cons, ← starts.1] at high
          exact absurd (high p List.mem_cons_self) (Nat.not_le_of_lt ascii.1)

theorem infix_of_append {ps us rest : List Char} (apart : ∀ u ∈ us, ps.head? ≠ some u)
    (inside : ps <:+: us ++ rest) : ps <:+: rest := by
  induction us with
  | nil => exact inside
  | cons u us ih =>
      rw [List.forall_mem_cons] at apart
      obtain starts | behind := List.infix_cons_iff.mp inside
      · obtain _ | ⟨p, ps⟩ := ps
        · exact List.nil_infix
        · exact absurd (congrArg some (List.cons_prefix_cons.mp starts).1) apart.1
      · exact ih apart.2 behind

theorem infix_of_toByteChars {ps : List Char} (ascii : ∀ p ∈ ps, p.toNat < 128)
    (inside : ps <:+: toByteChars (String.ofList cs)) : ps <:+: cs := by
  induction cs with
  | nil => rwa [String.ofList_nil, toByteChars_empty] at inside
  | cons c cs ih =>
      rw [toByteChars_ofList_cons] at inside
      obtain single | high := ofByte_utf8EncodeChar c
      · rw [single] at inside
        obtain starts | behind := List.infix_cons_iff.mp inside
        · have whole : ps <+: toByteChars (String.ofList (c :: cs)) := by
            rwa [toByteChars_ofList_cons, single]
          exact (prefix_of_toByteChars ascii whole).isInfix
        · exact (ih behind).trans (List.suffix_cons c cs).isInfix
      · refine (ih (infix_of_append (fun u member same => ?_) inside)).trans
          (List.suffix_cons c cs).isInfix
        exact absurd (high u member)
          (Nat.not_le_of_lt (ascii u (List.mem_of_mem_head? (Option.mem_def.mpr same))))

theorem mem_of_toByteChars (ascii : a.toNat < 128) (member : a ∈ toByteChars (String.ofList cs)) :
    a ∈ cs :=
  (List.singleton_infix_iff a cs).mp (infix_of_toByteChars (List.forall_mem_singleton.mpr ascii)
    ((List.singleton_infix_iff a _).mpr member))

end Text

/-! ### Texts and comments -/

/-- A text in which no literal and no comment starts. -/
structure Unquoted (cs : List Char) : Prop where
  noString : '"' ∉ cs
  noCharacter : '\'' ∉ cs
  noComment : NoComment cs

instance (cs : List Char) : Decidable (Unquoted cs) :=
  decidable_of_iff ('"' ∉ cs ∧ '\'' ∉ cs ∧ ¬['/', '/'] <:+: cs ∧ ¬['/', '*'] <:+: cs)
    ⟨fun h => ⟨h.1, h.2.1, h.2.2⟩, fun h => ⟨h.noString, h.noCharacter, h.noComment⟩⟩

theorem Unquoted.suffix {cs rest : List Char} (h : Unquoted cs) (suffix : rest <:+ cs) :
    Unquoted rest where
  noString member := h.noString (suffix.subset member)
  noCharacter member := h.noCharacter (suffix.subset member)
  noComment := by
    obtain ⟨front, rfl⟩ := suffix
    exact h.noComment.of_append

theorem Unquoted.toByteChars {cs : List Char} (h : Unquoted cs) :
    Unquoted (Text.toByteChars (String.ofList cs)) where
  noString member := h.noString (Text.mem_of_toByteChars (by decide) member)
  noCharacter member := h.noCharacter (Text.mem_of_toByteChars (by decide) member)
  noComment := ⟨fun line => h.noComment.1 (Text.infix_of_toByteChars (by simp) line),
    fun block => h.noComment.2 (Text.infix_of_toByteChars (by simp) block)⟩

/-- A comment that ends on its line, and what stands there ends with it. -/
inductive IsComment : List Char → Prop
  | line {text : List Char} (oneLine : '\n' ∉ text) : IsComment ('/' :: '/' :: text)
  | block {text : List Char} (oneLine : '\n' ∉ text) (closes : ¬['*', '/'] <:+: text) :
    IsComment ('/' :: '*' :: (text ++ ['*', '/']))

theorem IsComment.oneLine {c : List Char} (h : IsComment c) : '\n' ∉ c := by
  cases h with
  | line oneLine => simpa using oneLine
  | block oneLine closes => simpa using oneLine

namespace Cursor

/-- A blank and white space behind it up to the end of a text. -/
structure Fades (tail : List Char) : Prop where
  head : tail.head? = some ' '
  ends : ∀ newline loc, ∃ newline' loc',
    skipTrivia newline loc .code tail = ⟨newline', none, ⟨[], loc'⟩⟩

theorem skipTrivia_lineComment {cs : List Char} (oneLine : '\n' ∉ cs) (newline : Bool)
    (loc : Location) :
    skipTrivia newline loc .lineComment cs =
      ⟨newline, none, ⟨[], cs.foldl Location.after loc⟩⟩ := by
  induction cs generalizing loc with
  | nil => rfl
  | cons c cs ih =>
      rw [List.mem_cons, not_or] at oneLine
      rw [skipTrivia, ih oneLine.2]
      · rfl
      · exact fun same => oneLine.1 same.symm

theorem skipTrivia_closedComment {cs : List Char} (closes : ¬['*', '/'] <:+: cs) (newline : Bool)
    (loc start : Location) :
    ∃ newline' loc', skipTrivia newline loc (.blockComment start) (cs ++ ['*', '/']) =
      ⟨newline', none, ⟨[], loc'⟩⟩ := by
  induction cs generalizing newline loc with
  | nil => exact ⟨newline, _, by rw [List.nil_append, skipTrivia, skipTrivia]⟩
  | cons c cs ih =>
      rw [List.cons_append, skipTrivia_blockComment]
      · exact ih (fun inside => closes (inside.trans (List.suffix_cons c cs).isInfix)) _ _
      · rintro others rfl slash
        obtain _ | ⟨d, ds⟩ := cs
        · cases slash
        · obtain ⟨rfl, -⟩ := List.cons.inj slash
          exact closes ⟨[], ds, rfl⟩

theorem fades_comment {c : List Char} (comment : IsComment c) :
    Fades (Text.toByteChars (String.ofList (' ' :: c))) := by
  rw [Text.toByteChars_ofList_ascii (by decide)]
  refine ⟨rfl, fun newline loc => ?_⟩
  rw [skipTrivia_space (by decide)]
  cases comment with
  | @line text oneLine =>
      have oneLine' : '\n' ∉ Text.toByteChars (String.ofList text) :=
        fun member => oneLine (Text.mem_of_toByteChars (by decide) member)
      rw [Text.toByteChars_ofList_ascii (by decide), Text.toByteChars_ofList_ascii (by decide),
        skipTrivia, skipTrivia_lineComment oneLine']
      exact ⟨_, _, rfl⟩
  | @block text oneLine closes =>
      have closes' : ¬['*', '/'] <:+: Text.toByteChars (String.ofList text) :=
        fun inside => closes (Text.infix_of_toByteChars (by simp) inside)
      rw [Text.toByteChars_ofList_ascii (by decide), Text.toByteChars_ofList_ascii (by decide),
        Text.toByteChars_ofList_append, @Text.toByteChars_ofList ['*', '/'] (by simp),
        skipTrivia]
      exact skipTrivia_closedComment closes' _ _ _

/-! ### Scanning in front of a comment -/

/-- A scan for white space ends at the end of a text also with `tail` behind the text, or both scans
end at a token of the text. -/
inductive EndsAlike (cs tail : List Char) : Trivia → Trivia → Prop
  | atEnd (newline newline' : Bool) (loc loc' : Location) :
    EndsAlike cs tail ⟨newline, none, ⟨[], loc⟩⟩ ⟨newline', none, ⟨[], loc'⟩⟩
  | atToken {c : Char} {rest : List Char} (newline : Bool) (loc : Location)
      (suffix : c :: rest <:+ cs) :
    EndsAlike cs tail ⟨newline, none, ⟨c :: rest, loc⟩⟩
      ⟨newline, none, ⟨c :: (rest ++ tail), loc⟩⟩

theorem EndsAlike.suffix {cs ds tail : List Char} {t t' : Trivia} (h : EndsAlike cs tail t t')
    (suffix : cs <:+ ds) : EndsAlike ds tail t t' := by
  cases h with
  | atEnd newline newline' loc loc' => exact .atEnd newline newline' loc loc'
  | atToken newline loc rest => exact .atToken newline loc (rest.trans suffix)

theorem skipTrivia_append {cs tail : List Char} (plain : NoComment cs) (fades : Fades tail)
    (newline : Bool) (loc : Location) :
    EndsAlike cs tail (skipTrivia newline loc .code cs)
      (skipTrivia newline loc .code (cs ++ tail)) := by
  have within {d : Char} {cs others : List Char} (same : cs ++ tail = d :: others)
      (notSpace : d ≠ ' ') : ∃ ds, cs = d :: ds := by
    obtain _ | ⟨e, ds⟩ := cs
    · exact absurd (Option.some.inj ((congrArg List.head? same).symm.trans fades.head)) notSpace
    · exact ⟨ds, by rw [(List.cons.inj same).1]⟩
  generalize code : TriviaState.code = st
  fun_induction skipTrivia newline loc st cs with
  | case1 newline loc =>
      obtain ⟨newline', loc', ends⟩ := fades.ends newline loc
      rw [List.nil_append, ← code, ends]
      exact .atEnd _ _ _ _
  | case2 newline loc cs ih =>
      rw [← code, List.cons_append, skipTrivia]
      exact (ih (@NoComment.of_append ['\n'] cs plain) rfl).suffix (List.suffix_cons _ _)
  | case3 newline loc cs ih =>
      rw [← code, List.cons_append, List.cons_append, skipTrivia]
      exact (ih (@NoComment.of_append ['\\', '\n'] cs plain) rfl).suffix
        (List.suffix_append ['\\', '\n'] cs)
  | case4 newline loc cs ih => exact absurd ⟨[], cs, rfl⟩ plain.1
  | case5 newline loc cs ih => exact absurd ⟨[], cs, rfl⟩ plain.2
  | case6 newline loc c cs notEnd notSplice notLine notBlock space ih =>
      rw [← code, List.cons_append, skipTrivia_space space]
      exact (ih (@NoComment.of_append [c] cs plain) rfl).suffix (List.suffix_cons _ _)
  | case7 newline loc c cs notEnd notSplice notLine notBlock dense =>
      rw [← code, List.cons_append, skipTrivia, if_neg dense]
      · exact .atToken _ _ (List.suffix_refl _)
      · exact notEnd
      · rintro others rfl splice
        obtain ⟨ds, rfl⟩ := within splice (by decide)
        exact notSplice ds rfl rfl
      · rintro others rfl slash
        obtain ⟨ds, rfl⟩ := within slash (by decide)
        exact notLine ds rfl rfl
      · rintro others rfl star
        obtain ⟨ds, rfl⟩ := within star (by decide)
        exact notBlock ds rfl rfl
  | _ => cases code

/-- What a scan gives if `tail` stands behind the text that it scans. -/
def before {α : Type} (tail : List Char) (r : α × Cursor) : α × Cursor :=
  (r.1, ⟨r.2.rest ++ tail, r.2.loc⟩)

theorem span_append {p : Char → Bool} {tail : List Char} (stops : tail.head?.any p = false)
    (loc : Location) (cs : List Char) : span p loc (cs ++ tail) = before tail (span p loc cs) := by
  induction cs generalizing loc with
  | nil =>
      show _ = before tail ([], ⟨[], loc⟩)
      obtain _ | ⟨c, tail⟩ := tail
      · rfl
      · have stop : p c = false := stops
        rw [List.nil_append, span, if_neg (Bool.eq_false_iff.mp stop)]
        rfl
  | cons c cs ih =>
      rw [List.cons_append, span, span]
      split
      · rw [ih]
        rfl
      · rfl

theorem numberSpan_append {tail : List Char} (blank : tail.head? = some ' ')
    (hex afterExponent : Bool) (loc : Location) (cs : List Char) :
    numberSpan hex afterExponent loc (cs ++ tail) =
      before tail (numberSpan hex afterExponent loc cs) := by
  induction cs generalizing afterExponent loc with
  | nil =>
      obtain ⟨tail, rfl⟩ := List.head?_eq_some_iff.mp blank
      have stops : (Text.isWordChar ' ' || ' ' == '.' ||
          (!hex && afterExponent && (' ' == '+' || ' ' == '-'))) = false := by
        cases hex <;> cases afterExponent <;> decide
      show _ = before (' ' :: tail) ([], ⟨[], loc⟩)
      rw [List.nil_append, numberSpan, if_neg (Bool.eq_false_iff.mp stops)]
      rfl
  | cons c cs ih =>
      rw [List.cons_append, numberSpan, numberSpan]
      split
      · rw [ih]
        rfl
      · rfl

theorem ofStart?_append_blank {tail : List Char} (blank : tail.head? = some ' ')
    (cs : List Char) :
    Punct.ofStart? (cs ++ tail) = (Punct.ofStart? cs).map fun r => (r.1, r.2 ++ tail) := by
  have behind {start cs : List Char} (plain : ' ' ∉ start) :
      Punct.behind? start (cs ++ tail) = (Punct.behind? start cs).map (· ++ tail) := by
    obtain ⟨tail, rfl⟩ := List.head?_eq_some_iff.mp blank
    induction start generalizing cs with
    | nil => rfl
    | cons p start ih =>
        rw [List.mem_cons, not_or] at plain
        obtain _ | ⟨c, cs⟩ := cs
        · simp [Punct.behind?, Ne.symm plain.1]
        · simp only [List.cons_append, Punct.behind?]
          split
          · exact ih plain.2
          · rfl
  have plain (p : Punct) : ' ' ∉ p.spelling.toList := by cases p <;> decide
  simp only [Punct.ofStart?, List.map_findSome?, behind (plain _), Function.comp_def,
    Option.map_map]

theorem isHex_append_blank {tail : List Char} (blank : tail.head? = some ' ') (cs : List Char) :
    isHex (cs ++ tail) = isHex cs := by
  obtain ⟨tail, rfl⟩ := List.head?_eq_some_iff.mp blank
  match cs with
  | [] => rfl
  | [c] => simp [isHex]
  | c :: d :: cs =>
      simp only [List.cons_append, isHex]
      split <;> simp_all

theorem lexeme_append {c : Char} {cs tail : List Char} (notCharacter : c ≠ '\'')
    (notString : c ≠ '"') (blank : tail.head? = some ' ') (loc : Location) :
    lexeme c (cs ++ tail) loc = before tail (lexeme c cs loc) := by
  have digit : (cs ++ tail).head?.any Char.isDigit = cs.head?.any Char.isDigit := by
    obtain ⟨tail, rfl⟩ := List.head?_eq_some_iff.mp blank
    cases cs <;> rfl
  have hex := isHex_append_blank blank (c :: cs)
  have punct := ofStart?_append_blank blank (c :: cs)
  have stops : tail.head?.any Text.isWordChar = false := by rw [blank]; decide
  have quote : (c == '\'') = false := beq_eq_false_iff_ne.mpr notCharacter
  have quotes : (c == '"') = false := beq_eq_false_iff_ne.mpr notString
  rw [List.cons_append] at hex punct
  unfold lexeme
  dsimp only
  rw [digit, hex, punct, span_append stops, numberSpan_append blank, quote, quotes]
  split
  · rfl
  · split
    · rfl
    · cases Punct.ofStart? (c :: cs) <;> rfl

theorem token?_append {c : Char} {cs tail : List Char} (notCharacter : c ≠ '\'')
    (notString : c ≠ '"') (blank : tail.head? = some ' ') (loc : Location) :
    token? ⟨c :: (cs ++ tail), loc⟩ = (token? ⟨c :: cs, loc⟩).map (before tail) := by
  unfold token?
  dsimp only
  rw [lexeme_append notCharacter notString blank]
  obtain ⟨result, next⟩ := lexeme c cs loc
  cases result <;> rfl

theorem suffix_span (p : Char → Bool) (loc : Location) (cs : List Char) :
    (span p loc cs).2.rest <:+ cs := by
  induction cs generalizing loc with
  | nil => exact List.suffix_refl _
  | cons c cs ih =>
      rw [span]
      split
      · exact (ih _).trans (List.suffix_cons c cs)
      · exact List.suffix_refl _

theorem suffix_numberSpan (hex afterExponent : Bool) (loc : Location) (cs : List Char) :
    (numberSpan hex afterExponent loc cs).2.rest <:+ cs := by
  induction cs generalizing afterExponent loc with
  | nil => exact List.suffix_refl _
  | cons c cs ih =>
      rw [numberSpan]
      split
      · exact (ih _ _).trans (List.suffix_cons c cs)
      · exact List.suffix_refl _

theorem suffix_lexeme {c : Char} {cs : List Char} (notCharacter : c ≠ '\'')
    (notString : c ≠ '"') (loc : Location) : (lexeme c cs loc).2.rest <:+ cs := by
  have quote : (c == '\'') = false := beq_eq_false_iff_ne.mpr notCharacter
  have quotes : (c == '"') = false := beq_eq_false_iff_ne.mpr notString
  unfold lexeme
  dsimp only
  rw [quote, quotes]
  split
  · exact suffix_span _ _ _
  · split
    · exact suffix_numberSpan _ _ _ _
    · rw [if_neg nofun, if_neg nofun]
      split
      case h_1 p rest found =>
        have behind : rest <:+ c :: cs := ⟨_, (spelling_of_ofStart? found).symm⟩
        refine (List.suffix_cons_iff.mp behind).resolve_left fun whole => ?_
        have shorter := Punct.length_ofStart?_lt found
        rw [whole] at shorter
        exact absurd shorter (Nat.lt_irrefl _)
      case h_2 => exact List.suffix_refl _

theorem suffix_token? {c next : Cursor} {result : Except LexFault Token}
    (noCharacter : '\'' ∉ c.rest) (noString : '"' ∉ c.rest) (h : c.token? = some (result, next)) :
    next.rest <:+ c.rest := by
  obtain ⟨_ | ⟨d, cs⟩, loc⟩ := c
  · cases h
  rw [List.mem_cons, not_or] at noCharacter noString
  have behind := @suffix_lexeme d cs (Ne.symm noCharacter.1) (Ne.symm noString.1) loc
  unfold token? at h
  dsimp only at h
  split at h
  all_goals
    cases h
    exact behind.trans (List.suffix_cons d cs)

/-- Where two scans end alike, the same token follows. -/
theorem EndsAlike.token? {cs tail : List Char} {t t' : Trivia} (h : EndsAlike cs tail t t')
    (plain : Unquoted cs) (blank : tail.head? = some ' ') :
    t.fault = none ∧ t'.fault = none ∧ t.next.rest <:+ cs ∧
      t'.next.token? = t.next.token?.map (before tail) := by
  cases h with
  | atEnd newline newline' loc loc' => exact ⟨rfl, rfl, List.nil_suffix, rfl⟩
  | @atToken c rest newline loc suffix =>
      have member : c ∈ cs := suffix.subset List.mem_cons_self
      refine ⟨rfl, rfl, suffix, token?_append ?_ ?_ blank loc⟩
      · rintro rfl
        exact plain.noCharacter member
      · rintro rfl
        exact plain.noString member

/-- White space that fades adds nothing behind a text in which no literal and no comment starts. -/
theorem lexemes_append {c : Cursor} {tail : List Char} (plain : Unquoted c.rest)
    (fades : Fades tail) : lexemes ⟨c.rest ++ tail, c.loc⟩ = c.lexemes := by
  fun_induction lexemes c with
  | case1 c f fault =>
      obtain ⟨noFault, -⟩ :=
        (skipTrivia_append plain.noComment fades false c.loc).token? plain fades.head
      cases fault.symm.trans noFault
  | case2 c noFault atEnd =>
      obtain ⟨-, noFault', -, same⟩ :=
        (skipTrivia_append plain.noComment fades false c.loc).token? plain fades.head
      refine lexemes_of_end noFault' (same.trans ?_)
      exact congrArg (Option.map (before tail)) atEnd
  | case3 c noFault result next scan _ _ ih =>
      obtain ⟨-, noFault', within, same⟩ :=
        (skipTrivia_append plain.noComment fades false c.loc).token? plain fades.head
      have behind := suffix_token? (fun member => plain.noCharacter (within.subset member))
        (fun member => plain.noString (within.subset member)) scan
      rw [← ih (plain.suffix (behind.trans within))]
      refine lexemes_of_token? noFault' (same.trans ?_)
      exact congrArg (Option.map (before tail)) scan

end Cursor

/-- A comment behind a text adds nothing to its tokens and errors. -/
theorem ScannedLine.ofText_comment {text c : List Char} (plain : Unquoted text)
    (comment : IsComment c) (loc : Location) :
    ScannedLine.ofText (text ++ ' ' :: c) loc = ScannedLine.ofText text loc := by
  have same := Cursor.lexemes_append (c := Cursor.ofText (String.ofList text) loc)
    plain.toByteChars (Cursor.fades_comment comment)
  unfold ScannedLine.ofText
  rw [Cursor.ofText, Text.toByteChars_ofList_append]
  dsimp only [Cursor.ofText] at same ⊢
  rw [same]

end LiveC

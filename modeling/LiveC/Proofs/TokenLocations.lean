import Mathlib.Data.List.Count
import LiveC.Proofs.Sequence
import LiveC.Proofs.SourcePieces
import LiveC.Proofs.MacroExpansion

/-!
The places of tokens. A scan counts the lines and columns of all that it passes, so that whatever it
reads begins where its place says. The tokens of a source come from uses, each spelled at its own
place: a use of a macro gives tokens that all stand there, another one gives itself.
-/

namespace LiveC

/-! ### Places in a text -/

namespace Location

/-- One place is further up than another, or further left on its line. -/
def Before (a b : Location) : Prop := a.line < b.line ∨ a.line = b.line ∧ a.column < b.column

/-- The place of an offset: the line ends in front of it are counted, and what stands behind the
last of them. -/
def ofOffset (text : List Char) (n : Nat) : Location :=
  ⟨1 + (text.take n).count '\n', 1 + ((text.take n).reverse.takeWhile (· != '\n')).length⟩

variable {text : List Char} {m n : Nat} {a b c : Location}

theorem Before.trans (h : a.Before b) (h' : b.Before c) : a.Before c := by
  simp only [Before] at *
  omega

theorem Before.asymm (h : a.Before b) : ¬b.Before a := by
  simp only [Before] at *
  omega

theorem Before.ne (h : a.Before b) : a ≠ b := by
  rintro rfl
  exact h.asymm h

theorem before_after (loc : Location) (c : Char) : loc.Before (loc.after c) := by
  unfold after
  split
  · exact .inl (Nat.lt_succ_self _)
  · exact .inr ⟨rfl, Nat.lt_succ_self _⟩

theorem ofOffset_succ (h : n < text.length) :
    ofOffset text (n + 1) = (ofOffset text n).after text[n] := by
  rw [ofOffset, List.take_succ_eq_append_getElem h, List.reverse_append, List.reverse_singleton,
    List.singleton_append, List.count_append, List.count_singleton, List.takeWhile_cons, after]
  by_cases newline : text[n] = '\n'
  · simp [newline, ofOffset, Nat.add_assoc]
  · simp [newline, ofOffset, Nat.add_assoc]

theorem before_ofOffset (h : m < n) (inside : n ≤ text.length) :
    (ofOffset text m).Before (ofOffset text n) := by
  induction n, h using Nat.le_induction with
  | base => exact ofOffset_succ inside ▸ before_after _ _
  | succ n _ ih =>
      exact (ih (Nat.le_of_succ_le inside)).trans (ofOffset_succ inside ▸ before_after _ _)

end Location

/-! ### What a scan passes -/

namespace Cursor

/-- Going on from one cursor to another, character by character. -/
inductive Passes : Cursor → Cursor → Prop
  | here (c : Cursor) : Passes c c
  | pass {ch : Char} {cs : List Char} {loc : Location} {next : Cursor} :
      Passes ⟨cs, loc.after ch⟩ next → Passes ⟨ch :: cs, loc⟩ next

theorem Passes.trans {a b c : Cursor} (h : Passes a b) (h' : Passes b c) : Passes a c := by
  induction h with
  | here => exact h'
  | pass _ ih => exact .pass (ih h')

theorem passes_append (used rest : List Char) (loc : Location) :
    Passes ⟨used ++ rest, loc⟩ ⟨rest, used.foldl Location.after loc⟩ := by
  induction used generalizing loc with
  | nil => exact .here _
  | cons ch used ih => exact .pass (ih _)

/-- A cursor stands at an offset of a text, and has its place. -/
structure StandsAt (text : List Char) (n : Nat) (c : Cursor) : Prop where
  inside : n ≤ text.length
  rest : c.rest = text.drop n
  loc : c.loc = .ofOffset text n

theorem StandsAt.length {text : List Char} {n : Nat} {c : Cursor} (h : c.StandsAt text n) :
    n + c.rest.length = text.length := by
  have inside := h.inside
  rw [h.rest, List.length_drop]
  omega

theorem StandsAt.passes {text : List Char} {n : Nat} {c next : Cursor} (h : c.StandsAt text n)
    (passes : Passes c next) : ∃ m, n ≤ m ∧ next.StandsAt text m := by
  induction passes generalizing n with
  | here => exact ⟨n, Nat.le_refl n, h⟩
  | @pass ch cs loc next _ ih =>
      have more : n < text.length := by
        have length := h.length
        rw [List.length_cons] at length
        omega
      have split := h.rest
      rw [List.drop_eq_getElem_cons more] at split
      obtain ⟨rfl, rfl⟩ := List.cons.inj split
      have place : loc.after text[n] = .ofOffset text (n + 1) := by
        rw [Location.ofOffset_succ more]
        exact congrArg (Location.after · _) h.loc
      obtain ⟨m, further, stands⟩ := ih ⟨more, rfl, place⟩
      exact ⟨m, Nat.le_of_succ_le further, stands⟩

/-! ### The scans -/

theorem span_passes (p : Char → Bool) (loc : Location) (cs : List Char) :
    Passes ⟨cs, loc⟩ (span p loc cs).2 := by
  fun_induction span p loc cs with
  | case1 => exact .here _
  | case2 loc c cs _ run next scan ih =>
      rw [scan] at ih
      exact .pass ih
  | case3 => exact .here _

theorem numberSpan_passes (hex afterExponent : Bool) (loc : Location) (cs : List Char) :
    Passes ⟨cs, loc⟩ (numberSpan hex afterExponent loc cs).2 := by
  fun_induction numberSpan hex afterExponent loc cs with
  | case1 => exact .here _
  | case2 _ loc c cs _ run next scan ih =>
      rw [scan] at ih
      exact .pass ih
  | case3 => exact .here _

theorem octalDigits_passes (n acc : Nat) (loc : Location) (cs : List Char) :
    Passes ⟨cs, loc⟩ (octalDigits n acc loc cs).2 := by
  fun_induction octalDigits n acc loc cs with
  | case1 | case2 | case4 => exact .here _
  | case3 _ _ _ _ _ _ _ ih => exact .pass ih

theorem hexDigits_passes (acc : Nat) (loc : Location) (cs : List Char) :
    Passes ⟨cs, loc⟩ (hexDigits acc loc cs).2 := by
  fun_induction hexDigits acc loc cs with
  | case1 | case3 => exact .here _
  | case2 _ _ _ _ _ _ ih => exact .pass ih

theorem escape_passes (loc : Location) (cs : List Char) :
    Passes ⟨cs, loc⟩ (escape loc cs).2 := by
  cases cs with
  | nil => exact .here _
  | cons c cs =>
      refine .pass ?_
      simp only [escape]
      split
      case h_1 => exact .here _
      case h_2 => exact octalDigits_passes _ _ _ _
      case h_3 =>
        split
        · split <;> exact hexDigits_passes _ _ _
        · exact .here _

theorem passQuote_passes (c : Cursor) : Passes c c.passQuote := by
  obtain ⟨rest, loc⟩ := c
  unfold passQuote
  split
  case h_1 cs same =>
    obtain rfl : rest = _ := same
    exact .pass (.here _)
  case h_2 => exact .here _

theorem closeCharacter_passes (value : UInt8) (c : Cursor) :
    Passes c (closeCharacter value c).2 := by
  unfold closeCharacter
  split
  · exact passQuote_passes c
  · exact (span_passes _ _ _).trans (passQuote_passes _)

theorem character_passes (loc : Location) (cs : List Char) :
    Passes ⟨cs, loc⟩ (character loc cs).2 := by
  unfold character
  split
  case h_1 => exact .here _
  case h_2 | h_3 => exact .pass (.here _)
  case h_4 cs =>
    have escaped := escape_passes (loc.after '\\') cs
    split
    case h_1 read =>
      rw [read] at escaped
      exact .pass (escaped.trans (closeCharacter_passes _ _))
    case h_2 read =>
      rw [read] at escaped
      exact .pass escaped
  case h_5 => exact .pass (closeCharacter_passes _ _)

theorem string_passes (acc : List UInt8) (loc : Location) (cs : List Char) :
    Passes ⟨cs, loc⟩ (string acc loc cs).2 := by
  fun_induction string acc loc cs with
  | case1 => exact .here _
  | case2 | case3 => exact .pass (.here _)
  | case4 acc loc cs b next escaped _ ih =>
      have first := escape_passes (loc.after '\\') cs
      rw [escaped] at first
      exact .pass (first.trans ih)
  | case5 acc loc cs e next escaped =>
      have first := escape_passes (loc.after '\\') cs
      rw [escaped] at first
      exact .pass first
  | case6 _ _ _ _ _ _ _ ih => exact .pass ih

theorem lexeme_passes (c : Char) (cs : List Char) (loc : Location) :
    Passes ⟨c :: cs, loc⟩ (lexeme c cs loc).2 := by
  unfold lexeme
  dsimp only
  split
  · exact .pass (span_passes _ _ _)
  · split
    · exact .pass (numberSpan_passes _ _ _ _)
    · split
      · exact .pass (character_passes _ _)
      · split
        · exact .pass (string_passes _ _ _)
        · split
          case h_1 p rest found =>
            rw [spelling_of_ofStart? found]
            exact passes_append _ _ _
          case h_2 => exact .pass (.here _)

theorem token?_passes {c next : Cursor} {result : Except LexFault Token}
    (h : c.token? = some (result, next)) : Passes c next := by
  obtain ⟨rest, loc⟩ := c
  cases rest with
  | nil => cases h
  | cons ch cs =>
      have passes := lexeme_passes ch cs loc
      simp only [token?] at h
      split at h <;> cases h <;> exact passes

theorem skipTrivia_passes (newline : Bool) (loc : Location) (st : TriviaState) (cs : List Char) :
    Passes ⟨cs, loc⟩ (skipTrivia newline loc st cs).next := by
  fun_induction skipTrivia newline loc st cs with
  | case1 | case7 | case8 | case11 => exact .here _
  | case2 _ _ _ ih | case6 _ _ _ _ _ _ _ _ _ ih | case9 _ _ _ ih | case10 _ _ _ _ _ ih
  | case13 _ _ _ _ _ _ ih => exact .pass ih
  | case3 _ _ _ ih | case4 _ _ _ ih | case5 _ _ _ ih | case12 _ _ _ _ ih => exact .pass (.pass ih)

theorem trivia_passes (c : Cursor) : Passes c c.trivia.next := skipTrivia_passes _ _ _ _

theorem restOfLine_passes (loc : Location) (cs : List Char) :
    Passes ⟨cs, loc⟩ (restOfLine loc cs).2 := by
  fun_induction restOfLine loc cs with
  | case1 | case2 => exact .here _
  | case3 loc cs line next read ih =>
      rw [read] at ih
      exact .pass (.pass ih)
  | case4 loc c cs _ _ line next read ih =>
      rw [read] at ih
      exact .pass ih

/-- Passing a number sign and the line behind it. -/
theorem line_passes {c : Cursor} (sign : c.rest.head? = some '#') :
    Passes c (restOfLine (c.loc.after '#') c.rest.tail).2 := by
  obtain ⟨rest, loc⟩ := c
  obtain ⟨body, rfl⟩ := List.head?_eq_some_iff.mp sign
  exact .pass (restOfLine_passes _ _)

/-- A comment without end reaches to the end of the text. -/
theorem rest_eq_nil_of_fault {newline : Bool} {loc : Location} {st : TriviaState}
    {cs : List Char} {f : LexFault} (h : (skipTrivia newline loc st cs).fault = some f) :
    (skipTrivia newline loc st cs).next.rest = [] := by
  fun_induction skipTrivia newline loc st cs with
  | case1 | case7 | case8 => cases h
  | case11 => rfl
  | case2 _ _ _ ih | case3 _ _ _ ih | case4 _ _ _ ih | case5 _ _ _ ih | case6 _ _ _ _ _ _ _ _ _ ih
  | case9 _ _ _ ih | case10 _ _ _ _ _ ih | case12 _ _ _ _ ih | case13 _ _ _ _ _ _ ih =>
      exact ih h

/-! ### Spelling -/

theorem span_append_rest (p : Char → Bool) (loc : Location) (cs : List Char) :
    (span p loc cs).1 ++ (span p loc cs).2.rest = cs := by
  fun_induction span p loc cs with
  | case1 | case3 => rfl
  | case2 loc c cs _ run next scan ih =>
      rw [scan] at ih
      exact congrArg (c :: ·) ih

theorem numberSpan_append_rest (hex afterExponent : Bool) (loc : Location) (cs : List Char) :
    (numberSpan hex afterExponent loc cs).1 ++ (numberSpan hex afterExponent loc cs).2.rest =
      cs := by
  fun_induction numberSpan hex afterExponent loc cs with
  | case1 | case3 => rfl
  | case2 _ loc c cs _ run next scan ih =>
      rw [scan] at ih
      exact congrArg (c :: ·) ih

theorem Passes.split {c next : Cursor} (h : Passes c next) : ∃ used, c.rest = used ++ next.rest := by
  induction h with
  | here => exact ⟨[], rfl⟩
  | @pass ch cs loc next _ ih =>
      obtain ⟨used, split⟩ := ih
      exact ⟨ch :: used, congrArg (ch :: ·) split⟩

end Cursor

/-- The text that a token is spelled with. The value of a number is that of its text; other
constants stand between quotes. -/
def TokenKind.IsSpelled (kind : TokenKind) (cs : List Char) : Prop :=
  match kind with
  | .ident name => cs = name.toList
  | .keyword kw => cs = kw.spelling.toList
  | .punct p => cs = p.spelling.toList
  | .int .. | .float _ => Cursor.number cs = .ok kind
  | .char _ => ∃ body, cs = '\'' :: body ++ ['\'']
  | .str _ => ∃ body, cs = '"' :: body ++ ['"']
  | .eof => cs = []

namespace Cursor

variable {c : Char} {cs : List Char} {loc : Location} {kind : TokenKind} {next : Cursor}

theorem isSpelled_word (cs : List Char) : (word (String.ofList cs)).IsSpelled cs := by
  unfold word
  split
  case h_1 kw found =>
    have same := List.find?_some found
    rw [beq_iff_eq] at same
    simp only [TokenKind.IsSpelled, same, String.toList_ofList]
  case h_2 => exact String.toList_ofList.symm

theorem float_of_floating (h : floating cs = .ok kind) : ∃ value, kind = .float value := by
  unfold floating at h
  dsimp only at h
  split at h <;> cases h
  exact ⟨_, rfl⟩

theorem int_of_integer (h : integer cs = .ok kind) :
    ∃ value unsigned long decimal, kind = .int value unsigned long decimal := by
  have stands (digits : List Char × Nat) {text : String} {unsigned long : Bool}
      (h : (if digits.1.isEmpty then .error (.invalidInteger text)
        else (digitsValue digits.2 text 0 digits.1).map
          (TokenKind.int · unsigned long (digits.2 == 10))) = Except.ok kind) :
      ∃ value unsigned long decimal, kind = .int value unsigned long decimal := by
    split at h
    · cases h
    · cases read : digitsValue digits.2 text 0 digits.1 with
      | error e => cases (read ▸ h :)
      | ok value =>
          cases (read ▸ h :)
          exact ⟨value, unsigned, long, _, rfl⟩
  unfold integer at h
  dsimp only at h
  split at h
  case h_1 => cases h
  case h_2 => exact stands _ h

theorem isSpelled_number (h : number cs = .ok kind) : kind.IsSpelled cs := by
  have value := h
  unfold number at value
  split at value
  · obtain ⟨v, rfl⟩ := float_of_floating value
    exact h
  · obtain ⟨v, unsigned, long, decimal, rfl⟩ := int_of_integer value
    exact h

theorem closed_of_closeCharacter {value : UInt8} {c : Cursor}
    (h : closeCharacter value c = (.ok kind, next)) :
    (∃ v, kind = .char v) ∧ c.rest = '\'' :: next.rest := by
  obtain ⟨rest, loc⟩ := c
  unfold closeCharacter at h
  split at h
  case isTrue quote =>
    obtain ⟨others, rfl⟩ := List.head?_eq_some_iff.mp quote
    cases h
    exact ⟨⟨_, rfl⟩, rfl⟩
  case isFalse => cases h

theorem closed_of_character (h : character loc cs = (.ok kind, next)) :
    (∃ v, kind = .char v) ∧ ∃ body, cs = body ++ '\'' :: next.rest := by
  unfold character at h
  split at h
  case h_1 | h_2 | h_3 => cases h
  case h_4 cs =>
    have escaped := escape_passes (loc.after '\\') cs
    split at h
    case h_2 => cases h
    case h_1 read =>
      rw [read] at escaped
      obtain ⟨isChar, closed⟩ := closed_of_closeCharacter h
      obtain ⟨body, split⟩ := escaped.split
      exact ⟨isChar, '\\' :: body, congrArg ('\\' :: ·) (split.trans (congrArg (body ++ ·) closed))⟩
  case h_5 c cs _ _ _ =>
    obtain ⟨isChar, closed⟩ := closed_of_closeCharacter h
    exact ⟨isChar, [c], congrArg (c :: ·) closed⟩

theorem closed_of_string {acc : List UInt8} (h : string acc loc cs = (.ok kind, next)) :
    (∃ bytes, kind = .str bytes) ∧ ∃ body, cs = body ++ '"' :: next.rest := by
  fun_induction string acc loc cs with
  | case1 | case2 | case5 => cases h
  | case3 =>
      cases h
      exact ⟨⟨_, rfl⟩, [], rfl⟩
  | case4 acc loc cs b between escaped _ ih =>
      have first := escape_passes (loc.after '\\') cs
      rw [escaped] at first
      obtain ⟨front, split⟩ := first.split
      obtain ⟨isString, body, closed⟩ := ih h
      refine ⟨isString, '\\' :: (front ++ body), ?_⟩
      rw [List.cons_append, List.append_assoc, ← closed]
      exact congrArg ('\\' :: ·) split
  | case6 acc loc c cs _ _ _ ih =>
      obtain ⟨isString, body, closed⟩ := ih h
      exact ⟨isString, c :: body, congrArg (c :: ·) closed⟩

theorem loc_of_token? {c : Cursor} {t : Token} (h : c.token? = some (.ok t, next)) :
    t.loc = c.loc := by
  unfold token? at h
  split at h
  case h_1 => cases h
  case h_2 =>
    dsimp only at h
    split at h <;> cases h
    rfl

/-- A token is spelled by what its scan passes. -/
theorem isSpelled_of_lexeme (h : lexeme c cs loc = (.ok kind, next)) :
    ∃ used, c :: cs = used ++ next.rest ∧ kind.IsSpelled used := by
  unfold lexeme at h
  dsimp only at h
  split at h
  case isTrue =>
    cases h
    exact ⟨_, congrArg (c :: ·) (span_append_rest ..).symm, isSpelled_word _⟩
  case isFalse =>
    split at h
    case isTrue =>
      obtain ⟨read, rfl⟩ := Prod.mk.inj h
      exact ⟨_, congrArg (c :: ·) (numberSpan_append_rest ..).symm, isSpelled_number read⟩
    case isFalse =>
      split at h
      case isTrue quote =>
        obtain rfl := eq_of_beq quote
        obtain ⟨⟨v, rfl⟩, body, rfl⟩ := closed_of_character h
        exact ⟨'\'' :: body ++ ['\''], by simp, body, rfl⟩
      case isFalse =>
        split at h
        case isTrue quotes =>
          obtain rfl := eq_of_beq quotes
          obtain ⟨⟨bytes, rfl⟩, body, rfl⟩ := closed_of_string h
          exact ⟨'"' :: body ++ ['"'], by simp, body, rfl⟩
        case isFalse =>
          split at h
          case h_1 p rest found =>
            cases h
            exact ⟨_, spelling_of_ofStart? found, rfl⟩
          case h_2 => cases h

end Cursor

/-! ### Directives -/

namespace PreprocState

/-- A directive gives no tokens. -/
theorem directive_tokens (st : PreprocState) (line : List Char) (loc : Location) :
    (st.directive line loc).2.tokens = [] := by
  have ifCondition (rest : List Char) (restLoc : Location) :
      (st.ifCondition rest restLoc).2.tokens = [] := by
    unfold ifCondition
    split <;> rfl
  have elif (rest : List Char) (restLoc : Location) :
      (st.elif rest loc restLoc).2.tokens = [] := by
    unfold elif
    split
    · rfl
    · split
      · rfl
      · split <;> rfl
  have elseBranch : (st.elseBranch loc).2.tokens = [] := by
    unfold elseBranch
    split
    · rfl
    · split <;> rfl
  have endif : (st.endif loc).2.tokens = [] := by
    unfold endif
    split <;> rfl
  have define (rest : List Char) (restLoc : Location) :
      (st.define rest restLoc).2.tokens = [] := by
    unfold define
    dsimp only
    split
    · rfl
    · split <;> rfl
  have either {p : Prop} [Decidable p] {r r' : PreprocState × PreprocOutput}
      (h : r.2.tokens = []) (h' : r'.2.tokens = []) : (if p then r else r').2.tokens = [] := by
    split <;> assumption
  unfold directive
  exact either rfl <| either rfl <| either (ifCondition _ _) <| either (elif _ _) <|
    either elseBranch <| either endif <| either rfl <| either rfl <| either (define _ _) <|
    either rfl <| either rfl <| either rfl <| either rfl rfl

end PreprocState

/-! ### Uses -/

/-- A token that is read where text is kept, with the offsets between which it is spelled and the
macros that are defined there. -/
structure TokenUse where
  start : Nat
  stop : Nat
  token : Token
  macros : MacroTable

namespace TokenUse

/-- What a use gives. -/
def tokens (u : TokenUse) : List Token := u.macros.expand u.token.loc u.token.kind

/-- The token is the name of a macro. -/
def IsMacro (u : TokenUse) : Prop :=
  ∃ name, u.token.kind = .ident name ∧ u.macros.contains name = true

/-- A use is spelled at its place in a text. -/
structure IsIn (u : TokenUse) (text : List Char) : Prop where
  nonempty : u.start < u.stop
  inside : u.stop ≤ text.length
  place : u.token.loc = .ofOffset text u.start
  spelled : u.token.kind.IsSpelled ((text.drop u.start).take (u.stop - u.start))
  scanned : Cursor.token? ⟨text.drop u.start, .ofOffset text u.start⟩ =
    some (.ok u.token, ⟨text.drop u.stop, .ofOffset text u.stop⟩)

/-- A use is one of the pieces of a source, where text is kept and its macros are defined. -/
def IsKept (u : TokenUse) (st : PreprocState) (pieces : List SourcePiece) : Prop :=
  ∃ before after, pieces = before ++ .lexeme (.ok u.token) :: after ∧
    (st.pieces before).1.active = true ∧ (st.pieces before).1.macros = u.macros

theorem IsKept.cons {u : TokenUse} {st : PreprocState} {p : SourcePiece} {ps : List SourcePiece}
    (h : u.IsKept (st.piece p).1 ps) : u.IsKept st (p :: ps) := by
  obtain ⟨before, after, split, active, same⟩ := h
  exact ⟨p :: before, after, congrArg (p :: ·) split, active, same⟩

theorem tokens_of_not_isMacro {u : TokenUse} (h : ¬u.IsMacro) : u.tokens = [u.token] := by
  have unopened : u.macros.opened? [] u.token.kind = none := by
    unfold MacroTable.opened?
    split
    case h_2 => rfl
    case h_1 name same =>
      have undefined : u.macros.find? name = none := by
        rw [← Option.not_isSome_iff_eq_none]
        exact fun isMacro => h ⟨name, same, isMacro⟩
      rw [if_neg (List.not_mem_nil), undefined]
      rfl
  exact MacroTable.expand_of_not_opened? unopened

theorem loc_of_mem_tokens {u : TokenUse} {t : Token} (h : t ∈ u.tokens) : t.loc = u.token.loc := by
  obtain ⟨out, -, -, same⟩ := u.macros.rescans_expand u.token.loc [] u.token.kind
  change u.tokens = _ at same
  rw [same] at h
  obtain ⟨_, -, rfl⟩ := List.mem_map.mp h
  rfl

end TokenUse

/-- A token that is scanned at a cursor of a text is spelled there. -/
theorem TokenUse.isIn_of_token? {text : List Char} {n m : Nat} {c next : Cursor} {t : Token}
    (here : c.StandsAt text n) (there : next.StandsAt text m)
    (h : c.token? = some (.ok t, next)) (macros : MacroTable) :
    (TokenUse.mk n m t macros).IsIn text := by
  obtain ⟨ch, cs, split, read⟩ := Cursor.lexeme_of_token? h
  obtain ⟨used, spelling, spelled⟩ := Cursor.isSpelled_of_lexeme read
  have shorter := Cursor.length_token?_lt h
  have lengthHere := here.length
  have lengthThere := there.length
  rw [← split] at spelling
  have length : used.length = m - n := by
    have all := congrArg List.length spelling
    rw [List.length_append] at all
    omega
  have nonempty : n < m := by omega
  obtain ⟨rest, loc⟩ := c
  obtain ⟨rest', loc'⟩ := next
  obtain ⟨inside, rfl, rfl⟩ := here
  obtain ⟨inside', rfl, rfl⟩ := there
  refine ⟨nonempty, inside', Cursor.loc_of_token? h, ?_, h⟩
  dsimp only at spelling ⊢
  rw [spelling, ← length, List.take_left]
  exact spelled

/-! ### The uses of a source -/

namespace PreprocState

/-- A piece gives tokens only where it is a token, and text is kept. -/
theorem piece_tokens (st : PreprocState) (p : SourcePiece) :
    (∃ t, p = .lexeme (.ok t) ∧ st.active = true ∧
      (st.piece p).2.tokens = st.macros.expand t.loc t.kind) ∨ (st.piece p).2.tokens = [] := by
  cases p with
  | directive d => exact .inr (st.directive_tokens d.text d.loc)
  | comment f => exact .inr rfl
  | lexeme result =>
      unfold piece lexeme
      cases active : st.active with
      | false => exact .inr rfl
      | true =>
          cases result with
          | ok t => exact .inl ⟨t, rfl, rfl, rfl⟩
          | error f => exact .inr rfl

/-- The tokens that pieces give come from uses in a text, behind an offset and behind each other. -/
def GivesUses (st : PreprocState) (text : List Char) (n : Nat) (pieces : List SourcePiece) : Prop :=
  ∃ uses : List TokenUse, (st.pieces pieces).2.tokens = uses.flatMap TokenUse.tokens ∧
    (∀ u ∈ uses, n ≤ u.start ∧ u.IsIn text ∧ u.IsKept st pieces) ∧
    uses.Pairwise fun u v => u.stop ≤ v.start

variable {st : PreprocState} {text : List Char} {n m m' : Nat} {p : SourcePiece}
  {ps : List SourcePiece}

theorem givesUses_of_noTokens (h : (st.pieces ps).2.tokens = []) : st.GivesUses text n ps :=
  ⟨[], h, List.forall_mem_nil _, .nil⟩

/-- A piece in front adds the use that it is, if it gives tokens. -/
theorem GivesUses.cons (h : (st.piece p).1.GivesUses text m' ps) (further : n ≤ m)
    (further' : m ≤ m')
    (own : ∀ t, p = .lexeme (.ok t) → ∀ macros, (TokenUse.mk m m' t macros).IsIn text) :
    st.GivesUses text n (p :: ps) := by
  obtain ⟨uses, tokens, each, apart⟩ := h
  have behind : ∀ u ∈ uses, n ≤ u.start ∧ u.IsIn text ∧ u.IsKept st (p :: ps) := by
    intro u member
    obtain ⟨place, isIn, kept⟩ := each u member
    exact ⟨by omega, isIn, kept.cons⟩
  have split : (st.pieces (p :: ps)).2.tokens =
      (st.piece p).2.tokens ++ uses.flatMap TokenUse.tokens := by
    rw [← tokens]
    rfl
  obtain ⟨t, rfl, active, given⟩ | nothing := st.piece_tokens p
  · refine ⟨⟨m, m', t, st.macros⟩ :: uses, ?_, ?_, ?_⟩
    · rw [split, given]
      rfl
    · exact List.forall_mem_cons.mpr
        ⟨⟨further, own t rfl st.macros, [], ps, rfl, active, rfl⟩, behind⟩
    · exact List.pairwise_cons.mpr ⟨fun u member => (each u member).1, apart⟩
  · exact ⟨uses, by rw [split, nothing, List.nil_append], behind, apart⟩

/-- A text is cut up to its end, and its pieces give the tokens of uses in it. -/
theorem cut_givesUses (st : PreprocState) (lineStart : Bool) {c : Cursor} (h : c.StandsAt text n) :
    (c.cut lineStart).stop = .ofOffset text text.length ∧
      st.GivesUses text n (c.cut lineStart).pieces := by
  have atEnd {c : Cursor} {m : Nat} (h : c.StandsAt text m) (nothing : c.rest = []) :
      c.loc = .ofOffset text text.length := by
    have length := h.length
    rw [nothing] at length
    exact h.loc.trans (congrArg _ length)
  fun_induction Cursor.cut lineStart c generalizing st n
  case case1 c start f fault =>
    obtain ⟨m, -, stands⟩ := h.passes c.trivia_passes
    exact ⟨atEnd stands (Cursor.rest_eq_nil_of_fault fault), givesUses_of_noTokens rfl⟩
  case case2 c start noFault nothing =>
    obtain ⟨m, -, stands⟩ := h.passes c.trivia_passes
    exact ⟨atEnd stands (Cursor.rest_eq_nil_of_token? nothing), givesUses_of_noTokens rfl⟩
  case case3 c start noFault result next scan sign line ih =>
    obtain ⟨m, further, stands⟩ := h.passes c.trivia_passes
    obtain ⟨m', further', stands'⟩ := stands.passes (Cursor.line_passes sign.1)
    obtain ⟨stop, others⟩ := ih _ stands'
    exact ⟨stop, others.cons further further' (by rintro t ⟨⟩)⟩
  case case4 c noFault result next scan noSign ih =>
    obtain ⟨m, further, stands⟩ := h.passes c.trivia_passes
    obtain ⟨m', further', stands'⟩ := stands.passes (Cursor.token?_passes scan)
    obtain ⟨stop, others⟩ := ih st stands'
    refine ⟨stop, GivesUses.cons (p := .lexeme result) others further further' ?_⟩
    rintro t ⟨⟩ macros
    exact TokenUse.isIn_of_token? stands stands' scan macros

end PreprocState

/-! ### The tokens of a source -/

section Groups

variable {groups : List (List Token)}

/-- Groups of tokens at one place each, one further on than the other. -/
theorem pairwise_of_groups
    (within : ∀ g ∈ groups, ∀ a ∈ g, ∀ b ∈ g, a.loc = b.loc)
    (apart : groups.Pairwise fun g g' => ∀ a ∈ g, ∀ b ∈ g', a.loc.Before b.loc) :
    groups.flatten.Pairwise fun a b => a.loc.Before b.loc ∨ a.loc = b.loc := by
  refine List.pairwise_flatten.mpr ⟨fun g member => ?_, ?_⟩
  · exact List.pairwise_of_forall_mem_list fun a ha b hb => .inr (within g member a ha b hb)
  · exact apart.imp fun order a ha b hb => .inl (order a ha b hb)

/-- Where one group is further on than the other, tokens at one place lie in one group with all
that stands between them. -/
theorem infix_group_of_loc_eq {before between after : List Token} {a b : Token}
    (apart : groups.Pairwise fun g g' => ∀ a ∈ g, ∀ b ∈ g', a.loc.Before b.loc)
    (split : groups.flatten = before ++ a :: (between ++ b :: after)) (same : a.loc = b.loc) :
    ∃ g ∈ groups, a :: (between ++ [b]) <:+: g := by
  induction groups generalizing before with
  | nil => simp at split
  | cons g groups ih =>
      obtain ⟨first, apart⟩ := List.pairwise_cons.mp apart
      have behind (before : List Token)
          (split : groups.flatten = before ++ a :: (between ++ b :: after)) :
          ∃ g' ∈ g :: groups, a :: (between ++ [b]) <:+: g' := by
        obtain ⟨g', member, here⟩ := ih apart split
        exact ⟨g', List.mem_cons_of_mem _ member, here⟩
      have noneBehind (a' : a ∈ g) (b' : b ∈ groups.flatten) : False := by
        obtain ⟨g', member, b'⟩ := List.mem_flatten.mp b'
        exact (first g' member a a' b b').ne same
      rw [List.flatten_cons, List.append_eq_append_iff] at split
      obtain ⟨others, rfl, split⟩ | ⟨others, rfl, split⟩ := split
      · exact behind others split
      · cases others with
        | nil => exact behind [] split.symm
        | cons a' others =>
            obtain ⟨rfl, inner⟩ := List.cons.inj split
            have member : a ∈ before ++ a :: others := by simp
            clear split
            obtain ⟨rest, rfl, tail⟩ | ⟨rest, rfl, tail⟩ := List.append_eq_append_iff.mp inner
            · cases rest with
              | nil =>
                  rw [List.nil_append] at tail
                  exact (noneBehind member (tail ▸ List.mem_cons_self)).elim
              | cons b' rest =>
                  obtain ⟨rfl, -⟩ := List.cons.inj tail
                  exact ⟨_, List.mem_cons_self, before, rest, by simp⟩
            · refine (noneBehind member (tail ▸ ?_)).elim
              exact List.mem_append_right rest List.mem_cons_self

end Groups

/-- The end of input. -/
def Token.endOf (text : List Char) : Token := ⟨.eof, .ofOffset text text.length⟩

/-- Uses that stand one behind the other, and the end of the text, are groups apart. -/
theorem TokenUse.groups_apart {text : List Char} {uses : List TokenUse}
    (isIn : ∀ u ∈ uses, u.IsIn text) (apart : uses.Pairwise fun u v => u.stop ≤ v.start) :
    (uses.map TokenUse.tokens ++ [[Token.endOf text]]).Pairwise
      fun g g' => ∀ a ∈ g, ∀ b ∈ g', a.loc.Before b.loc := by
  refine List.pairwise_append.mpr ⟨?_, List.pairwise_singleton _ _, ?_⟩
  · refine List.pairwise_map.mpr (apart.imp_of_mem fun {u v} left right order a ha b hb => ?_)
    have place := (isIn u left).place
    have place' := (isIn v right).place
    have nonempty := (isIn u left).nonempty
    have inside := (isIn v right).inside
    have nonempty' := (isIn v right).nonempty
    rw [loc_of_mem_tokens ha, loc_of_mem_tokens hb, place, place']
    exact Location.before_ofOffset (by omega) (by omega)
  · intro g member last isLast a ha b hb
    obtain ⟨u, left, rfl⟩ := List.mem_map.mp member
    obtain rfl := List.mem_singleton.mp isLast
    obtain rfl := List.mem_singleton.mp hb
    have nonempty := (isIn u left).nonempty
    have inside := (isIn u left).inside
    rw [loc_of_mem_tokens ha, (isIn u left).place]
    exact Location.before_ofOffset (by omega) (Nat.le_refl _)

/-- The tokens of a source are those of uses, with the end of input behind them. -/
structure TokensPlaced (source : String) (st : PreprocState) (uses : List TokenUse)
    (tokens : List Token) : Prop where
  tokens_eq : tokens = uses.flatMap TokenUse.tokens ++
    [Token.endOf (Text.toByteChars source)]
  /-- Every use is spelled at its place in the source, and its macros are those defined there. -/
  isIn : ∀ u ∈ uses, u.IsIn (Text.toByteChars source)
  isKept : ∀ u ∈ uses, u.IsKept st ((Cursor.ofText source .start).cut true).pieces
  apart : uses.Pairwise fun u v => u.stop ≤ v.start
  /-- What is no macro gives itself, and a macro gives tokens at its own place. -/
  itself : ∀ u ∈ uses, ¬u.IsMacro → u.tokens = [u.token]
  atUse : ∀ u ∈ uses, ∀ t ∈ u.tokens, t.loc = u.token.loc
  ordered : tokens.Pairwise fun a b => a.loc.Before b.loc ∨ a.loc = b.loc
  /-- Tokens at one place come from one use of a macro. -/
  shared : ∀ before a between b after, tokens = before ++ a :: (between ++ b :: after) →
    a.loc = b.loc → ∃ u ∈ uses, u.IsMacro ∧ a :: (between ++ [b]) <:+: u.tokens

/-- The tokens of every accepted source have true places. -/
theorem tokenize_placed {source : String} {defines : List (String × String)} {p : Preprocessed}
    (h : tokenize source defines = .ok p) :
    ∃ uses, TokensPlaced source { macros := (predefined defines).1 } uses p.tokens := by
  have output : p.tokens = (PreprocState.run { macros := (predefined defines).1 } true
      (Cursor.ofText source .start)).tokens := by
    unfold tokenize at h
    dsimp only at h
    split at h <;> cases h
    rfl
  have atStart : (Cursor.ofText source .start).StandsAt (Text.toByteChars source) 0 :=
    ⟨Nat.zero_le _, rfl, rfl⟩
  generalize ({ macros := (predefined defines).1 } : PreprocState) = st at *
  obtain ⟨stop, uses, tokens, each, apart⟩ := st.cut_givesUses true atStart
  have isIn : ∀ u ∈ uses, u.IsIn (Text.toByteChars source) := fun u member => (each u member).2.1
  have all : p.tokens = uses.flatMap TokenUse.tokens ++
      [Token.endOf (Text.toByteChars source)] := by
    rw [output, st.run_eq_pieces, ← tokens, Token.endOf, ← stop]
    rfl
  have groups : p.tokens = (uses.map TokenUse.tokens ++
      [[Token.endOf (Text.toByteChars source)]]).flatten := by
    rw [all, List.flatten_append, List.flatMap_def, List.flatten_singleton]
  have order := TokenUse.groups_apart isIn apart
  refine ⟨uses, all, isIn, fun u member => (each u member).2.2, apart,
    fun u _ => TokenUse.tokens_of_not_isMacro, fun u _ t => TokenUse.loc_of_mem_tokens, ?_, ?_⟩
  · rw [groups]
    refine pairwise_of_groups (fun g member a ha b hb => ?_) order
    obtain member | member := List.mem_append.mp member
    · obtain ⟨u, -, rfl⟩ := List.mem_map.mp member
      exact (TokenUse.loc_of_mem_tokens ha).trans (TokenUse.loc_of_mem_tokens hb).symm
    · obtain rfl := List.mem_singleton.mp member
      rw [List.mem_singleton.mp ha, List.mem_singleton.mp hb]
  · intro before a between b after split same
    obtain ⟨g, member, between⟩ := infix_group_of_loc_eq order (groups ▸ split) same
    have length := between.length_le
    rw [List.length_cons, List.length_append, List.length_singleton] at length
    obtain member | member := List.mem_append.mp member
    · obtain ⟨u, here, rfl⟩ := List.mem_map.mp member
      refine ⟨u, here, ?_, between⟩
      by_contra noMacro
      rw [TokenUse.tokens_of_not_isMacro noMacro, List.length_singleton] at length
      omega
    · rw [List.mem_singleton.mp member, List.length_singleton] at length
      omega

theorem tokenize_placed_continuedMacro :
    let source := "#define SUM 1 \\\n + 2\n/* a\n*/ x = SUM;"
    ∃ p uses, tokenize source [] = .ok p ∧
      p.tokens.map Token.loc =
        [⟨4, 4⟩, ⟨4, 6⟩, ⟨4, 8⟩, ⟨4, 8⟩, ⟨4, 8⟩, ⟨4, 11⟩, ⟨4, 12⟩] ∧
      TokensPlaced source { macros := (predefined []).1 } uses p.tokens := by
  intro source
  have places : (tokenize source []).toOption.any (fun p => p.tokens.map Token.loc =
      [⟨4, 4⟩, ⟨4, 6⟩, ⟨4, 8⟩, ⟨4, 8⟩, ⟨4, 8⟩, ⟨4, 11⟩, ⟨4, 12⟩]) = true := by
    rw [tokenize_of_bytes (Text.toByteChars_of_all ?_)]
    all_goals decide +kernel
  obtain ⟨p, run, places⟩ := exists_of_toOption_any places
  obtain ⟨uses, placed⟩ := tokenize_placed run
  exact ⟨p, uses, run, of_decide_eq_true places, placed⟩

end LiveC

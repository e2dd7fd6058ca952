import LiveC.Parser.Source
import LiveC.Proofs.Sequence
import LiveC.Proofs.UnitGrammar

/-!
The character constants that the scanner makes are signed bytes, and its identifiers have no
dots. Directives and macros only hand tokens on, so this is so of all tokens of a source.
-/

namespace LiveC

/-- A token that the scanner makes. -/
def TokenKind.IsScanned : TokenKind → Prop
  | .char v => -128 ≤ v ∧ v < 128
  | .ident name => LiveC.IsPlain name
  | _ => True

namespace TokenKind.IsScanned

variable {kind : TokenKind}

theorem isByte (h : kind.IsScanned) : kind.IsByte := by
  cases kind with
  | char => exact h
  | _ => trivial

theorem isPlain (h : kind.IsScanned) : kind.IsPlain := by
  cases kind with
  | ident => exact h
  | _ => trivial

end TokenKind.IsScanned

namespace Cursor

variable {kind : TokenKind}

theorem closeCharacter_isScanned {value : UInt8} {next : Cursor}
    (h : (closeCharacter value next).1 = .ok kind) : kind.IsScanned := by
  unfold closeCharacter at h
  split at h
  case isFalse => cases h
  case isTrue =>
    obtain rfl := Except.ok.inj h
    have low : value.toNat < 256 := value.toNat_lt
    simp only [TokenKind.IsScanned]
    split
    case isTrue small =>
      have : value.toNat < 128 := UInt8.lt_iff_toNat_lt.mp small
      omega
    case isFalse large =>
      have : 128 ≤ value.toNat := UInt8.le_iff_toNat_le.mp (UInt8.not_lt.mp large)
      omega

theorem character_isScanned {loc : Location} {cs : List Char}
    (h : (character loc cs).1 = .ok kind) : kind.IsScanned := by
  unfold character at h
  split at h
  case h_1 | h_2 | h_3 => cases h
  case h_4 =>
    split at h
    · exact closeCharacter_isScanned h
    · cases h
  case h_5 => exact closeCharacter_isScanned h

theorem string_isScanned {acc : List UInt8} {loc : Location} {cs : List Char}
    (h : (string acc loc cs).1 = .ok kind) : kind.IsScanned := by
  fun_induction string acc loc cs with
  | case1 | case2 | case5 => cases h
  | case3 =>
      obtain rfl := Except.ok.inj h
      trivial
  | case4 _ _ _ _ _ _ _ ih | case6 _ _ _ _ _ _ _ ih => exact ih h

theorem number_isScanned {cs : List Char} (h : number cs = .ok kind) : kind.IsScanned := by
  unfold number at h
  split at h
  · unfold floating at h
    dsimp only at h
    split at h
    · obtain rfl := Except.ok.inj h
      trivial
    · cases h
  · unfold integer at h
    dsimp only at h
    split at h
    case h_1 => cases h
    case h_2 =>
      generalize (if isHex _ = true then _ else _ : List Char × Nat) = numeral at h
      split at h
      case isTrue => cases h
      case isFalse =>
        generalize digitsValue _ _ _ _ = read at h
        cases read with
        | error e => cases h
        | ok v =>
            obtain rfl := Except.ok.inj h
            trivial

theorem word_isScanned {name : String} (plain : IsPlain name) : (word name).IsScanned := by
  unfold word
  split
  · trivial
  · exact plain

theorem isWordChar_of_mem_span {loc : Location} {cs : List Char} :
    ∀ c ∈ (span Text.isWordChar loc cs).1, Text.isWordChar c = true := by
  induction cs generalizing loc with
  | nil => exact List.forall_mem_nil _
  | cons c cs ih =>
      unfold span
      split
      case isTrue isWord => exact List.forall_mem_cons.mpr ⟨isWord, ih⟩
      case isFalse => exact List.forall_mem_nil _

/-- No letter, digit or underscore is a dot. -/
theorem isPlain_ofList {c : Char} {cs : List Char} (start : Text.isWordStart c = true)
    (others : ∀ c ∈ cs, Text.isWordChar c = true) : IsPlain (String.ofList (c :: cs)) := by
  unfold IsPlain
  rw [String.toList_ofList]
  intro dot
  cases dot with
  | head => exact absurd start (by decide)
  | tail _ dot => exact absurd (others _ dot) (by decide)

/-- Only a text behind a single quote is scanned as a character. -/
theorem lexeme_isScanned {c : Char} {cs : List Char} {loc : Location}
    (h : (lexeme c cs loc).1 = .ok kind) : kind.IsScanned := by
  unfold lexeme at h
  dsimp only at h
  split at h
  case isTrue start =>
    obtain rfl := Except.ok.inj h
    exact word_isScanned (isPlain_ofList start isWordChar_of_mem_span)
  case isFalse =>
    split at h
    · exact number_isScanned h
    · split at h
      · exact character_isScanned h
      · split at h
        · exact string_isScanned h
        · split at h
          · obtain rfl := Except.ok.inj h
            trivial
          · cases h

theorem token?_isScanned {c next : Cursor} {t : Token} (h : c.token? = some (.ok t, next)) :
    t.kind.IsScanned := by
  unfold token? at h
  split at h
  case h_1 => cases h
  case h_2 ch cs _ =>
    dsimp only at h
    split at h
    case h_1 kind lexed =>
      cases h
      exact lexeme_isScanned lexed
    case h_2 => cases h

theorem lexemes_areScanned (c : Cursor) : ∀ t, Except.ok t ∈ c.lexemes → t.kind.IsScanned := by
  fun_induction lexemes c with
  | case1 | case2 => intro t member; simp at member
  | case3 c none result next scanned _ _ ih =>
      intro t member
      rcases List.mem_cons.mp member with rfl | member
      · exact token?_isScanned scanned
      · exact ih t member

end Cursor

/-- All tokens are such as the scanner makes. -/
def AreScanned (tokens : List Token) : Prop := ∀ t ∈ tokens, t.kind.IsScanned

theorem AreScanned.append {tokens others : List Token} (h : AreScanned tokens) (h' : AreScanned others) :
    AreScanned (tokens ++ others) :=
  List.forall_mem_append.mpr ⟨h, h'⟩

theorem ScannedLine.areScanned_ofText (text : List Char) (loc : Location) :
    AreScanned (ofText text loc).tokens := by
  intro t member
  obtain ⟨result, scanned, isOk⟩ := List.mem_filterMap.mp member
  cases result with
  | error e => cases isOk
  | ok u =>
      cases isOk
      exact Cursor.lexemes_areScanned _ t scanned

namespace MacroTable

variable {m : MacroTable} {name : String} {body : List Token}

/-- The bodies of macros consist of tokens that the scanner makes. -/
def HoldsScanned (m : MacroTable) : Prop := ∀ e ∈ m.entries, AreScanned e.2

theorem HoldsScanned.erase (h : m.HoldsScanned) (name : String) : (m.erase name).HoldsScanned :=
  fun e member => h e (List.mem_filter.mp member).1

theorem HoldsScanned.insert (h : m.HoldsScanned) (hb : AreScanned body) (name : String) :
    (m.insert name body).HoldsScanned :=
  List.forall_mem_cons.mpr ⟨hb, h.erase name⟩

theorem HoldsScanned.find? (h : m.HoldsScanned) (found : m.find? name = some body) : AreScanned body :=
  h _ (mem_of_lookup found)

theorem HoldsScanned.expand (h : m.HoldsScanned) (loc : Location) {kind : TokenKind}
    (hk : kind.IsScanned) : AreScanned (m.expand loc kind) := by
  fun_induction MacroTable.expand m loc kind with
  | case1 m name body found _ ih =>
      intro t member
      obtain ⟨u, inBody, member⟩ := List.mem_flatMap.mp member
      exact ih u (h.erase name) (h.find? found u inBody) t member
  | case2 | case3 => exact List.forall_mem_singleton.mpr hk

end MacroTable

namespace PreprocState

/-- What is left of a directive: macros of scanned tokens, and no tokens. -/
def Leaves (r : PreprocState × PreprocOutput) : Prop := r.1.macros.HoldsScanned ∧ r.2.tokens = []

theorem Leaves.ite {c : Prop} [Decidable c] {r r' : PreprocState × PreprocOutput}
    (h : Leaves r) (h' : Leaves r') : Leaves (if c then r else r') := by
  split
  · exact h
  · exact h'

variable {st : PreprocState} (h : st.macros.HoldsScanned)
include h

theorem ifDefined_leaves (directive : String) (expected : Bool) (rest : List Char)
    (loc restLoc : Location) : Leaves (st.ifDefined directive expected rest loc restLoc) :=
  ⟨h, rfl⟩

theorem ifCondition_leaves (rest : List Char) (loc : Location) :
    Leaves (st.ifCondition rest loc) := .ite ⟨h, rfl⟩ ⟨h, rfl⟩

theorem elif_leaves (rest : List Char) (loc restLoc : Location) :
    Leaves (st.elif rest loc restLoc) := by
  unfold elif
  split
  · exact ⟨h, rfl⟩
  · exact .ite ⟨h, rfl⟩ (.ite ⟨h, rfl⟩ ⟨h, rfl⟩)

theorem elseBranch_leaves (loc : Location) : Leaves (st.elseBranch loc) := by
  unfold elseBranch
  split
  · exact ⟨h, rfl⟩
  · exact .ite ⟨h, rfl⟩ ⟨h, rfl⟩

theorem endif_leaves (loc : Location) : Leaves (st.endif loc) := by
  unfold endif
  split <;> exact ⟨h, rfl⟩

theorem define_leaves (rest : List Char) (loc : Location) : Leaves (st.define rest loc) :=
  .ite ⟨h, rfl⟩ (.ite ⟨h, rfl⟩ ⟨h.insert (ScannedLine.areScanned_ofText _ _) _, rfl⟩)

theorem directive_leaves (line : List Char) (loc : Location) : Leaves (st.directive line loc) := by
  have unchanged (output : PreprocOutput) (none : output.tokens = []) : Leaves (st, output) :=
    ⟨h, none⟩
  unfold directive
  dsimp only
  refine .ite (ifDefined_leaves h ..) (.ite (ifDefined_leaves h ..) ?_)
  refine .ite (ifCondition_leaves h ..) (.ite (elif_leaves h ..) ?_)
  refine .ite (elseBranch_leaves h _) (.ite (endif_leaves h _) ?_)
  refine .ite ⟨h, rfl⟩ (.ite ⟨h, rfl⟩ ?_)
  refine .ite (define_leaves h ..) (.ite ⟨h.erase _, rfl⟩ ?_)
  exact .ite ⟨h, rfl⟩ (.ite ⟨h, rfl⟩ (.ite ⟨h, rfl⟩ ⟨h, rfl⟩))

theorem lexeme_areScanned {result : Except LexFault Token}
    (hr : ∀ t, result = .ok t → t.kind.IsScanned) : AreScanned (st.lexeme result).tokens := by
  unfold lexeme
  split
  case isFalse => exact List.forall_mem_nil _
  case isTrue =>
    split
    case h_1 t => exact h.expand t.loc (hr t rfl)
    case h_2 => exact List.forall_mem_nil _

theorem run_areScanned (lineStart : Bool) (c : Cursor) : AreScanned (st.run lineStart c).tokens := by
  have finished (st : PreprocState) (loc : Location) : AreScanned (st.finish loc).tokens :=
    List.forall_mem_singleton.mpr trivial
  -- The functional induction principle unfolds too much; this is the measure that `run` ends by.
  induction length : c.rest.length using Nat.strongRecOn generalizing st lineStart c with
  | ind n ih =>
      have skipped := Cursor.length_trivia_le c
      unfold run
      dsimp only
      split
      case h_1 => exact finished st _
      case h_2 =>
        split
        case h_1 => exact finished st _
        case h_2 result next scanned =>
          split
          case isTrue hash =>
            have leaves := directive_leaves h (Text.ofByteChars (Cursor.restOfLine
              (c.trivia.next.loc.after '#') c.trivia.next.rest.tail).1).toList c.trivia.next.loc
            have shorter := Cursor.length_restOfLine_tail_lt (c.trivia.next.loc.after '#') hash.1
            refine .append (leaves.2 ▸ List.forall_mem_nil _) (ih _ ?_ leaves.1 true _ rfl)
            omega
          case isFalse =>
            have shorter := Cursor.length_token?_lt scanned
            refine .append (lexeme_areScanned h fun t isOk => ?_) (ih _ ?_ h false next rfl)
            · exact Cursor.token?_isScanned (isOk ▸ scanned)
            · omega

end PreprocState

theorem predefined_holdsScanned (defines : List (String × String)) :
    (predefined defines).1.HoldsScanned := by
  unfold predefined
  refine List.foldlRecOn (motive := fun r : MacroTable × List LexFault => r.1.HoldsScanned) defines _ ?_ fun m h d _ => ?_
  · exact List.forall_mem_nil _
  · exact h.insert (ScannedLine.areScanned_ofText _ _) _

/-- The tokens of a source are such as the scanner makes. -/
theorem areScanned_of_tokenize {source : String} {defines : List (String × String)}
    {text : Preprocessed} (h : tokenize source defines = .ok text) : AreScanned text.tokens := by
  unfold tokenize at h
  dsimp only at h
  split at h
  · cases h
    exact PreprocState.run_areScanned (predefined_holdsScanned defines) true _
  · cases h

theorem AreScanned.seenTokens {tokens : List Token} (h : AreScanned tokens) :
    AreScanned (seenTokens tokens) :=
  fun t member => h t ((List.takeWhile_sublist _).subset member)

/-- The unit of a source is parsed from tokens such as the scanner makes. -/
theorem scanned_of_parseSource {source : String} {defines : List (String × String)}
    {unit : TranslationUnit} {ws : List Diagnostic}
    (h : parseSource source defines = .ok (unit, ws)) :
    ∃ tokens p, AreScanned (LiveC.seenTokens tokens) ∧ parseTokens tokens = .ok p ∧
      p.unit = unit := by
  unfold parseSource at h
  obtain ⟨text, tokenized, h⟩ := ok_of_bind h
  cases parsed : parseTokens text.tokens with
  | error e =>
      rw [parsed] at h
      cases h
  | ok p =>
      rw [parsed] at h
      cases h
      exact ⟨text.tokens, p, (areScanned_of_tokenize tokenized).seenTokens, parsed, rfl⟩

/-- All characters among tokens are bytes. -/
def AreBytes (tokens : List Token) : Prop := ∀ t ∈ tokens, t.kind.IsByte

theorem AreScanned.areBytes {tokens : List Token} (h : AreScanned tokens) : AreBytes tokens :=
  fun t member => (h t member).isByte

end LiveC

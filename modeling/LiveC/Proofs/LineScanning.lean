import LiveC.Preprocess.Tokenize

/-!
Scanning within a line. A scan that ends inside a line reads the same wherever the line stands
and whatever follows its end.
-/

namespace LiveC
namespace Cursor

/-- What may stand behind a line: a line end, or nothing. -/
def BehindLine (tail : List Char) : Prop := ∀ c ∈ tail.head?, c = '\n'

theorem behindLine_nil : BehindLine [] := nofun

theorem behindLine_newline (rest : List Char) : BehindLine ('\n' :: rest) := by
  intro c member
  cases member
  rfl

theorem BehindLine.cases {tail : List Char} (h : BehindLine tail) :
    tail = [] ∨ ∃ rest, tail = '\n' :: rest := by
  cases tail with
  | nil => exact .inl rfl
  | cons c tail =>
      obtain rfl := h c rfl
      exact .inr ⟨tail, rfl⟩

/-- A scan reads a value off a piece of a line, whose rest it leaves, wherever the line stands
and whatever follows its end. -/
def Reads {α : Type} (scan : Location → List Char → α × Cursor) (used rest : List Char) (a : α) :
    Prop :=
  ∀ loc tail, BehindLine tail →
    scan loc (used ++ rest ++ tail) = (a, ⟨rest ++ tail, used.foldl Location.after loc⟩)

theorem Reads.alone {α : Type} {scan : Location → List Char → α × Cursor} {used rest : List Char}
    {a : α} (h : Reads scan used rest a) (loc : Location) :
    scan loc (used ++ rest) = (a, ⟨rest, used.foldl Location.after loc⟩) := by
  simpa using h loc [] behindLine_nil

theorem reads_span {p : Char → Bool} (h : p '\n' = false) (cs : List Char) :
    ∃ used rest a, cs = used ++ rest ∧ Reads (span p) used rest a := by
  induction cs with
  | nil =>
      refine ⟨[], [], [], rfl, fun loc tail behind => ?_⟩
      obtain rfl | ⟨after, rfl⟩ := behind.cases
      · rfl
      · simp [span, h]
  | cons c cs ih =>
      cases hc : p c with
      | false => exact ⟨[], c :: cs, [], rfl, fun loc tail _ => by simp [span, hc]⟩
      | true =>
          obtain ⟨used, rest, a, rfl, reads⟩ := ih
          refine ⟨c :: used, rest, c :: a, rfl, fun loc tail behind => ?_⟩
          simp only [List.cons_append, span, hc, if_true, reads (loc.after c) tail behind,
            List.foldl_cons]

theorem reads_numberSpan (hex afterExponent : Bool) (cs : List Char) :
    ∃ used rest a, cs = used ++ rest ∧ Reads (numberSpan hex afterExponent) used rest a := by
  induction cs generalizing afterExponent with
  | nil =>
      refine ⟨[], [], [], rfl, fun loc tail behind => ?_⟩
      obtain rfl | ⟨after, rfl⟩ := behind.cases
      · rfl
      · have none : (Text.isWordChar '\n' || '\n' == '.' ||
            (!hex && afterExponent && ('\n' == '+' || '\n' == '-'))) = false := by
          cases hex <;> cases afterExponent <;> decide
        simp only [List.nil_append, numberSpan, none, Bool.false_eq_true, if_false, List.foldl_nil]
  | cons c cs ih =>
      cases hc : Text.isWordChar c || c == '.' ||
          (!hex && afterExponent && (c == '+' || c == '-')) with
      | false =>
          refine ⟨[], c :: cs, [], rfl, fun loc tail _ => ?_⟩
          simp only [List.nil_append, List.cons_append, numberSpan, hc, Bool.false_eq_true,
            if_false,
            List.foldl_nil]
      | true =>
          obtain ⟨used, rest, a, rfl, reads⟩ := ih (c == 'e' || c == 'E')
          refine ⟨c :: used, rest, c :: a, rfl, fun loc tail behind => ?_⟩
          simp only [List.cons_append, numberSpan, hc, if_true, reads (loc.after c) tail behind,
            List.foldl_cons]

theorem reads_octalDigits (n acc : Nat) (cs : List Char) :
    ∃ used rest a, cs = used ++ rest ∧ Reads (octalDigits n acc) used rest a := by
  induction n generalizing acc cs with
  | zero => exact ⟨[], cs, acc, rfl, fun _ _ _ => rfl⟩
  | succ n ih =>
      cases cs with
      | nil =>
          refine ⟨[], [], acc, rfl, fun loc tail behind => ?_⟩
          obtain rfl | ⟨after, rfl⟩ := behind.cases
          · rfl
          · rfl
      | cons c cs =>
          cases hc : digit? 8 c with
          | none =>
              refine ⟨[], c :: cs, acc, rfl, fun loc tail _ => ?_⟩
              simp only [List.nil_append, List.cons_append, octalDigits, hc, List.foldl_nil]
          | some d =>
              obtain ⟨used, rest, a, rfl, reads⟩ := ih (acc * 8 + d) cs
              refine ⟨c :: used, rest, a, rfl, fun loc tail behind => ?_⟩
              simp only [List.cons_append, octalDigits, hc, reads (loc.after c) tail behind,
                List.foldl_cons]

theorem reads_hexDigits (acc : Nat) (cs : List Char) :
    ∃ used rest a, cs = used ++ rest ∧ Reads (hexDigits acc) used rest a := by
  induction cs generalizing acc with
  | nil =>
      refine ⟨[], [], acc, rfl, fun loc tail behind => ?_⟩
      obtain rfl | ⟨after, rfl⟩ := behind.cases
      · rfl
      · rfl
  | cons c cs ih =>
      cases hc : digit? 16 c with
      | none =>
          refine ⟨[], c :: cs, acc, rfl, fun loc tail _ => ?_⟩
          simp only [List.nil_append, List.cons_append, hexDigits, hc, List.foldl_nil]
      | some d =>
          obtain ⟨used, rest, a, rfl, reads⟩ := ih (acc * 16 + d)
          refine ⟨c :: used, rest, a, rfl, fun loc tail behind => ?_⟩
          simp only [List.cons_append, hexDigits, hc, reads (loc.after c) tail behind,
            List.foldl_cons]

theorem reads_escape {loc : Location} {cs : List Char} {b : UInt8}
    (h : (escape loc cs).1 = .ok b) :
    ∃ used rest, cs = used ++ rest ∧ Reads escape used rest (.ok b) := by
  cases cs with
  | nil => cases h
  | cons c cs =>
      simp only [escape] at h
      split at h
      case h_1 e simple =>
        cases h
        refine ⟨[c], cs, rfl, fun loc tail _ => ?_⟩
        simp only [List.cons_append, List.nil_append, escape, simple, List.foldl_cons,
          List.foldl_nil]
      case h_2 d none octal =>
        obtain ⟨used, rest, a, rfl, reads⟩ := reads_octalDigits 2 d cs
        rw [reads.alone] at h
        cases h
        refine ⟨c :: used, rest, rfl, fun loc tail behind => ?_⟩
        simp only [List.cons_append, escape, none, octal, reads (loc.after c) tail behind,
          List.foldl_cons]
      case h_3 none octal =>
        split at h
        case isFalse => cases h
        case isTrue isX =>
          obtain ⟨used, rest, a, rfl, reads⟩ := reads_hexDigits 0 cs
          rw [reads.alone] at h
          dsimp only at h
          split at h
          case isFalse => cases h
          case isTrue shorter =>
            cases h
            refine ⟨c :: used, rest, rfl, fun loc tail behind => ?_⟩
            have shorter' : (rest ++ tail).length < (used ++ rest ++ tail).length := by
              simp only [List.length_append] at shorter ⊢
              omega
            simp only [List.cons_append, escape, none, octal, isX, if_true,
              reads (loc.after c) tail behind, shorter', List.foldl_cons]

theorem reads_closeCharacter {value : UInt8} {loc : Location} {cs : List Char} {kind : TokenKind}
    (h : (closeCharacter value ⟨cs, loc⟩).1 = .ok kind) :
    ∃ used rest, cs = used ++ rest ∧
      Reads (fun loc cs => closeCharacter value ⟨cs, loc⟩) used rest (.ok kind) := by
  unfold closeCharacter at h
  split at h
  case isFalse => cases h
  case isTrue quote =>
    cases h
    cases cs with
    | nil => cases quote
    | cons c cs =>
        cases quote
        exact ⟨['\''], cs, rfl, fun _ _ _ => rfl⟩

theorem reads_character {loc : Location} {cs : List Char} {kind : TokenKind}
    (h : (character loc cs).1 = .ok kind) :
    ∃ used rest, cs = used ++ rest ∧ Reads character used rest (.ok kind) := by
  unfold character at h
  split at h
  case h_1 | h_2 | h_3 => cases h
  case h_4 cs =>
    split at h
    case h_2 => cases h
    case h_1 value next escaped =>
      obtain ⟨used, others, rfl, reads⟩ := reads_escape (congrArg Prod.fst escaped)
      cases escaped.symm.trans (reads.alone (loc.after '\\'))
      obtain ⟨used', rest, rfl, closes⟩ := reads_closeCharacter h
      refine ⟨'\\' :: (used ++ used'), rest, by simp, fun loc tail behind => ?_⟩
      have first := reads (loc.after '\\') tail behind
      have second := closes (used.foldl Location.after (loc.after '\\')) tail behind
      simp only [List.append_assoc] at first second
      simp only [List.cons_append, List.append_assoc, character, first, second, List.foldl_cons,
        List.foldl_append]
  case h_5 c cs noEnd noQuote noEscape =>
    obtain ⟨used, rest, rfl, closes⟩ := reads_closeCharacter h
    refine ⟨c :: used, rest, rfl, fun loc tail behind => ?_⟩
    rw [List.cons_append, List.cons_append, character]
    · exact closes (loc.after c) tail behind
    · exact noEnd
    · exact noQuote
    · exact noEscape

theorem string_escape {acc : List UInt8} {loc : Location} {cs : List Char} {b : UInt8}
    {next : Cursor}
    (h : escape (loc.after '\\') cs = (.ok b, next)) :
    string acc loc ('\\' :: cs) = string (b :: acc) next.loc next.rest := by
  rw [string]
  split <;> simp_all

theorem reads_string {acc : List UInt8} {loc : Location} {cs : List Char} {kind : TokenKind}
    (h : (string acc loc cs).1 = .ok kind) :
    ∃ used rest, cs = used ++ rest ∧ Reads (string acc) used rest (.ok kind) := by
  fun_induction string acc loc cs with
  | case1 | case2 | case5 => cases h
  | case3 acc loc cs =>
      cases h
      refine ⟨['"'], cs, rfl, fun loc tail _ => ?_⟩
      simp only [List.cons_append, List.nil_append, string, List.foldl_cons, List.foldl_nil]
  | case4 acc loc cs b next escaped _ ih =>
      obtain ⟨used, others, rfl, reads⟩ := reads_escape (congrArg Prod.fst escaped)
      cases escaped.symm.trans (reads.alone (loc.after '\\'))
      obtain ⟨used', rest, rfl, reads'⟩ := ih h
      refine ⟨'\\' :: (used ++ used'), rest, by simp, fun loc tail behind => ?_⟩
      have first := reads (loc.after '\\') tail behind
      have second := reads' (used.foldl Location.after (loc.after '\\')) tail behind
      simp only [List.append_assoc] at first second
      simp only [List.cons_append, List.append_assoc, string_escape first, second, List.foldl_cons,
        List.foldl_append]
  | case6 acc loc c cs noEnd noQuote noEscape ih =>
      obtain ⟨used, rest, rfl, reads⟩ := ih h
      refine ⟨c :: used, rest, rfl, fun loc tail behind => ?_⟩
      rw [List.cons_append, List.cons_append, string]
      · exact reads (loc.after c) tail behind
      · exact noEnd
      · exact noQuote
      · exact noEscape

/-! ### Tokens -/

theorem behind?_append {start cs tail : List Char} (plain : '\n' ∉ start)
    (behind : BehindLine tail) :
    Punct.behind? start (cs ++ tail) = (Punct.behind? start cs).map (· ++ tail) := by
  induction start generalizing cs with
  | nil => rfl
  | cons p start ih =>
      rw [List.mem_cons, not_or] at plain
      cases cs with
      | nil =>
          obtain rfl | ⟨after, rfl⟩ := behind.cases
          · rfl
          · simp [Punct.behind?, Ne.symm plain.1]
      | cons c cs =>
          simp only [List.cons_append, Punct.behind?]
          split
          · exact ih plain.2
          · rfl

theorem ofStart?_append (cs : List Char) {tail : List Char} (behind : BehindLine tail) :
    Punct.ofStart? (cs ++ tail) = (Punct.ofStart? cs).map fun r => (r.1, r.2 ++ tail) := by
  have plain (p : Punct) : '\n' ∉ p.spelling.toList := by cases p <;> decide
  simp only [Punct.ofStart?, List.map_findSome?, behind?_append (plain _) behind,
    Function.comp_def, Option.map_map]

theorem spelling_of_ofStart? {cs rest : List Char} {p : Punct}
    (h : Punct.ofStart? cs = some (p, rest)) : cs = p.spelling.toList ++ rest := by
  obtain ⟨q, -, found⟩ := List.exists_of_findSome?_eq_some h
  obtain ⟨others, behind, same⟩ := Option.map_eq_some_iff.mp found
  cases same
  exact Punct.behind?_eq_some_iff.mp behind

theorem digitAhead_append (cs : List Char) {tail : List Char} (behind : BehindLine tail) :
    (cs ++ tail).head?.any Char.isDigit = cs.head?.any Char.isDigit := by
  cases cs with
  | cons => rfl
  | nil =>
      obtain rfl | ⟨after, rfl⟩ := behind.cases
      · rfl
      · rfl

theorem isHex_append (cs : List Char) {tail : List Char} (behind : BehindLine tail) :
    isHex (cs ++ tail) = isHex cs := by
  match cs with
  | [] =>
      obtain rfl | ⟨after, rfl⟩ := behind.cases
      · rfl
      · rfl
  | [c] =>
      obtain rfl | ⟨after, rfl⟩ := behind.cases
      · rfl
      · simp [isHex]
  | c :: d :: cs =>
      simp only [List.cons_append, isHex]
      split <;> simp_all

/-- A token that ends in a line is read the same wherever the line stands and whatever follows
its end. -/
theorem reads_lexeme {loc : Location} {c : Char} {cs : List Char} {kind : TokenKind}
    (h : (lexeme c cs loc).1 = .ok kind) :
    ∃ used rest, cs = used ++ rest ∧ ∀ loc tail, BehindLine tail →
      lexeme c (used ++ rest ++ tail) loc =
        (.ok kind, ⟨rest ++ tail, (c :: used).foldl Location.after loc⟩) := by
  unfold lexeme at h
  dsimp only at h
  split at h
  case isTrue isWord =>
    obtain ⟨used, rest, a, rfl, reads⟩ := reads_span (p := Text.isWordChar) (by decide) cs
    rw [reads.alone] at h
    cases h
    refine ⟨used, rest, rfl, fun loc tail behind => ?_⟩
    simp only [lexeme, isWord, if_true, reads (loc.after c) tail behind, List.foldl_cons]
  case isFalse notWord =>
    split at h
    case isTrue isNumber =>
      obtain ⟨used, rest, a, rfl, reads⟩ := reads_numberSpan (isHex (c :: cs)) false cs
      rw [reads.alone] at h
      refine ⟨used, rest, rfl, fun loc tail behind => ?_⟩
      have hex := isHex_append (c :: (used ++ rest)) behind
      rw [List.cons_append] at hex
      rw [lexeme, if_neg notWord]
      simp only [digitAhead_append _ behind, isNumber, if_true, hex,
        reads (loc.after c) tail behind,
        List.foldl_cons]
      exact congrArg (·, _) h
    case isFalse notNumber =>
      split at h
      case isTrue quote =>
        obtain ⟨used, rest, rfl, reads⟩ := reads_character h
        refine ⟨used, rest, rfl, fun loc tail behind => ?_⟩
        rw [lexeme, if_neg notWord]
        simp only [digitAhead_append _ behind, notNumber, quote, if_true,
          reads (loc.after c) tail behind, List.foldl_cons]
        rfl
      case isFalse notQuote =>
        split at h
        case isTrue quotes => 
          obtain ⟨used, rest, rfl, reads⟩ := reads_string h
          refine ⟨used, rest, rfl, fun loc tail behind => ?_⟩
          rw [lexeme, if_neg notWord]
          simp only [digitAhead_append _ behind, notNumber, notQuote, quotes, if_true,
            reads (loc.after c) tail behind, List.foldl_cons]
          rfl
        case isFalse notQuotes =>
          split at h
          case h_2 => cases h
          case h_1 p rest found =>
            cases h
            have spelled := spelling_of_ofStart? found
            cases spelling : p.spelling.toList with
            | nil => exact absurd spelling (by cases p <;> decide)
            | cons q used =>
                rw [spelling, List.cons_append] at spelled
                obtain ⟨rfl, rfl⟩ := List.cons.inj spelled
                refine ⟨used, rest, rfl, fun loc tail behind => ?_⟩
                have found' := ofStart?_append (c :: (used ++ rest)) behind
                rw [List.cons_append, found] at found'
                rw [lexeme, if_neg notWord]
                simp only [digitAhead_append _ behind, notNumber, notQuote, notQuotes, found',
                  Option.map_some, spelling]
                rfl

/-! ### White space -/

/-- The same state, with `start` as the place of its comment. -/
def TriviaState.startedAt (start : Location) : TriviaState → TriviaState
  | .blockComment _ => .blockComment start
  | st => st

/-- White space in a text ends before `rest`, wherever the text stands and whatever follows its
last line. -/
def Skips (st : TriviaState) (cs rest : List Char) : Prop :=
  ∃ used saw, cs = used ++ rest ∧ (saw = true → '\n' ∈ used) ∧
    ∀ newline loc start tail, BehindLine tail →
      skipTrivia newline loc (st.startedAt start) (cs ++ tail) =
        skipTrivia (newline || saw) (used.foldl Location.after loc) .code (rest ++ tail)

theorem Skips.refl (cs : List Char) : Skips .code cs cs :=
  ⟨[], false, rfl, nofun, fun newline _ _ _ _ => by rw [Bool.or_false]; rfl⟩

theorem Skips.step {st st' : TriviaState} {cs rest : List Char} (piece : List Char) (saw : Bool)
    (seen : saw = true → '\n' ∈ piece)
    (first : ∀ newline loc start tail, BehindLine tail → ∃ start',
      skipTrivia newline loc (st.startedAt start) (piece ++ (cs ++ tail)) =
        skipTrivia (newline || saw) (piece.foldl Location.after loc) (st'.startedAt start')
          (cs ++ tail))
    (others : Skips st' cs rest) : Skips st (piece ++ cs) rest := by
  obtain ⟨used, saw', rfl, seen', skips⟩ := others
  refine ⟨piece ++ used, saw || saw', by simp, fun either => ?_,
    fun newline loc start tail behind => ?_⟩
  · rw [List.mem_append]
    exact (Bool.or_eq_true _ _ ▸ either).imp seen seen'
  · obtain ⟨start', first⟩ := first newline loc start tail behind
    rw [List.append_assoc, first, skips _ _ _ tail behind, List.foldl_append, Bool.or_assoc]

/-- A piece in front of white space is passed, and no end of a line is seen in it. -/
theorem Skips.pass {st st' : TriviaState} {cs rest : List Char} (piece : List Char)
    (first : ∀ newline loc start tail, ∃ start',
      skipTrivia newline loc (st.startedAt start) (piece ++ (cs ++ tail)) =
        skipTrivia newline (piece.foldl Location.after loc) (st'.startedAt start') (cs ++ tail))
    (others : Skips st' cs rest) : Skips st (piece ++ cs) rest := by
  refine others.step piece false nofun fun newline loc start tail _ => ?_
  rw [Bool.or_false]
  exact first newline loc start tail

/-- A comment ends with its line. -/
theorem Skips.lineComment_nil : Skips .lineComment [] [] := by
  refine ⟨[], false, rfl, nofun, fun newline loc start tail behind => ?_⟩
  obtain rfl | ⟨after, rfl⟩ := behind.cases <;> simp [TriviaState.startedAt, skipTrivia]

/-- Where white space ends in a text, it ends also with a line end behind the text, wherever the
text stands. -/
theorem skips_skipTrivia {newline : Bool} {loc : Location} {st : TriviaState} {cs : List Char}
    (h : (skipTrivia newline loc st cs).fault = none) :
    Skips st cs (skipTrivia newline loc st cs).next.rest := by
  fun_induction skipTrivia newline loc st cs with
  | case1 | case7 => exact .refl _
  | case2 _ _ cs ih =>
      exact (ih h).step ['\n'] true (by simp) fun newline loc start tail _ =>
        ⟨start, by simp [TriviaState.startedAt, skipTrivia]⟩
  | case3 _ _ cs ih =>
      exact (ih h).pass ['\\', '\n'] fun newline loc start tail =>
        ⟨start, by simp [TriviaState.startedAt, skipTrivia]⟩
  | case4 _ _ cs ih =>
      exact (ih h).pass ['/', '/'] fun newline loc start tail =>
        ⟨start, by simp [TriviaState.startedAt, skipTrivia]⟩
  | case5 _ _ cs ih =>
      exact (ih h).pass ['/', '*'] fun newline loc start tail =>
        ⟨loc, by simp [TriviaState.startedAt, skipTrivia]⟩
  | case6 newline loc c cs notEnd notSplice notLine notBlock space ih =>
      exact (ih h).pass [c] fun newline loc start tail =>
        ⟨start, skipTrivia_space space⟩
  | case8 => exact .lineComment_nil
  | case9 _ _ cs ih =>
      exact (ih h).step ['\n'] true (by simp) fun newline loc start tail _ =>
        ⟨start, by simp [TriviaState.startedAt, skipTrivia]⟩
  | case10 _ _ c cs notEnd ih =>
      exact (ih h).pass [c] fun newline loc start tail =>
        ⟨start, by simp [TriviaState.startedAt, skipTrivia]⟩
  | case11 => cases h
  | case12 _ _ _ cs ih =>
      exact (ih h).pass ['*', '/'] fun newline loc start tail =>
        ⟨start, by simp [TriviaState.startedAt, skipTrivia]⟩
  | case13 _ _ _ c cs notClose ih =>
      refine (ih h).step [c] (c == '\n') (fun isEnd => by rw [eq_of_beq isEnd]; simp)
        fun newline loc start tail behind => ⟨start, ?_⟩
      refine skipTrivia_blockComment fun others star slash => ?_
      cases cs with
      | nil =>
          obtain rfl | ⟨after, rfl⟩ := behind.cases <;> cases slash
      | cons d cs =>
          rw [List.cons_append] at slash
          obtain ⟨rfl, -⟩ := List.cons.inj slash
          exact notClose cs star rfl

/-- No white space stands at the start of a text. -/
def StartsDense (cs : List Char) : Prop :=
  ∀ newline loc, skipTrivia newline loc .code cs = ⟨newline, none, ⟨cs, loc⟩⟩

theorem startsDense_skipTrivia {newline : Bool} {loc : Location} {st : TriviaState}
    {cs : List Char} : StartsDense (skipTrivia newline loc st cs).next.rest := by
  fun_induction skipTrivia newline loc st cs with
  | case1 | case8 | case11 => exact fun _ _ => by rw [skipTrivia]
  | case7 newline loc c cs notEnd notSplice notLine notBlock dense =>
      intro newline loc
      rw [skipTrivia, if_neg dense]
      all_goals assumption
  | case2 _ _ _ ih | case3 _ _ _ ih | case4 _ _ _ ih | case5 _ _ _ ih | case9 _ _ _ ih
  | case12 _ _ _ _ ih => exact ih
  | case6 _ _ _ _ _ _ _ _ _ ih | case10 _ _ _ _ _ ih | case13 _ _ _ _ _ _ ih => exact ih

/-- A text that starts with a token but for a backslash does so with a line end behind it. -/
theorem StartsDense.append {c : Char} {cs tail : List Char} (dense : StartsDense (c :: cs))
    (noSplice : c ≠ '\\') (behind : BehindLine tail) : StartsDense (c :: cs ++ tail) := by
  intro newline loc
  have shorter {newline' loc' st} (cs') (less : cs'.length < (c :: cs).length)
      (skip : skipTrivia true loc .code (c :: cs) = skipTrivia newline' loc' st cs') : False := by
    have bound := length_skipTrivia_le newline' loc' st cs'
    rw [← skip, dense] at bound
    exact absurd bound (Nat.not_le_of_lt less)
  have second {d : Char} {others : List Char} (same : cs ++ tail = d :: others)
      (notEnd : d ≠ '\n') :
      ∃ ds, cs = d :: ds := by
    cases cs with
    | cons e ds => exact ⟨ds, by rw [(List.cons.inj same).1]⟩
    | nil => exact absurd (behind d (by rw [← List.nil_append tail, same]; rfl)) notEnd
  rw [List.cons_append, skipTrivia, if_neg]
  · intro space
    exact shorter cs (Nat.lt_succ_self _) (skipTrivia_space space)
  · rintro rfl
    exact shorter cs (Nat.lt_succ_self _) rfl
  · exact fun _ splice => absurd splice noSplice
  · rintro others rfl slash
    obtain ⟨ds, rfl⟩ := second slash (by decide)
    exact shorter ds (by simp only [List.length_cons]; omega) rfl
  · rintro others rfl star
    obtain ⟨ds, rfl⟩ := second star (by decide)
    exact shorter ds (by simp only [List.length_cons]; omega) rfl

/-! ### Lines -/

theorem lexeme_backslash (cs : List Char) (loc : Location) :
    (lexeme '\\' cs loc).1 = .error (.unexpectedCharacter '\\') := by
  have none : Punct.ofStart? ('\\' :: cs) = none := by
    rw [Punct.ofStart?, List.findSome?_eq_none_iff]
    intro p _
    rw [Option.map_eq_none_iff]
    cases p <;> rfl
  have notWord : Text.isWordStart '\\' = false := by decide
  have notDigit : '\\'.isDigit = false := by decide
  simp [lexeme, none, notWord, notDigit]

/-- The tokens of these kinds are all that a text has that stands alone or before a line end. -/
inductive Scanned : List Char → List TokenKind → Prop
  | blank {cs : List Char} (skips : Skips .code cs []) : Scanned cs []
  | token {cs used rest : List Char} {c : Char} {kind : TokenKind} {kinds : List TokenKind}
      (skips : Skips .code cs (c :: (used ++ rest)))
      (dense : ∀ tail, BehindLine tail → StartsDense (c :: (used ++ rest) ++ tail))
      (reads : ∀ loc tail, BehindLine tail →
        lexeme c (used ++ rest ++ tail) loc =
          (.ok kind, ⟨rest ++ tail, (c :: used).foldl Location.after loc⟩))
      (others : Scanned rest kinds) : Scanned cs (kind :: kinds)

theorem lexeme_of_token? {c next : Cursor} {t : Token} (h : c.token? = some (.ok t, next)) :
    ∃ d ds, c.rest = d :: ds ∧ lexeme d ds c.loc = (.ok t.kind, next) := by
  unfold token? at h
  split at h
  case h_1 => cases h
  case h_2 d ds same =>
    dsimp only at h
    refine ⟨d, ds, same, ?_⟩
    split at h
    case h_1 kind read =>
      cases h
      rw [← read]
    case h_2 => cases h

theorem rest_eq_nil_of_token? {c : Cursor} (h : c.token? = none) : c.rest = [] := by
  unfold token? at h
  split at h
  case h_1 nothing => exact nothing
  case h_2 =>
    dsimp only at h
    split at h <;> cases h

/-- A text whose tokens are all well formed has the same tokens wherever it stands. -/
theorem scanned_of_lexemes {c : Cursor} (ok : ∀ r ∈ c.lexemes, r.isOk = true) :
    ∃ kinds, Scanned c.rest kinds := by
  fun_induction lexemes c with
  | case1 c f fault => cases ok _ List.mem_cons_self
  | case2 c noFault atEnd =>
      exact ⟨[], .blank (rest_eq_nil_of_token? atEnd ▸ skips_skipTrivia noFault)⟩
  | case3 c noFault result next scan _ _ ih =>
      rw [List.forall_mem_cons] at ok
      cases result with
      | error f => cases ok.1
      | ok t =>
          obtain ⟨d, ds, same, read⟩ := lexeme_of_token? scan
          obtain ⟨used, rest, rfl, reads⟩ := reads_lexeme (congrArg Prod.fst read)
          have alone := reads c.trivia.next.loc [] behindLine_nil
          rw [List.append_nil, List.append_nil, read] at alone
          obtain ⟨kinds, others⟩ := ih ok.2
          rw [congrArg Cursor.rest (Prod.mk.inj alone).2] at others
          refine ⟨t.kind :: kinds, .token (same ▸ skips_skipTrivia noFault) (fun tail behind => ?_)
            reads others⟩
          have dense : StartsDense (d :: (used ++ rest)) := same ▸ startsDense_skipTrivia
          refine dense.append ?_ behind
          rintro rfl
          have refused := (congrArg Prod.fst read).symm.trans (lexeme_backslash _ _)
          cases refused

theorem token?_of_lexeme {c : Char} {cs : List Char} {loc : Location} {kind : TokenKind}
    {next : Cursor} (h : lexeme c cs loc = (.ok kind, next)) :
    token? ⟨c :: cs, loc⟩ = some (.ok ⟨kind, loc⟩, next) := by
  simp only [token?, h]

theorem lexemes_of_token? {c next : Cursor} {result : Except LexFault Token}
    (noFault : c.trivia.fault = none) (h : c.trivia.next.token? = some (result, next)) :
    c.lexemes = result :: next.lexemes := by
  rw [lexemes, noFault]
  dsimp only
  split <;> simp_all

theorem lexemes_of_fault {c : Cursor} {f : LexFault} (fault : c.trivia.fault = some f) :
    c.lexemes = [.error f] := by
  unfold lexemes
  split <;> simp_all

theorem lexemes_of_end {c : Cursor} (noFault : c.trivia.fault = none)
    (h : c.trivia.next.token? = none) : c.lexemes = [] := by
  rw [lexemes, noFault]
  dsimp only
  split <;> simp_all

theorem Skips.trivia {cs rest : List Char} (h : Skips .code cs rest) :
    ∃ used saw, cs = used ++ rest ∧ (saw = true → '\n' ∈ used) ∧
      ∀ loc tail, BehindLine tail → Cursor.trivia ⟨cs ++ tail, loc⟩ =
        skipTrivia saw (used.foldl Location.after loc) .code (rest ++ tail) := by
  obtain ⟨used, saw, same, seen, skips⟩ := h
  exact ⟨used, saw, same, seen, fun loc tail behind => by
    rw [← Bool.false_or saw]
    exact skips false loc loc tail behind⟩

/-- The tokens of these kinds that follow each other from a place in a text on. -/
theorem Scanned.lexemes {cs : List Char} {kinds : List TokenKind} (h : Scanned cs kinds)
    (loc : Location) :
    ∃ ts : List Token, Cursor.lexemes ⟨cs, loc⟩ = ts.map .ok ∧ ts.map Token.kind = kinds := by
  induction h generalizing loc with
  | blank skips =>
      obtain ⟨used, saw, -, -, trivia⟩ := skips.trivia
      have alone := trivia loc [] behindLine_nil
      rw [List.append_nil, List.append_nil, skipTrivia_nil] at alone
      exact ⟨[], lexemes_of_end (by rw [alone]) (by rw [alone]; rfl), rfl⟩
  | @token cs used rest c kind kinds skips dense reads others ih =>
      obtain ⟨lead, saw, -, -, trivia⟩ := skips.trivia
      have alone := trivia loc [] behindLine_nil
      rw [dense [] behindLine_nil, List.append_nil, List.append_nil] at alone
      have read := reads (lead.foldl Location.after loc) [] behindLine_nil
      rw [List.append_nil, List.append_nil] at read
      obtain ⟨ts, scan, same⟩ :=
        ih ((c :: used).foldl Location.after (lead.foldl Location.after loc))
      refine ⟨⟨kind, lead.foldl Location.after loc⟩ :: ts, ?_, by rw [List.map_cons, same]⟩
      rw [lexemes_of_token? (by rw [alone]) (by rw [alone]; exact token?_of_lexeme read), scan,
        List.map_cons]

theorem lexeme_hash (cs : List Char) (loc : Location) :
    (lexeme '#' cs loc).1 = .ok (.punct .hash) := by
  have found : Punct.ofStart? ('#' :: cs) = some (.hash, cs) := rfl
  have notWord : Text.isWordStart '#' = false := by decide
  have notDigit : '#'.isDigit = false := by decide
  simp [lexeme, found, notWord, notDigit]

/-- A text whose white space ends at a number sign starts with that token. -/
theorem Scanned.head?_of_sign {cs body : List Char} {kinds : List TokenKind} (h : Scanned cs kinds)
    {loc : Location} (sign : (Cursor.trivia ⟨cs, loc⟩).next.rest = '#' :: body) :
    kinds.head? = some (.punct .hash) := by
  cases h with
  | blank skips =>
      obtain ⟨used, saw, -, -, trivia⟩ := skips.trivia
      have alone := trivia loc [] behindLine_nil
      rw [List.append_nil, List.append_nil, skipTrivia_nil] at alone
      rw [alone] at sign
      cases sign
  | @token _ used rest c kind kinds skips dense reads others =>
      obtain ⟨lead, saw, -, -, trivia⟩ := skips.trivia
      have alone := trivia loc [] behindLine_nil
      rw [dense [] behindLine_nil, List.append_nil, List.append_nil] at alone
      rw [alone] at sign
      obtain ⟨rfl, rfl⟩ := List.cons.inj sign
      have read := congrArg Prod.fst (reads loc [] behindLine_nil)
      rw [lexeme_hash] at read
      exact congrArg some (Except.ok.inj read).symm

/-- The flag for a line end seen earlier is handed on. -/
theorem skipTrivia_newline (newline newline' : Bool) (loc : Location) (st : TriviaState)
    (cs : List Char) :
    skipTrivia (newline || newline') loc st cs =
      { skipTrivia newline' loc st cs with
        newline := newline || (skipTrivia newline' loc st cs).newline } := by
  fun_induction skipTrivia newline' loc st cs with
  | case1 | case8 | case11 => simp [skipTrivia]
  | case2 _ _ _ ih | case9 _ _ _ ih =>
      rw [skipTrivia, ← ih, Bool.or_true]
  | case3 _ _ _ ih | case4 _ _ _ ih | case5 _ _ _ ih | case12 _ _ _ _ ih => rw [skipTrivia, ih]
  | case6 _ _ _ _ _ _ _ _ space ih => rw [skipTrivia_space space, ih]
  | case7 _ _ _ _ _ _ _ _ dense =>
      rw [skipTrivia, if_neg dense]
      all_goals assumption
  | case10 _ _ _ _ notEnd ih =>
      rw [skipTrivia, ih]
      exact notEnd
  | case13 _ _ _ _ _ notClose ih => rw [skipTrivia_blockComment notClose, Bool.or_assoc, ih]

/-- A directive that ends with its line is cut out of any text that it stands in. -/
theorem restOfLine_append {loc : Location} {cs : List Char}
    (whole : (restOfLine loc cs).2.rest = []) (noSplice : cs.getLast? ≠ some '\\')
    (loc' : Location) {tail : List Char} (behind : BehindLine tail) :
    restOfLine loc' (cs ++ tail) =
      ((restOfLine loc cs).1, ⟨tail, cs.foldl Location.after loc'⟩) := by
  have shorter {c : Char} {cs : List Char} (h : (c :: cs).getLast? ≠ some '\\') :
      cs.getLast? ≠ some '\\' := by
    cases cs with
    | nil => nofun
    | cons => rwa [List.getLast?_cons_cons] at h
  fun_induction restOfLine loc cs generalizing loc' with
  | case1 loc => 
      obtain rfl | ⟨after, rfl⟩ := behind.cases <;> rfl
  | case2 loc cs => cases whole
  | case3 loc cs line next read ih =>
      rw [read] at ih
      rw [List.cons_append, List.cons_append, restOfLine, ih whole (shorter (shorter noSplice))]
      rfl
  | case4 loc c cs notEnd notSplice line next read ih =>
      rw [read] at ih
      rw [List.cons_append, restOfLine, ih whole (shorter noSplice)]
      · rfl
      · exact notEnd
      · rintro others rfl ends
        cases cs with
        | nil => exact noSplice rfl
        | cons d cs => exact notSplice cs rfl (by rw [(List.cons.inj ends).1])

end Cursor
end LiveC

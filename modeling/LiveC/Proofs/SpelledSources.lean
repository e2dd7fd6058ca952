import Mathlib.Data.Nat.Digits.Lemmas
import LiveC.Proofs.SourceLines
import LiveC.Proofs.SpelledTokens

/-!
Sources that consist of spelled tokens. Tokens that stand apart are read back one by one; the
constants that are none are all reported. Punctuators without blanks between them are split
greedily.
-/

namespace LiveC

/-! ### Texts in ASCII -/

namespace Text

theorem ascii_of_isWordChar {c : Char} (isWord : isWordChar c = true) : c.toNat < 128 := by
  unfold isWordChar at isWord
  delta Char.isAlphanum Char.isAlpha Char.isUpper Char.isLower Char.isDigit at isWord
  simp only [Bool.or_eq_true, Bool.and_eq_true, decide_eq_true_eq, UInt32.le_iff_toNat_le, ge_iff_le,
    beq_iff_eq] at isWord
  change c.val.toNat < 128
  rcases isWord with ((upper | lower) | digit) | rfl
  · exact Nat.lt_of_le_of_lt upper.2 (by decide)
  · exact Nat.lt_of_le_of_lt lower.2 (by decide)
  · exact Nat.lt_of_le_of_lt digit.2 (by decide)
  · decide

end Text

theorem IsBlank.ascii {c : Char} (h : IsBlank c) : c.toNat < 128 := by
  obtain rfl | rfl | rfl | rfl | rfl | rfl := h.cases <;> decide

theorem Punct.ascii_spelling (p : Punct) : ∀ c ∈ p.spelling.toList, c.toNat < 128 := by
  cases p <;> exact forall_mem_of_all (by decide)

theorem ascii_octalEscape (b : UInt8) : ∀ c ∈ octalEscape b, c.toNat < 128 := by
  have digits : ∀ k < 8, (Nat.digitChar k).toNat < 128 := by decide
  have low := b.toNat_lt
  intro c member
  simp only [octalEscape, List.mem_cons, List.not_mem_nil, or_false] at member
  rcases member with rfl | rfl | rfl | rfl
  · decide
  · exact digits _ (by omega)
  · exact digits _ (Nat.mod_lt _ (by decide))
  · exact digits _ (Nat.mod_lt _ (by decide))

theorem WrittenToken.ascii_spelling {w : WrittenToken} (h : w.WellFormed) :
    ∀ c ∈ w.spelling, c.toNat < 128 := by
  have quoted {q : Char} (quote : q.toNat < 128) {cs : List Char} (ascii : ∀ c ∈ cs, c.toNat < 128) :
      ∀ c ∈ q :: (cs ++ [q]), c.toNat < 128 :=
    List.forall_mem_cons.mpr ⟨quote,
      List.forall_mem_append.mpr ⟨ascii, List.forall_mem_singleton.mpr quote⟩⟩
  cases w with
  | identifier name => exact fun c member => Text.ascii_of_isWordChar (h.1.2 c member)
  | keyword kw =>
      have all (kw : Keyword) : ∀ c ∈ kw.spelling.toList, c.toNat < 128 := by
        cases kw <;> exact forall_mem_of_all (by decide)
      exact all kw
  | punctuator p => exact p.ascii_spelling
  | integer n => exact fun c member => Text.ascii_of_isWordChar (Numeral.isWordChar_of_mem c member)
  | character b => exact quoted (by decide) (ascii_octalEscape b)
  | string bs =>
      refine quoted (by decide) fun c member => ?_
      obtain ⟨b, -, member⟩ := List.mem_flatMap.mp member
      exact ascii_octalEscape b c member

/-! ### Tokens with blanks between them -/

/-- The text of tokens, each with the blank behind it. None is written behind the last. -/
def spelled : List (WrittenToken × Char) → List Char
  | [] => []
  | [(w, _)] => w.spelling
  | (w, b) :: items => w.spelling ++ b :: spelled items

/-- The tokens with the places where they stand. -/
def placed (loc : Location) : List (WrittenToken × Char) → List (WrittenToken × Location)
  | [] => []
  | (w, b) :: items => (w, loc) :: placed ((w.spelling.foldl Location.after loc).after b) items

/-- No number sign is the first token of a line. -/
def NoDirective (lineStart : Bool) : List (WrittenToken × Char) → Prop
  | [] => True
  | (w, b) :: items =>
    (lineStart = true → w ≠ .punctuator .hash) ∧ NoDirective (b == '\n') items

instance NoDirective.decide (lineStart : Bool) :
    (items : List (WrittenToken × Char)) → Decidable (NoDirective lineStart items)
  | [] => inferInstanceAs (Decidable True)
  | (_, b) :: items =>
    have := NoDirective.decide (b == '\n') items
    inferInstanceAs (Decidable (_ ∧ _))

/-- Tokens with white space behind them, none of them a macro of `m`. -/
structure Spaced (m : MacroTable) (items : List (WrittenToken × Char)) : Prop where
  wellFormed : ∀ i ∈ items, i.1.WellFormed
  noMacro : ∀ i ∈ items, ∀ name, i.1 = .identifier name → m.find? name = none
  blanks : ∀ i ∈ items, IsBlank i.2

theorem Spaced.of_cons {m : MacroTable} {i : WrittenToken × Char}
    {items : List (WrittenToken × Char)} (h : Spaced m (i :: items)) : Spaced m items where
  wellFormed := (List.forall_mem_cons.mp h.wellFormed).2
  noMacro := (List.forall_mem_cons.mp h.noMacro).2
  blanks := (List.forall_mem_cons.mp h.blanks).2

/-- The tokens among the places. -/
def tokensOf (places : List (WrittenToken × Location)) : List Token :=
  places.filterMap fun p => p.1.kind?.map (⟨·, p.2⟩)

/-- The places where a constant is written that is none. -/
def refusedOf (places : List (WrittenToken × Location)) : List (WrittenToken × Location) :=
  places.filter (·.1.kind?.isNone)

section

variable {w : WrittenToken} {loc : Location} {places : List (WrittenToken × Location)}

theorem tokensOf_cons_of_some {kind : TokenKind} (means : w.kind? = some kind) :
    tokensOf ((w, loc) :: places) = ⟨kind, loc⟩ :: tokensOf places := by
  simp [tokensOf, means]

theorem tokensOf_cons_of_none (means : w.kind? = none) :
    tokensOf ((w, loc) :: places) = tokensOf places := by
  simp [tokensOf, means]

theorem refusedOf_cons_of_some {kind : TokenKind} (means : w.kind? = some kind) :
    refusedOf ((w, loc) :: places) = refusedOf places := by
  simp [refusedOf, means]

theorem refusedOf_cons_of_none (means : w.kind? = none) :
    refusedOf ((w, loc) :: places) = (w, loc) :: refusedOf places := by
  simp [refusedOf, means]

variable {items : List (WrittenToken × Char)}

theorem refusedOf_eq_nil (all : ∀ i ∈ items, i.1.kind? ≠ none) :
    refusedOf (placed loc items) = [] := by
  induction items generalizing loc with
  | nil => rfl
  | cons i items ih =>
      rw [List.forall_mem_cons] at all
      obtain ⟨kind, means⟩ := Option.ne_none_iff_exists'.mp all.1
      rw [placed, refusedOf_cons_of_some means, ih all.2]

theorem refusedOf_ne_nil {i : WrittenToken × Char} (member : i ∈ items) (none : i.1.kind? = none) :
    refusedOf (placed loc items) ≠ [] := by
  induction items generalizing loc with
  | nil => cases member
  | cons first items ih =>
      rcases List.mem_cons.mp member with rfl | member
      · rw [placed, refusedOf_cons_of_none none]
        exact List.cons_ne_nil _ _
      · rw [placed]
        cases means : first.1.kind? with
        | none =>
            rw [refusedOf_cons_of_none means]
            exact List.cons_ne_nil _ _
        | some kind =>
            rw [refusedOf_cons_of_some means]
            exact ih member

end

/-- The fault is that of the constant that stands there. -/
def FaultOf (p : WrittenToken × Location) (f : LexFault) : Prop :=
  f.loc = p.2 ∧ p.1.Refused f.error

theorem spelled_cons (w : WrittenToken) (b : Char) (items : List (WrittenToken × Char)) :
    ∃ tail, spelled ((w, b) :: items) = w.spelling ++ tail ∧
      (items = [] ∧ tail = [] ∨ tail = b :: spelled items) := by
  cases items with
  | nil => exact ⟨[], (List.append_nil _).symm, .inl ⟨rfl, rfl⟩⟩
  | cons i items => exact ⟨_, rfl, .inr rfl⟩

theorem ascii_spelled {m : MacroTable} {items : List (WrittenToken × Char)} (h : Spaced m items) :
    ∀ c ∈ spelled items, c.toNat < 128 := by
  induction items with
  | nil => exact List.forall_mem_nil _
  | cons i items ih =>
      obtain ⟨w, b⟩ := i
      obtain ⟨tail, text, rest⟩ := spelled_cons w b items
      rw [text, List.forall_mem_append]
      refine ⟨WrittenToken.ascii_spelling (h.wellFormed _ List.mem_cons_self), ?_⟩
      rcases rest with ⟨-, rfl⟩ | rfl
      · exact List.forall_mem_nil _
      · exact List.forall_mem_cons.mpr ⟨(h.blanks _ List.mem_cons_self).ascii, ih h.of_cons⟩

theorem WrittenToken.kind?_ne_hash {w : WrittenToken} (other : w ≠ .punctuator .hash) :
    w.kind? ≠ some (.punct .hash) := by
  intro hash
  cases w with
  | punctuator p =>
      cases hash
      exact other rfl
  | integer n =>
      change n.kind? = _ at hash
      unfold Numeral.kind? at hash
      split at hash <;> cases hash
  | _ => cases hash

namespace PreprocState

variable {st : PreprocState}

theorem expand_written {m : MacroTable} {w : WrittenToken} {kind : TokenKind}
    (noMacro : ∀ name, w = .identifier name → m.find? name = none) (means : w.kind? = some kind)
    (loc : Location) : m.expand loc kind = [⟨kind, loc⟩] := by
  have plain (other : ∀ name, kind ≠ .ident name) : m.expand loc kind = [⟨kind, loc⟩] := by
    rw [MacroTable.expand]
    exact other
  cases w with
  | identifier name =>
      cases means
      have missing := noMacro name rfl
      rw [MacroTable.expand]
      split <;> simp_all
  | integer n =>
      change n.kind? = _ at means
      unfold Numeral.kind? at means
      split at means <;> cases means
      exact plain fun _ same => by cases same
  | _ =>
      cases means
      exact plain fun _ same => by cases same

/-- The run over a blank in front of a token. -/
theorem run_blank {b : Char} (blank : IsBlank b) (cs : List Char) (loc : Location) :
    st.run false ⟨b :: cs, loc⟩ = st.run (b == '\n') ⟨cs, loc.after b⟩ := by
  rcases blank with space | rfl
  · have notEnd : (b == '\n') = false := by
      rw [beq_eq_false_iff_ne]
      rintro rfl
      cases space
    have trivia : Cursor.trivia ⟨b :: cs, loc⟩ = Cursor.trivia ⟨cs, loc.after b⟩ :=
      Cursor.skipTrivia_space space
    rw [notEnd]
    exact run_congr (by rw [trivia]) (by rw [trivia]) (by rw [trivia])
  · exact run_newline false loc cs

/-- What reading a token at `loc` gives. -/
def readAt (loc : Location) : Except LexError TokenKind → Except LexFault Token
  | .ok kind => .ok ⟨kind, loc⟩
  | .error e => .error ⟨loc, e⟩

/-- The run over a token that was written. -/
theorem run_written {w : WrittenToken} (wellFormed : w.WellFormed) {lineStart : Bool}
    (noDirective : lineStart = true → w ≠ .punctuator .hash) {tail : List Char}
    (ends : EndsToken tail) (loc : Location) :
    ∃ r, w.Means r ∧ st.run lineStart ⟨w.spelling ++ tail, loc⟩ =
      st.lexeme (readAt loc r) ++
        st.run false ⟨tail, w.spelling.foldl Location.after loc⟩ := by
  have dense := w.startsDense_spelling wellFormed ends
  cases text : w.spelling with
  | nil => exact absurd text (w.spelling_ne_nil wellFormed)
  | cons c cs =>
      obtain ⟨r, read, means⟩ := w.lexeme_spelling wellFormed text ends loc
      rw [text] at read dense
      have trivia : Cursor.trivia ⟨c :: cs ++ tail, loc⟩ = ⟨false, none, ⟨c :: cs ++ tail, loc⟩⟩ :=
        dense false loc
      have token : Cursor.token? ⟨c :: cs ++ tail, loc⟩ =
          some (readAt loc r, ⟨tail, (c :: cs).foldl Location.after loc⟩) := by
        rw [List.cons_append, Cursor.token?]
        dsimp only
        rw [read]
        cases r <;> rfl
      refine ⟨r, means, run_of_token? (by rw [trivia]) (by rw [trivia]; exact token) ?_⟩
      rw [trivia]
      rintro ⟨hash, starts⟩
      obtain rfl : c = '#' := Option.some.inj hash
      have sign := congrArg Prod.fst read
      rw [Cursor.lexeme_hash] at sign
      dsimp only at sign
      rw [← sign] at means
      exact WrittenToken.kind?_ne_hash (noDirective (by simpa using starts)) means

theorem run_spelled (outside : st.conditionals = []) {items : List (WrittenToken × Char)}
    (h : Spaced st.macros items) {lineStart : Bool} (noDirective : NoDirective lineStart items)
    (loc : Location) :
    ∃ faults, st.run lineStart ⟨spelled items, loc⟩ =
        ⟨tokensOf (placed loc items) ++ [⟨.eof, (spelled items).foldl Location.after loc⟩], [],
          faults⟩ ∧
      List.Forall₂ FaultOf (refusedOf (placed loc items)) faults := by
  have finished (loc : Location) : st.finish loc = ⟨[⟨.eof, loc⟩], [], []⟩ := by
    rw [finish, outside]
    rfl
  have active : st.active = true := by
    rw [PreprocState.active, outside]
    rfl
  induction items generalizing lineStart loc with
  | nil => exact ⟨[], (run_nil lineStart loc).trans (finished loc), .nil⟩
  | cons i items ih =>
      obtain ⟨w, b⟩ := i
      obtain ⟨tail, text, rest⟩ := spelled_cons w b items
      have blank := h.blanks _ List.mem_cons_self
      have ends : EndsToken tail := by
        rcases rest with ⟨-, rfl⟩ | rfl
        · exact nofun
        · intro c member
          cases member
          exact blank
      have goesOn : ∃ faults, st.run false ⟨tail, w.spelling.foldl Location.after loc⟩ =
          ⟨tokensOf (placed ((w.spelling.foldl Location.after loc).after b) items) ++
            [⟨.eof, (spelled ((w, b) :: items)).foldl Location.after loc⟩], [], faults⟩ ∧
          List.Forall₂ FaultOf
            (refusedOf (placed ((w.spelling.foldl Location.after loc).after b) items)) faults := by
        rw [text, List.foldl_append]
        rcases rest with ⟨rfl, rfl⟩ | rfl
        · exact ⟨[], (run_nil false _).trans (finished _), .nil⟩
        · rw [run_blank blank]
          exact ih h.of_cons noDirective.2 _
      obtain ⟨faults, run, places⟩ := goesOn
      obtain ⟨r, means, first⟩ := run_written (h.wellFormed _ List.mem_cons_self)
        noDirective.1 ends loc
      rw [← text, run] at first
      cases r with
      | ok kind =>
          have kept : st.lexeme (readAt loc (.ok kind)) = ⟨[⟨kind, loc⟩], [], []⟩ := by
            simp only [lexeme, active, readAt, if_true,
              expand_written (h.noMacro _ List.mem_cons_self) means]
          have means : w.kind? = some kind := means
          refine ⟨faults, ?_, ?_⟩
          · rw [first, kept, placed, tokensOf_cons_of_some means]
            rfl
          · rw [placed, refusedOf_cons_of_some means]
            exact places
      | error e =>
          have kept : st.lexeme (readAt loc (.error e)) = ⟨[], [], [⟨loc, e⟩]⟩ := by
            simp only [lexeme, active, readAt, if_true]
          obtain ⟨means, refused⟩ := means
          refine ⟨⟨loc, e⟩ :: faults, ?_, ?_⟩
          · rw [first, kept, placed, tokensOf_cons_of_none means]
            rfl
          · rw [placed, refusedOf_cons_of_none means]
            exact .cons ⟨rfl, refused⟩ places

end PreprocState

/-! ### Every value has a constant -/

def Digit.ofValue (v : Nat) : Digit := ⟨(BitVec.ofNat 4 v).toFin, false⟩

theorem Digit.value_ofValue {v : Nat} (low : v < 16) : (Digit.ofValue v).value.val = v :=
  Nat.mod_eq_of_lt low

theorem Digit.exists_of_value (base : Base) (v : Nat) :
    ∃ (first : Digit) (others : List Digit), (∀ d ∈ first :: others, d.value < base.radix) ∧
      Nat.ofDigits base.radix ((first :: others).reverse.map (·.value.val)) = v ∧
      (first.value = 0 → others = []) := by
  by_cases zero : v = 0
  · subst zero
    exact ⟨⟨0, false⟩, [], List.forall_mem_singleton.mpr base.radix_pos, rfl, fun _ => rfl⟩
  · have two : 1 < base.radix := by cases base <;> exact Nat.le_of_ble_eq_true rfl
    have small : base.radix ≤ 16 := by cases base <;> exact Nat.le_of_ble_eq_true rfl
    have digit : ∀ d ∈ Nat.digits base.radix v, (Digit.ofValue d).value.val = d := fun d member =>
      Digit.value_ofValue (Nat.lt_of_lt_of_le (Nat.digits_lt_base two member) small)
    have nonempty : Nat.digits base.radix v ≠ [] := Nat.digits_ne_nil_iff_ne_zero.mpr zero
    obtain ⟨last, front, split⟩ : ∃ last front, Nat.digits base.radix v = front ++ [last] :=
      ⟨_, _, (List.dropLast_append_getLast nonempty).symm⟩
    have noZero : last ≠ 0 := by
      have leading := Nat.getLast_digit_ne_zero base.radix zero
      simpa only [split, List.getLast_append_singleton] using leading
    have values : ((Nat.digits base.radix v).map Digit.ofValue).map (·.value.val) =
        Nat.digits base.radix v := by
      rw [List.map_map]
      exact (List.map_congr_left digit).trans (List.map_id _)
    have whole : Digit.ofValue last :: (front.map Digit.ofValue).reverse =
        ((Nat.digits base.radix v).map Digit.ofValue).reverse := by
      rw [split, List.map_append, List.reverse_append]
      rfl
    refine ⟨Digit.ofValue last, (front.map Digit.ofValue).reverse, ?_, ?_, fun leading => ?_⟩
    · intro d member
      rw [whole, List.mem_reverse] at member
      exact Nat.digits_lt_base two (values ▸ List.mem_map_of_mem (f := fun d : Digit => d.value.val) member)
    · rw [whole, List.reverse_reverse, values, Nat.ofDigits_digits]
    · have value := digit last (by rw [split]; simp)
      rw [leading] at value
      exact absurd value.symm noZero

/-- Every value of a word can be written in each base and with each suffix. -/
theorem Numeral.exists_of_value {v : Nat} (low : v < 2 ^ 64) (base : Base)
    (suffix : IntegerSuffix) :
    ∃ n : Numeral, n.WellFormed ∧ n.base = base ∧ n.suffix = suffix ∧
      n.kind? =
        some (.int v suffix.unsigned.isSome suffix.long.isSome (base == .decimal)) := by
  obtain ⟨first, others, digits, value, leading⟩ := Digit.exists_of_value base v
  refine ⟨⟨base, first, others, suffix⟩, ⟨fun d member => ?_, fun _ => leading⟩, rfl, rfl, ?_⟩
  · exact Nat.lt_of_lt_of_le (digits d member) (by cases base <;> exact Nat.le_of_ble_eq_true rfl)
  · have same : Numeral.value ⟨base, first, others, suffix⟩ = v := value
    rw [Numeral.kind?, same, if_neg]
    rintro (⟨d, member, wrong⟩ | large)
    · exact Nat.not_le_of_lt (digits d member) wrong
    · exact Nat.not_le_of_lt low large

/-! ### Punctuators without blanks -/

/-- A text split greedily: each punctuator is the longest one that its rest starts with. -/
inductive Munches : List Char → List Punct → Prop
  | nil : Munches [] []
  | cons {p : Punct} {cs : List Char} {ps : List Punct}
      (longest : p.IsLongest (p.spelling.toList ++ cs)) (others : Munches cs ps) :
      Munches (p.spelling.toList ++ cs) (p :: ps)

/-- Punctuators that follow each other from a place on. -/
def adjacent (loc : Location) : List Punct → List Token
  | [] => []
  | p :: ps => ⟨.punct p, loc⟩ :: adjacent (p.spelling.toList.foldl Location.after loc) ps

/-- No comment starts in a text. -/
def NoComment (cs : List Char) : Prop := ¬['/', '/'] <:+: cs ∧ ¬['/', '*'] <:+: cs

theorem NoComment.of_append {front cs : List Char} (h : NoComment (front ++ cs)) : NoComment cs :=
  have suffix : cs <:+: front ++ cs := (List.suffix_append front cs).isInfix
  ⟨fun line => h.1 (line.trans suffix), fun block => h.2 (block.trans suffix)⟩

/-- What starts like another token is no punctuator. -/
theorem Cursor.ofStart?_of_lexeme {c : Char} {cs : List Char} {loc : Location} {p : Punct}
    {next : Cursor} (h : lexeme c cs loc = (.ok (.punct p), next)) :
    Punct.ofStart? (c :: cs) = some (p, next.rest) := by
  have word (name : String) : word name ≠ .punct p := by
    intro read
    unfold Cursor.word at read
    split at read <;> cases read
  have integer (cs : List Char) : integer cs ≠ .ok (.punct p) := by
    intro read
    unfold Cursor.integer at read
    dsimp only at read
    split at read
    · cases read
    · generalize (if isHex _ = true then _ else _ : List Char × Nat) = numeral at read
      split at read
      · cases read
      · generalize digitsValue _ _ _ _ = r at read
        cases r <;> cases read
  have number (cs : List Char) : number cs ≠ .ok (.punct p) := by
    intro read
    unfold Cursor.number floating at read
    dsimp only at read
    split at read
    · split at read <;> cases read
    · exact integer cs read
  have close (value : UInt8) (next : Cursor) : (closeCharacter value next).1 ≠ .ok (.punct p) := by
    intro read
    unfold closeCharacter at read
    split at read <;> cases read
  have character (loc : Location) (cs : List Char) : (character loc cs).1 ≠ .ok (.punct p) := by
    unfold Cursor.character
    split
    case h_4 =>
      split
      · exact close _ _
      · exact fun read => by cases read
    case h_5 => exact close _ _
    all_goals exact fun read => by cases read
  have string (acc : List UInt8) (loc : Location) (cs : List Char) :
      (string acc loc cs).1 ≠ .ok (.punct p) := by
    fun_induction Cursor.string acc loc cs with
    | case1 | case2 | case3 | case5 => exact fun read => by cases read
    | case4 _ _ _ _ _ _ _ ih | case6 _ _ _ _ _ _ _ ih => exact ih
  unfold lexeme at h
  dsimp only at h
  split at h
  · exact absurd (Except.ok.inj (Prod.mk.inj h).1) (word _)
  · split at h
    · exact absurd (Prod.mk.inj h).1 (number _)
    · split at h
      · exact absurd (congrArg Prod.fst h) (character _ _)
      · split at h
        · exact absurd (congrArg Prod.fst h) (string _ _ _)
        · split at h
          case h_1 found =>
            cases h
            exact found
          case h_2 => cases h

/-- The scanner reads a punctuator only if it is the longest that stands there. -/
theorem Punct.isLongest_of_token? {c next : Cursor} {p : Punct} {loc : Location}
    (h : c.token? = some (.ok ⟨.punct p, loc⟩, next)) :
    c.rest = p.spelling.toList ++ next.rest ∧ p.IsLongest c.rest := by
  obtain ⟨d, ds, same, read⟩ := Cursor.lexeme_of_token? h
  rw [same]
  exact ofStart?_eq_some_iff.mp (Cursor.ofStart?_of_lexeme read)

namespace PreprocState

variable {st : PreprocState}

theorem run_adjacent (outside : st.conditionals = []) {cs : List Char}
    (signs : ∀ c ∈ cs, Punct.IsSign c) (plain : NoComment cs) {lineStart : Bool}
    (noDirective : lineStart = true → cs.head? ≠ some '#') (loc : Location) :
    ∃ ps, Munches cs ps ∧ st.run lineStart ⟨cs, loc⟩ =
      ⟨adjacent loc ps ++ [⟨.eof, cs.foldl Location.after loc⟩], [], []⟩ := by
  induction length : cs.length using Nat.strongRecOn generalizing cs lineStart loc with
  | ind n ih =>
      cases cs with
      | nil =>
          refine ⟨[], .nil, ?_⟩
          rw [run_nil, finish, outside]
          rfl
      | cons c cs =>
          have sign := signs c List.mem_cons_self
          obtain ⟨single, spelled⟩ := sign.exists_spelling
          have starts : c :: cs = single.spelling.toList ++ cs := by
            rw [spelled]
            rfl
          obtain ⟨⟨p, rest⟩, found⟩ := Punct.exists_ofStart? starts
          obtain ⟨text, longest⟩ := Punct.ofStart?_eq_some_iff.mp found
          have shorter := Punct.length_ofStart?_lt found
          have noFraction : cs.head?.any Char.isDigit = false := by
            cases cs with
            | nil => rfl
            | cons d ds => exact (signs d (.tail _ (.head _))).notDigit
          have noComment : c = '/' → ∀ d ∈ cs.head?, d ≠ '/' ∧ d ≠ '*' := by
            rintro rfl d next
            obtain ⟨ds, rfl⟩ := List.head?_eq_some_iff.mp next
            refine ⟨?_, ?_⟩
            · rintro rfl
              exact plain.1 ⟨[], ds, rfl⟩
            · rintro rfl
              exact plain.2 ⟨[], ds, rfl⟩
          have trivia : Cursor.trivia ⟨c :: cs, loc⟩ = ⟨false, none, ⟨c :: cs, loc⟩⟩ :=
            WrittenToken.startsDense_cons sign.notBlank sign.startsNothing.2.2.2 noComment false loc
          have token := Cursor.token?_of_lexeme
            (WrittenToken.lexeme_of_ofStart? sign noFraction found loc)
          have first : st.run lineStart ⟨c :: cs, loc⟩ = st.lexeme (.ok ⟨.punct p, loc⟩) ++
              st.run false ⟨rest, p.spelling.toList.foldl Location.after loc⟩ := by
            refine run_of_token? (by rw [trivia]) (by rw [trivia]; exact token) ?_
            rw [trivia]
            rintro ⟨hash, starts⟩
            exact noDirective (by simpa using starts) hash
          have kept : st.lexeme (.ok ⟨.punct p, loc⟩) = ⟨[⟨.punct p, loc⟩], [], []⟩ := by
            have single : st.macros.expand loc (.punct p) = [⟨.punct p, loc⟩] := by
              rw [MacroTable.expand]
              exact fun _ same => by cases same
            simp only [lexeme, active, outside, List.head?_nil, Option.map_none, Option.getD_none,
              if_true, single]
          have others (place : Location) : ∃ ps, Munches rest ps ∧ st.run false ⟨rest, place⟩ =
              ⟨adjacent place ps ++ [⟨.eof, rest.foldl Location.after place⟩], [], []⟩ :=
            ih rest.length (length ▸ shorter)
              (fun c member => signs c (text ▸ List.mem_append_right _ member))
              (NoComment.of_append (text ▸ plain)) (fun same => by cases same) place rfl
          obtain ⟨ps, munches, run⟩ := others (p.spelling.toList.foldl Location.after loc)
          refine ⟨p :: ps, text ▸ .cons (text ▸ longest) munches, ?_⟩
          rw [first, run, kept, text, List.foldl_append]
          rfl

end PreprocState

/-! ### Whole sources -/

section

variable {defines : List (String × String)} {cs : List Char} {ts : List Token}

theorem tokenize_of_run (valid : (predefined defines).2 = []) (ascii : ∀ c ∈ cs, c.toNat < 128)
    {faults : List LexFault}
    (run : PreprocState.run { macros := (predefined defines).1 } true ⟨cs, .start⟩ =
      ⟨ts, [], faults⟩) :
    tokenize (String.ofList cs) defines =
      if faults = [] then .ok ⟨ts, []⟩ else .error (faults.map LexFault.diagnostic) := by
  unfold tokenize
  generalize predefined defines = given at valid run
  obtain ⟨macros, given⟩ := given
  subst valid
  dsimp only at run ⊢
  rw [Cursor.ofText, Text.toByteChars_ofList ascii, run, List.nil_append]
  cases faults <;> rfl

/-- Scanning undoes spelling. Tokens with blanks between them are read back as they were written,
unless a constant among them is none, as its value is too large or a digit not of its base; the
source is refused then for each of these. A punctuator is read only if it is the longest that
stands there, so that punctuators without blanks between them are split greedily. -/
theorem tokenize_spelled (defines : List (String × String)) (valid : (predefined defines).2 = []) :
    (∀ items : List (WrittenToken × Char), Spaced (predefined defines).1 items →
      NoDirective true items →
      ((∀ i ∈ items, i.1.kind? ≠ none) →
        tokenize (String.ofList (spelled items)) defines =
          .ok ⟨tokensOf (placed .start items) ++
            [⟨.eof, (spelled items).foldl Location.after .start⟩], []⟩) ∧
      ((∃ i ∈ items, i.1.kind? = none) →
        ∃ faults, tokenize (String.ofList (spelled items)) defines =
            .error (faults.map LexFault.diagnostic) ∧
          List.Forall₂ FaultOf (refusedOf (placed .start items)) faults)) ∧
    (∀ n : Numeral, n.kind? = none ↔ n.HasWrongDigit ∨ 2 ^ 64 ≤ n.value) ∧
    (∀ v < 2 ^ 64, ∀ base suffix, ∃ n : Numeral, n.WellFormed ∧ n.base = base ∧
      n.suffix = suffix ∧ n.kind? =
        some (.int v suffix.unsigned.isSome suffix.long.isSome (base == .decimal))) ∧
    (∀ (c next : Cursor) (p : Punct) (loc : Location),
      c.token? = some (.ok ⟨.punct p, loc⟩, next) →
      c.rest = p.spelling.toList ++ next.rest ∧ p.IsLongest c.rest) ∧
    ∀ ps : List Punct, ∀ cs, cs = ps.flatMap (·.spelling.toList) → NoComment cs →
      cs.head? ≠ some '#' → ∃ qs, Munches cs qs ∧
        tokenize (String.ofList cs) defines =
          .ok ⟨adjacent .start qs ++ [⟨.eof, cs.foldl Location.after .start⟩], []⟩ := by
  have outside : ({ macros := (predefined defines).1 } : PreprocState).conditionals = [] := rfl
  refine ⟨fun items spaced noDirective => ?_, Numeral.kind?_eq_none_iff,
    fun v low => Numeral.exists_of_value low, fun c next p loc => Punct.isLongest_of_token?,
    fun ps cs text plain noDirective => ?_⟩
  · obtain ⟨faults, run, places⟩ := PreprocState.run_spelled outside spaced noDirective .start
    have read := tokenize_of_run valid (ascii_spelled spaced) run
    refine ⟨fun all => ?_, fun ⟨i, member, refused⟩ => ⟨faults, ?_, places⟩⟩
    · rw [refusedOf_eq_nil all] at places
      cases places
      exact read
    · rw [read, if_neg]
      rintro rfl
      rw [List.forall₂_nil_right_iff] at places
      exact refusedOf_ne_nil member refused places
  · have signs : ∀ c ∈ cs, Punct.IsSign c := by
      intro c member
      rw [text] at member
      obtain ⟨p, -, member⟩ := List.mem_flatMap.mp member
      exact Punct.isSign_of_mem member
    have ascii : ∀ c ∈ cs, c.toNat < 128 := fun c member =>
      (signs c member).elim fun p member => p.ascii_spelling c member
    obtain ⟨qs, munches, run⟩ := PreprocState.run_adjacent outside signs plain
      (fun _ => noDirective) .start
    exact ⟨qs, munches, tokenize_of_run valid ascii run⟩

theorem tokenize_spelled_increment :
    tokenize (String.ofList ['x', ' ', '+', '=', '\t', '0', '3', '7', '7', 'U', '\n', ';']) [] =
      .ok ⟨[⟨.ident "x", ⟨1, 1⟩⟩, ⟨.punct .plusAssign, ⟨1, 3⟩⟩, ⟨.int 255 true false false, ⟨1, 6⟩⟩,
        ⟨.punct .semicolon, ⟨2, 1⟩⟩, ⟨.eof, ⟨2, 2⟩⟩], []⟩ := by
  let mask : Numeral := ⟨.octal, ⟨3, false⟩, [⟨7, false⟩, ⟨7, false⟩], ⟨some true, none, false⟩⟩
  let items : List (WrittenToken × Char) := [(.identifier "x", ' '), (.punctuator .plusAssign, '\t'),
    (.integer mask, '\n'), (.punctuator .semicolon, ' ')]
  have spaced : Spaced (predefined []).1 items := by
    refine ⟨?_, fun _ _ _ _ => rfl, by decide⟩
    simp only [items, List.forall_mem_cons]
    refine ⟨⟨by decide, fun kw => by cases kw <;> decide⟩, trivial, ?_, trivial,
      List.forall_mem_nil _⟩
    exact (by decide : mask.WellFormed)
  have text : spelled items =
      ['x', ' ', '+', '=', '\t', '0', '3', '7', '7', 'U', '\n', ';'] := by decide
  have tokens : tokensOf (placed .start items) =
      [⟨.ident "x", ⟨1, 1⟩⟩, ⟨.punct .plusAssign, ⟨1, 3⟩⟩, ⟨.int 255 true false false, ⟨1, 6⟩⟩,
        ⟨.punct .semicolon, ⟨2, 1⟩⟩] := by decide
  have read := ((tokenize_spelled [] rfl).1 items spaced (by decide)).1 (by decide)
  rw [tokens, text] at read
  exact read

end

end LiveC

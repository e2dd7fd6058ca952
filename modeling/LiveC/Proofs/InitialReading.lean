import LiveC.Proofs.InitialSyntax

/-!
Reading initialisers. Whether the object is static or local, what is accepted is read as what the
initialiser says of the object: the same completed type, and one item or several for the value of
each of its parts.
-/

namespace LiveC

/-- What the value of a part is as a converted expression. -/
def Leaf.Is (strings : List (List UInt8)) : Leaf → Expr → Prop
  | .text .., _ => False
  | .value literal, e => e.Is literal
  | .address ty bytes, e => ∃ length loc id, strings[id]? = some bytes ∧
      e = (Expr.addrOf ⟨.pointer (.int .char), loc⟩
        (.str ⟨.array (.int .char) (some length), loc⟩ id)).convert ty ∧
      Expr.castable (.pointer (.int .char)) ty = true

section

variable {ι : Type} (form : InitForm ι)

/-- What the values of the parts of an object yield in a form, where string literals are recorded. -/
inductive Yielded (strings : List (List UInt8)) : List (Nat × Leaf) → List ι → Prop where
  | nil : Yielded strings [] []
  | text {leaves : List (Nat × Leaf)} {items : List ι} (element : CType) (length : Option Nat)
      (offset : Nat) (bytes : List UInt8) (loc : Location) : element.isCharacter = true →
      Yielded strings leaves items →
      Yielded strings ((offset, .text element length bytes) :: leaves)
        (form.string element length offset bytes loc ++ items)
  | scalar {leaves : List (Nat × Leaf)} {items : List ι} {leaf : Leaf} {e : Expr} {item : ι}
      {offset : Nat} {loc : Location} {ws ws' : List SemanticNotice} : leaf.Is strings e →
      e.ty.isScalar = true → form.scalar e.ty offset e loc ws = .ok (item, ws') →
      Yielded strings leaves items → Yielded strings ((offset, leaf) :: leaves) (item :: items)

variable {form} {strings more : List (List UInt8)} {leaves others : List (Nat × Leaf)}
  {items rest : List ι}

theorem Yielded.append (h : Yielded form strings leaves items)
    (k : Yielded form strings others rest) :
    Yielded form strings (leaves ++ others) (items ++ rest) := by
  induction h with
  | nil => exact k
  | text element length offset bytes loc character _ ih =>
      rw [List.append_assoc]
      exact .text element length offset bytes loc character ih
  | scalar leaf scalar run _ ih => exact .scalar leaf scalar run ih

theorem getElem?_of_prefix {α : Type} {xs ys : List α} (le : xs <+: ys) {k : Nat} {x : α}
    (found : xs[k]? = some x) : ys[k]? = some x := by
  obtain ⟨inside, here⟩ := List.getElem?_eq_some_iff.mp found
  exact here ▸ List.prefix_iff_getElem?.mp le k inside

theorem Leaf.Is.mono {leaf : Leaf} {e : Expr} (h : leaf.Is strings e) (le : strings <+: more) :
    leaf.Is more e := by
  cases leaf with
  | text => exact h
  | value => exact h
  | address ty bytes =>
      obtain ⟨length, loc, id, found, same, castable⟩ := h
      exact ⟨length, loc, id, getElem?_of_prefix le found, same, castable⟩

theorem Yielded.mono (h : Yielded form strings leaves items) (le : strings <+: more) :
    Yielded form more leaves items := by
  induction h with
  | nil => exact .nil
  | text element length offset bytes loc character _ ih =>
      exact .text element length offset bytes loc character ih
  | scalar leaf scalar run _ ih => exact .scalar (leaf.mono le) scalar run ih

end

namespace Parser

variable {s t : ParserState} {n : Nat} {more ks : List TokenKind} {ι : Type} {form : InitForm ι}
  {init : Nat → CType → Nat → Parser (CType × List ι)} {ty : CType} {offset : Nat}

/-! ### Forms of initialisers -/

/-- What reads the initialisers of a form at each level of nesting. -/
structure Initialises (form : InitForm ι)
    (init : Nat → CType → Nat → Parser (CType × List ι)) : Prop where
  refused (ty : CType) (offset : Nat) (s : ParserState) : ∃ e t, init 0 ty offset s = .error e t
  step (n : Nat) : init (n + 1) = initializer (productions n) form (init n)
  moves (n : Nat) (ty : CType) (offset : Nat) :
    Moves strings_transition.toTransition (init n ty offset)

theorem initialises_static : Initialises .static fun n => (productions n).staticInit where
  refused _ _ _ := ⟨_, _, rfl⟩
  step _ := rfl
  moves n := (productions_moving n).staticInit

theorem initialises_automatic : Initialises .automatic fun n => (productions n).localInit where
  refused _ _ _ := ⟨_, _, rfl⟩
  step _ := rfl
  moves n := (productions_moving n).localInit

theorem strings_of_run {α : Type} {p : Parser α} {a : α}
    (moves : Moves strings_transition.toTransition p) (run : p s = .ok a t) :
    s.unit.strings <+: t.unit.strings := by
  have moved := moves s
  rw [run] at moved
  exact moved.1.2

/-! ### Scalars -/

/-- What the value of a scalar yields. -/
theorem scalar_yields {i : Initial} {e : Expr} (denotes : Denotes i e s) (loc : Location) :
    Typing.Yields (do form.scalar ty offset (← e.assignConvert ty loc) loc) fun item =>
      ∃ leaf, i.leaf? ty = some leaf ∧ Yielded form s.unit.strings [(offset, leaf)] [item] := by
  refine (e.assignConvert_converts ty loc).bind ?_
  rintro _ ⟨rfl, castable, scalar⟩ ws item ws' run
  have yielded {leaf : Leaf} (h : leaf.Is s.unit.strings (e.rvalue.convert ty)) :
      Yielded form s.unit.strings [(offset, leaf)] [item] :=
    .scalar h (by rwa [Expr.ty_convert]) (by rwa [Expr.ty_convert]) .nil
  cases i with
  | value c =>
      have literal : e.Is c.literal := denotes
      rw [literal.rvalue] at castable yielded
      exact ⟨_, rfl, yielded (literal.convert scalar castable)⟩
  | text first others =>
      obtain ⟨length, place, id, rfl, found⟩ := denotes
      exact ⟨_, rfl, yielded ⟨length, place, id, found, rfl, castable⟩⟩
  | braces => exact denotes.elim

theorem Denotes.mono {i : Initial} {e : Expr} (h : Denotes i e s)
    (le : s.unit.strings <+: t.unit.strings) : Denotes i e t := by
  cases i with
  | value => exact h
  | text =>
      obtain ⟨length, loc, id, same, found⟩ := h
      exact ⟨length, loc, id, same, getElem?_of_prefix le found⟩
  | braces => exact h

/-- The item of a scalar whose operand was read. -/
theorem item_run {i : Initial} {e : Expr} {loc : Location} {item : ι} (denotes : Denotes i e s)
    (run : typed (do form.scalar ty offset (← e.assignConvert ty loc) loc) s = .ok item t) :
    t.kinds = s.kinds ∧ ∃ leaf, i.leaf? ty = some leaf ∧
      Yielded form t.unit.strings [(offset, leaf)] [item] := by
  obtain ⟨⟨leaf, value, yielded⟩, same⟩ := typed_ok (scalar_yields denotes loc) run
  exact ⟨same, leaf, value, yielded.mono (strings_of_run (typed_moves _) run)⟩

theorem eat_ok {p : Punct} {k : TokenKind} {eaten : Bool} (h : s.kinds = k :: ks)
    (run : eat p s = .ok eaten t) :
    t.unit = s.unit ∧ (k = .punct p ∧ eaten = true ∧ t.kinds = ks ∨
      k ≠ .punct p ∧ eaten = false ∧ t.kinds = k :: ks) := by
  by_cases here : k = .punct p
  · subst here
    cases (eat_here h).symm.trans run
    exact ⟨rfl, .inl ⟨rfl, rfl, kinds_tail h⟩⟩
  · cases (eat_other h here).symm.trans run
    exact ⟨rfl, .inr ⟨here, rfl, h⟩⟩

theorem not_startsValue_brace {p : Punct} (brace : p = .lbrace ∨ p = .rbrace) :
    ¬StartsValue (.punct p) := by
  intro value
  generalize kind : TokenKind.punct p = k at value
  cases value with
  | sign sign => obtain rfl | rfl := brace <;> cases sign <;> cases kind
  | int | float | char | str | lparen => obtain rfl | rfl := brace <;> cases kind

/-- Only a brace list begins with a brace. -/
theorem braces_of_kinds {i : Initial} (h : i.kinds = .punct .lbrace :: ks) :
    ∃ items trailing, i = .braces items trailing := by
  cases i with
  | value c =>
      obtain ⟨k, ks', first, value⟩ := exists_kinds c
      cases first.symm.trans h
      exact (not_startsValue_brace (.inl rfl) value).elim
  | text => cases h
  | braces items trailing => exact ⟨_, _, rfl⟩

/-- What is behind an element of a brace list. -/
theorem behind_element (rest : List Initial) (trailing : Bool) (more : List TokenKind) :
    ∃ p ks, (if rest.isEmpty && !trailing then [] else [.punct .comma]) ++
        Initial.listKinds rest trailing ++ .punct .rbrace :: more = .punct p :: ks ∧
      Ending (.punct p :: ks) ∧
      (p = .rbrace ∧ rest = [] ∧ trailing = false ∧ ks = more ∨
        p = .comma ∧ ks = Initial.listKinds rest trailing ++ .punct .rbrace :: more) := by
  by_cases last : (rest.isEmpty && !trailing) = true
  · obtain ⟨empty, open'⟩ := Bool.and_eq_true_iff.mp last
    obtain rfl := List.isEmpty_iff.mp empty
    rw [if_pos last]
    exact ⟨_, _, rfl, ⟨_, _, rfl, .inr (.inr (.inl rfl))⟩,
      .inl ⟨rfl, rfl, (Bool.not_eq_true' _).mp open', rfl⟩⟩
  · rw [if_neg last]
    exact ⟨_, _, rfl, ⟨_, _, rfl, .inl rfl⟩, .inr ⟨rfl, rfl⟩⟩

/-- The end of the list behind its last element. -/
theorem close_run {rest : List Initial} {trailing : Bool} {eaten : Bool} {u : ParserState}
    (kinds : s.kinds = (if rest.isEmpty && !trailing then [] else [.punct .comma]) ++
        Initial.listKinds rest trailing ++ .punct .rbrace :: more)
    (comma : eat .comma s = .ok eaten u) (closed : expect .rbrace u = .ok () t) :
    rest = [] ∧ t.kinds = more := by
  obtain ⟨p, ks, front, -, behind⟩ := behind_element rest trailing more
  obtain ⟨-, ⟨here, -, left⟩ | ⟨other, -, left⟩⟩ := eat_ok (kinds.trans front) comma
  · obtain ⟨brace, -⟩ | ⟨-, rfl⟩ := behind
    · cases here.symm.trans (congrArg _ brace)
    · cases rest with
      | nil => exact ⟨rfl, (expect_ok left closed).2⟩
      | cons j rest =>
          obtain ⟨k, ks, first, starts⟩ := exists_initial j
          rw [Initial.listKinds, first] at left
          obtain ⟨rfl, -⟩ := expect_ok left closed
          exact (starts.resolve_left nofun |> not_startsValue_brace (.inr rfl)).elim
  · obtain ⟨rfl, rfl, -, rfl⟩ | ⟨comma, -⟩ := behind
    · exact ⟨rfl, (expect_ok left closed).2⟩
    · exact absurd (congrArg _ comma) other

/-- What reading a scalar comes to. -/
theorem scalar_run {i : Initial} {r : CType × List ι}
    (notArray : ty.isArray = false)
    (run : initializer (productions n) form (init n) ty offset s = .ok r t)
    (kinds : s.kinds = i.kinds ++ more) (ending : Ending more) :
    t.kinds = more ∧ ∃ leaf, i.leaf? ty = some leaf ∧ r.1 = ty ∧
      Yielded form t.unit.strings [(offset, leaf)] r.2 := by
  rw [initializer] at run
  obtain ⟨loc, _, seen, run⟩ := bind_eq_ok run
  cases seen
  split at run
  case h_1 => cases notArray
  obtain ⟨braced, u, opened, run⟩ := bind_eq_ok run
  obtain ⟨e, v, read, run⟩ := bind_eq_ok run
  obtain ⟨k, ks, first, starts⟩ := exists_initial i
  rw [first] at kinds
  obtain ⟨-, ⟨rfl, rfl, inside⟩ | ⟨other, rfl, same⟩⟩ := eat_ok kinds opened
  · obtain ⟨items, trailing, rfl⟩ := braces_of_kinds first
    cases items with
    | nil =>
        obtain rfl : ks = [.punct .rbrace] := (List.cons.inj first).2.symm
        exact (assignment_brace inside (.inr rfl) read).elim
    | cons j rest =>
        obtain rfl : ks = Initial.listKinds (j :: rest) trailing ++ [.punct .rbrace] :=
          (List.cons.inj first).2.symm
        obtain ⟨p, tail, front, ends, -⟩ := behind_element rest trailing more
        have inner : u.kinds = j.kinds ++ .punct p :: tail := by
          rw [inside, ← front]
          simp [Initial.listKinds]
        obtain ⟨left, denotes⟩ := reads_operand n j inner ends read
        rw [if_pos rfl] at run
        obtain ⟨eaten, w, comma, run⟩ := bind_eq_ok run
        obtain ⟨_, x, closed, run⟩ := bind_eq_ok run
        obtain ⟨item, y, typed, last⟩ := bind_eq_ok run
        cases last
        obtain ⟨rfl, kept⟩ := close_run (left.trans front.symm) comma closed
        have le := (strings_of_run (eat_moves _) comma).trans (strings_of_run (expect_moves _) closed)
        obtain ⟨same, leaf, value, yielded⟩ := item_run (denotes.mono le) typed
        refine ⟨same.trans kept, leaf, ?_, rfl, yielded⟩
        cases j with
        | value | text => exact value
        | braces => exact denotes.elim
  · rw [if_neg Bool.false_ne_true] at run
    obtain ⟨item, w, typed, last⟩ := bind_eq_ok run
    cases last
    have front : u.kinds = i.kinds ++ more := by rw [same, first]; rfl
    obtain ⟨left, denotes⟩ := reads_operand n i front ending read
    obtain ⟨kept, leaf, value, yielded⟩ := item_run denotes typed
    exact ⟨kept.trans left, leaf, value, rfl, yielded⟩

/-! ### Strings for arrays of characters -/

theorem check_other {p : Punct} {k : TokenKind} (h : s.kinds = k :: ks) (other : k ≠ .punct p) :
    check p s = .ok false s := by
  rw [check_eq h, beq_eq_false_iff_ne.mpr other]

theorem not_string_of_constant {c : Constant} {k : TokenKind} (h : c.kinds = k :: ks)
    (bytes : List UInt8) : k ≠ .str bytes := by
  cases c <;> cases h <;> nofun

theorem peekIsString_str {bytes : List UInt8} (h : s.kinds = .str bytes :: ks) :
    peekIsString s = .ok true s := by
  rw [peekIsString, peek_run, front_of_kinds h]
  rfl

theorem peekIsString_other {k : TokenKind} (h : s.kinds = k :: ks) (other : ∀ bytes, k ≠ .str bytes) :
    peekIsString s = .ok false s := by
  rw [peekIsString, peek_run, front_of_kinds h]
  cases k with
  | str bytes => exact absurd rfl (other bytes)
  | _ => rfl

/-- What looking for a string comes to: the string that an initialiser is, for characters, or
nothing, and then nothing is read. -/
def StringFound (i : Initial) (element : CType) (more : List TokenKind) (s : ParserState)
    (r : Option (List UInt8)) (t : ParserState) : Prop :=
  (element.isCharacter = true ∧ r.isSome = true ∧ i.bytes? = r ∧ t.kinds = more) ∨
    (r = none ∧ s = t ∧ (element.isCharacter = true → i.bytes? = none))

section

variable {element : CType} {r : Option (List UInt8)}

/-- No string begins with a constant. -/
theorem stringForArray_value {c : Constant} (kinds : s.kinds = c.kinds ++ more)
    (run : stringForArray element s = .ok r t) : StringFound (.value c) element more s r t := by
  rw [stringForArray] at run
  obtain ⟨k, ks, first, value⟩ := exists_kinds c
  have front : s.kinds = k :: (ks ++ more) := by rw [kinds, first]; rfl
  have other : k ≠ .punct .lbrace := by
    rintro rfl
    exact not_startsValue_brace (.inl rfl) value
  rw [bind_ok (check_other front other)] at run
  obtain ⟨_, _, seen, run⟩ := bind_eq_ok run
  cases seen
  dsimp only at run
  rw [bind_ok (peekIsString_other front (not_string_of_constant first))] at run
  simp only [Bool.false_and, Bool.or_self, Bool.and_false, Bool.false_eq_true, if_false] at run
  cases run
  exact .inr ⟨rfl, rfl, fun _ => rfl⟩

/-- Strings that no brace is in front of. -/
theorem stringForArray_text {first : List UInt8} {others : List (List UInt8)}
    (kinds : s.kinds = (Initial.text first others).kinds ++ more) (ending : Ending more)
    (run : stringForArray element s = .ok r t) :
    StringFound (.text first others) element more s r t := by
  rw [stringForArray] at run
  rw [bind_ok (check_other kinds (by simp))] at run
  obtain ⟨_, _, seen, run⟩ := bind_eq_ok run
  cases seen
  dsimp only at run
  rw [bind_ok (peekIsString_str kinds)] at run
  simp only [Bool.false_and, Bool.or_false, Bool.and_true, Bool.false_eq_true, if_false] at run
  rw [← CType.isCharacter] at run
  by_cases character : element.isCharacter = true
  · rw [if_pos character] at run
    obtain ⟨u, read, left⟩ := adjacentStrings_run (first :: others) [] kinds ending
    rw [bind_ok read] at run
    cases run
    exact .inl ⟨character, rfl, rfl, left⟩
  · rw [if_neg character] at run
    cases run
    exact .inr ⟨rfl, rfl, fun yes => absurd yes character⟩

/-- Behind a brace that no string is behind, nothing is read. -/
theorem stringForArray_plain {k : TokenKind} (front : s.kinds = .punct .lbrace :: k :: ks)
    (other : ∀ bytes, k ≠ .str bytes) (run : stringForArray element s = .ok r t) :
    r = none ∧ t = s := by
  rw [stringForArray, bind_ok (check_eq front), beq_self_eq_true] at run
  obtain ⟨_, _, seen, run⟩ := bind_eq_ok run
  cases seen
  dsimp only at run
  rw [bind_ok (peekIsString_other front nofun), second_of_kinds front] at run
  cases k with
  | str bytes => exact absurd rfl (other bytes)
  | _ =>
    dsimp only at run
    simp only [Bool.false_or, Bool.and_false, Bool.false_eq_true, if_false] at run
    cases run
    exact ⟨rfl, rfl⟩

/-- Strings behind a brace. For characters another brace must be behind them. -/
theorem stringForArray_braced {first : List UInt8} {others : List (List UInt8)} {p : Punct}
    (front : s.kinds = .punct .lbrace :: ((Initial.text first others).kinds ++ .punct p :: ks))
    (ends : Ending (.punct p :: ks)) (run : stringForArray element s = .ok r t) :
    (element.isCharacter = true ∧ r = some (first :: others).flatten ∧ p = .rbrace ∧ t.kinds = ks) ∨
      (r = none ∧ s = t ∧ element.isCharacter ≠ true) := by
  rw [stringForArray, bind_ok (check_eq front), beq_self_eq_true] at run
  obtain ⟨_, _, seen, run⟩ := bind_eq_ok run
  cases seen
  dsimp only at run
  rw [bind_ok (peekIsString_other front nofun), second_of_kinds front] at run
  dsimp only at run
  simp only [Bool.false_or, Bool.and_true, if_true] at run
  rw [← CType.isCharacter] at run
  by_cases character : element.isCharacter = true
  · rw [if_pos character, next_run] at run
    obtain ⟨u, read, left⟩ := adjacentStrings_run (first :: others) [] (kinds_tail front) ends
    rw [bind_ok read] at run
    obtain ⟨_, v, closed, last⟩ := bind_eq_ok run
    cases last
    obtain ⟨here, kept⟩ := expect_ok left closed
    cases here
    exact .inl ⟨character, rfl, rfl, kept⟩
  · rw [if_neg character] at run
    cases run
    exact .inr ⟨rfl, rfl, character⟩

/-- Looking for a string finds the one that an initialiser is. -/
theorem stringForArray_run {i : Initial} (kinds : s.kinds = i.kinds ++ more) (ending : Ending more)
    (run : stringForArray element s = .ok r t) : StringFound i element more s r t := by
  cases i with
  | value c => exact stringForArray_value kinds run
  | text first others => exact stringForArray_text kinds ending run
  | braces items trailing =>
      have absent {k : TokenKind} {ks : List TokenKind} (front : s.kinds = .punct .lbrace :: k :: ks)
          (other : ∀ bytes, k ≠ .str bytes) (none : (Initial.braces items trailing).bytes? = none) :
          StringFound (.braces items trailing) element more s r t := by
        obtain ⟨rfl, rfl⟩ := stringForArray_plain front other run
        exact .inr ⟨rfl, rfl, fun _ => none⟩
      cases items with
      | nil => exact absent kinds nofun rfl
      | cons j rest =>
          obtain ⟨p, tail, closes, ends, behind⟩ := behind_element rest trailing more
          have front : s.kinds = .punct .lbrace :: (j.kinds ++ .punct p :: tail) := by
            rw [kinds, ← closes]
            simp [Initial.kinds, Initial.listKinds]
          cases j with
          | value c =>
              obtain ⟨k, ks, first, -⟩ := exists_kinds c
              rw [Initial.kinds, first] at front
              exact absent front (not_string_of_constant first) rfl
          | braces => exact absent front nofun rfl
          | text first others =>
              obtain ⟨character, rfl, closing, kept⟩ | ⟨rfl, rfl, other⟩ :=
                stringForArray_braced front ends run
              · obtain ⟨rfl, rfl, rfl, rfl⟩ | ⟨rfl, -⟩ := behind
                · exact .inl ⟨character, rfl, rfl, kept⟩
                · cases closing
              · exact .inr ⟨rfl, rfl, fun yes => absurd yes other⟩

end

/-! ### Brace lists -/

theorem iterate_ok {β : Type} {step : β → Parser (ForInStep β)} {b c : β}
    (run : iterate step b s = .ok c t) :
    step b s = .ok (.done c) t ∨ ∃ b' u, step b s = .ok (.yield b') u ∧
      (iterate step b' u = .ok c t ∨ s.rest.length ≤ u.rest.length) := by
  rw [iterate] at run
  split at run
  case h_1 => cases run
  case h_2 b' u one =>
    cases run
    exact .inl one
  case h_3 b' u one =>
    refine .inr ⟨b', u, one, ?_⟩
    split at run
    case isTrue => exact .inl run
    case isFalse longer => exact .inr (Nat.le_of_not_lt longer)

/-- A production of initialisers reads one as it says. -/
def ReadsInitials (form : InitForm ι) (init : CType → Nat → Parser (CType × List ι)) : Prop :=
  ∀ ⦃i : Initial⦄ ⦃ty : CType⦄ ⦃offset : Nat⦄ ⦃s t r more⦄, s.kinds = i.kinds ++ more → Ending more →
    init ty offset s = .ok r t → t.kinds = more ∧
      ∃ leaves, i.read ty offset = some (r.1, leaves) ∧ Yielded form t.unit.strings leaves r.2

theorem elementStep_ok {element : Nat → Parser (List ι)} {length : Option Nat} {k : TokenKind}
    {read : Nat × List ι} {r : ForInStep (Nat × List ι)} (kinds : s.kinds = k :: ks)
    (other : k ≠ .punct .rbrace) (run : elementStep element length read s = .ok r t) :
    length.any (· ≤ read.1) = false ∧ ∃ added u eaten, element read.1 s = .ok added u ∧
      eat .comma u = .ok eaten t ∧ r = if eaten then .yield (read.1 + 1, read.2 ++ added)
        else .done (read.1 + 1, read.2 ++ added) := by
  rw [elementStep, bind_ok (check_other kinds other), if_neg Bool.false_ne_true] at run
  split at run
  case isTrue =>
    obtain ⟨_, _, seen, run⟩ := bind_eq_ok run
    obtain ⟨_, _, seen, run⟩ := bind_eq_ok run
    cases seen
  case isFalse fits =>
    obtain ⟨added, u, element, run⟩ := bind_eq_ok run
    obtain ⟨eaten, v, comma, run⟩ := bind_eq_ok run
    refine ⟨Bool.not_eq_true _ ▸ fits, added, u, eaten, element, ?_⟩
    cases eaten <;>
    · cases run
      exact ⟨comma, rfl⟩

theorem elementStep_moves {R : ParserState → ParserState → Prop} {T : Transition R}
    {element : Nat → Parser (List ι)} (h : ∀ i, Moves T (element i)) (length : Option Nat)
    (read : Nat × List ι) : Moves T (elementStep element length read) := by
  refine (check_moves _).skip fun _ => .ite (fun _ => .done) fun _ => ?_
  refine .ite (fun _ => loc_moves.skip fun _ => .throw_bind) fun _ => ?_
  exact (h _).skip fun _ => (eat_moves _).skip fun _ => .ite (fun _ => .done) fun _ => .done

theorem length_lt_of_kinds {u : ParserState} {k : TokenKind} {front : List TokenKind}
    (h : s.kinds = k :: (front ++ u.kinds)) : u.rest.length < s.rest.length := by
  have lengths := congrArg List.length h
  simp only [ParserState.kinds, List.length_map, List.length_append, List.length_cons] at lengths
  omega

section

variable {read : CType → Nat → Parser (CType × List ι)} {element : CType} {length : Option Nat}
  (reads : ReadsInitials form read)
include reads

/-- An element of a brace list, and the comma behind it. -/
theorem element_run {j : Initial} {rest : List Initial} {trailing : Bool} {count : Nat}
    {done : List ι} {r : ForInStep (Nat × List ι)}
    (kinds : s.kinds = Initial.listKinds (j :: rest) trailing ++ .punct .rbrace :: more)
    (run : elementStep (fun i => return (← read element (offset + i * element.size)).2) length
      (count, done) s = .ok r t) :
    length.any (· ≤ count) = false ∧ ∃ ty leaves added,
      j.read element (offset + count * element.size) = some (ty, leaves) ∧
      Yielded form t.unit.strings leaves added ∧
      (rest = [] ∧ t.kinds = .punct .rbrace :: more ∧ r = .done (count + 1, done ++ added) ∨
        t.rest.length < s.rest.length ∧ r = .yield (count + 1, done ++ added) ∧
          t.kinds = Initial.listKinds rest trailing ++ .punct .rbrace :: more) := by
  obtain ⟨p, tail, closes, ends, behind⟩ := behind_element rest trailing more
  have front : s.kinds = j.kinds ++ .punct p :: tail := by
    rw [kinds, ← closes]
    simp [Initial.listKinds]
  obtain ⟨k, ks, first, starts⟩ := exists_initial j
  have begins : s.kinds = k :: (ks ++ .punct p :: tail) := by rw [front, first]; rfl
  have other : k ≠ .punct .rbrace := by
    rintro rfl
    exact not_startsValue_brace (.inr rfl) (starts.resolve_left nofun)
  obtain ⟨fits, added, u, eaten, one, comma, rfl⟩ := elementStep_ok begins other run
  obtain ⟨found, v, inner, last⟩ := bind_eq_ok one
  cases last
  obtain ⟨left, leaves, said, yielded⟩ := reads front ends inner
  refine ⟨fits, _, leaves, _, said, yielded.mono (strings_of_run (eat_moves _) comma), ?_⟩
  obtain ⟨-, ⟨same, rfl, passed⟩ | ⟨different, rfl, stays⟩⟩ := eat_ok left comma
  · obtain ⟨rfl, -⟩ | ⟨-, rfl⟩ := behind
    · cases same
    · rw [List.append_cons, ← passed] at begins
      exact .inr ⟨length_lt_of_kinds begins, rfl, passed⟩
  · obtain ⟨rfl, rfl, -, rfl⟩ | ⟨rfl, -⟩ := behind
    · exact .inl ⟨rfl, stays, rfl⟩
    · exact absurd rfl different

variable (moves : ∀ ty offset, Moves strings_transition.toTransition (read ty offset))
include moves

/-- The elements of a brace list. -/
theorem elements_run (items : List Initial) (trailing : Bool) {count : Nat} {done : List ι}
    {r : Nat × List ι}
    (kinds : s.kinds = Initial.listKinds items trailing ++ .punct .rbrace :: more)
    (run : iterate (elementStep (fun i => return (← read element (offset + i * element.size)).2)
      length) (count, done) s = .ok r t) :
    t.kinds = .punct .rbrace :: more ∧ r.1 = count + items.length ∧
      (items ≠ [] → length.any (· < count + items.length) = false) ∧
      ∃ leaves added, Initial.readItems items element (offset + count * element.size) = some leaves ∧
        r.2 = done ++ added ∧ Yielded form t.unit.strings leaves added := by
  induction items generalizing count done s with
  | nil =>
      have one : elementStep (fun i => return (← read element (offset + i * element.size)).2) length
          (count, done) s = .ok (.done (count, done)) s := by
        rw [elementStep, bind_ok (check_eq kinds)]
        rfl
      cases (iterate_done one).symm.trans run
      exact ⟨kinds, rfl, absurd rfl, [], [], rfl, (List.append_nil _).symm, .nil⟩
  | cons j rest ih =>
      obtain one | ⟨next, u, one, run⟩ := iterate_ok run
      · obtain ⟨fits, ty, leaves, added, said, yielded, ⟨rfl, left, same⟩ | ⟨-, same, -⟩⟩ :=
          element_run reads kinds one
        · cases same
          refine ⟨left, rfl, fun _ => ?_, leaves, added, ?_, rfl, yielded⟩
          · simpa [Nat.lt_succ_iff] using fits
          · rw [Initial.readItems, said, Initial.readItems]
            exact congrArg some (List.append_nil _)
        · cases same
      · obtain ⟨fits, ty, leaves, added, said, yielded, ⟨-, -, same⟩ | ⟨shorter, same, left⟩⟩ :=
          element_run reads kinds one
        · cases same
        · cases same
          obtain ⟨closed, number, within, others, more, given, all, others'⟩ :=
            ih left (run.resolve_right (Nat.not_le_of_lt shorter))
          have le : u.unit.strings <+: t.unit.strings := by
            refine strings_of_run (Moves.iterate (elementStep_moves (fun i => ?_) length) _)
              (run.resolve_right (Nat.not_le_of_lt shorter))
            exact (moves element _).skip fun _ => .done
          refine ⟨closed, number.trans (Nat.succ_add_eq_add_succ count _), fun _ => ?_,
            leaves ++ others, added ++ more, ?_, all.trans (List.append_assoc ..),
            (yielded.mono le).append others'⟩
          · cases rest with
            | nil => simpa [Nat.lt_succ_iff] using fits
            | cons =>
                rw [List.length_cons, ← Nat.succ_add_eq_add_succ]
                exact within (List.cons_ne_nil _ _)
          · rw [Nat.succ_mul, ← Nat.add_assoc] at given
            rw [Initial.readItems, said, given]

end

/-- What reading an array comes to. -/
theorem array_run {read : CType → Nat → Parser (CType × List ι)} (reads : ReadsInitials form read)
    (moves : ∀ ty offset, Moves strings_transition.toTransition (read ty offset)) {i : Initial}
    {element : CType} {length : Option Nat} {r : CType × List ι}
    (run : initializer g form read (.array element length) offset s = .ok r t)
    (kinds : s.kinds = i.kinds ++ more) (ending : Ending more) :
    t.kinds = more ∧ ∃ leaves, i.read (.array element length) offset = some (r.1, leaves) ∧
      Yielded form t.unit.strings leaves r.2 := by
  rw [initializer] at run
  obtain ⟨loc, _, seen, run⟩ := bind_eq_ok run
  cases seen
  obtain ⟨string, u, found, run⟩ := bind_eq_ok run
  obtain ⟨character, isSome, same, left⟩ | ⟨rfl, rfl, plain⟩ :=
    stringForArray_run kinds ending found
  · obtain ⟨bytes, rfl⟩ := Option.isSome_iff_exists.mp isSome
    cases run
    refine ⟨left, _, i.read_string character same, ?_⟩
    rw [← List.append_nil (form.string ..)]
    exact .text element length offset bytes _ character .nil
  · dsimp only at run
    obtain ⟨eaten, u, opened, run⟩ := bind_eq_ok run
    obtain ⟨k, ks, first, -⟩ := exists_initial i
    have front : s.kinds = k :: (ks ++ more) := by rw [kinds, first]; rfl
    obtain ⟨-, ⟨rfl, rfl, inside⟩ | ⟨-, rfl, -⟩⟩ := eat_ok front opened
    · obtain ⟨items, trailing, rfl⟩ := braces_of_kinds first
      obtain rfl : ks = Initial.listKinds items trailing ++ [.punct .rbrace] :=
        (List.cons.inj first).2.symm
      rw [if_pos rfl] at run
      obtain ⟨read', v, inner, run⟩ := bind_eq_ok run
      obtain ⟨_, w, closed, last⟩ := bind_eq_ok run
      cases last
      rw [List.append_assoc] at inside
      obtain ⟨left, number, within, leaves, added, given, all, yielded⟩ :=
        elements_run reads moves items trailing inside inner
      have fits : length.any (· < items.length) = false := by
        cases items with
        | nil => cases length <;> rfl
        | cons => rw [← within (List.cons_ne_nil _ _), Nat.zero_add]
      rw [Nat.zero_mul, Nat.add_zero] at given
      refine ⟨(expect_ok left closed).2, leaves, ?_, ?_⟩
      · rw [Initial.read_list plain fits given, number, Nat.zero_add]
      · exact all ▸ yielded.mono (strings_of_run (expect_moves _) closed)
    · obtain ⟨_, _, refused, -⟩ := bind_eq_ok run
      cases refused

/-- Whatever the form, an initialiser that is accepted is read as what it says of the object. -/
theorem reads_initials (h : Initialises form init) (n : Nat) : ReadsInitials form (init n) := by
  induction n with
  | zero =>
      intro i ty offset s t r more kinds ending run
      obtain ⟨e, u, refused⟩ := h.refused ty offset s
      cases run.symm.trans refused
  | succ n ih =>
      intro i ty offset s t r more kinds ending run
      rw [h.step] at run
      cases isArray : ty.isArray with
      | true =>
          cases ty with
          | array element length => exact array_run ih (h.moves n) run kinds ending
          | void | int | double | pointer | function => cases isArray
      | false =>
          obtain ⟨left, leaf, value, same, yielded⟩ := scalar_run isArray run kinds ending
          exact ⟨left, _, by rw [same, i.read_scalar isArray value], yielded⟩

end Parser

end LiveC

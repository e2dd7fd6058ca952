import LiveC.Proofs.InitialItems
import LiveC.Proofs.ParserClosure
import LiveC.Proofs.StatementGrammar

/-!
Relations of the states in front of and behind a run of the parser. A relation of which the
elementary changes of the state are part holds of every run, also of one that fails.
-/

namespace LiveC

/-- What may become of a symbol. A function keeps its parameters, once they are known, and what it
returns, unless a definition without parameters hides them or a variable takes the name. -/
structure GlobalSymbol.Settles (old new : GlobalSymbol) : Prop where
  defined : old.defined = true → new.defined = true
  signature {t : Signature} : new.ty.signature? = some t → ∃ s, old.ty.signature? = some s ∧
    s.ret = t.ret ∧ (s = t ∨ s.unspecified = true ∧ old.defined = false ∨
      t.unspecified = true ∧ new.defined = true ∧ old.defined = false)

theorem GlobalSymbol.Settles.refl (symbol : GlobalSymbol) : symbol.Settles symbol :=
  ⟨id, fun found => ⟨_, found, rfl, .inl rfl⟩⟩

theorem GlobalSymbol.Settles.trans {a b c : GlobalSymbol} (h : a.Settles b) (k : b.Settles c) :
    a.Settles c := by
  refine ⟨k.defined ∘ h.defined, fun last => ?_⟩
  obtain ⟨t, middle, ret, later⟩ := k.signature last
  obtain ⟨s, first, ret', before⟩ := h.signature middle
  refine ⟨s, first, ret'.trans ret, ?_⟩
  have undefined (still : b.defined = false) : a.defined = false :=
    Bool.eq_false_iff.mpr fun done => Bool.eq_false_iff.mp still (h.defined done)
  obtain rfl | early | ⟨hidden, isDefined, fresh⟩ := before
  · obtain rfl | ⟨open', still⟩ | ⟨hidden, isDefined, still⟩ := later
    · exact .inl rfl
    · exact .inr (.inl ⟨open', undefined still⟩)
    · exact .inr (.inr ⟨hidden, isDefined, undefined still⟩)
  · exact .inr (.inl early)
  · obtain rfl | ⟨-, still⟩ | ⟨-, -, still⟩ := later
    · exact .inr (.inr ⟨hidden, k.defined isDefined, fresh⟩)
    · exact absurd (isDefined.symm.trans still) nofun
    · exact absurd (isDefined.symm.trans still) nofun

namespace SymbolTable

/-- What may become of the symbols of a table. -/
def Settles (a b : SymbolTable) : Prop :=
  ∀ name old, a.find? name = some old → ∃ new, b.find? name = some new ∧ old.Settles new

variable {table : SymbolTable} {name : String} {symbol : GlobalSymbol}

theorem settles_insert (h : ∀ old, table.find? name = some old → old.Settles symbol) :
    table.Settles (table.insert name symbol) := by
  intro other old found
  rw [SymbolTable.find?_insert]
  split
  case isTrue here =>
    subst here
    exact ⟨symbol, rfl, h old found⟩
  case isFalse => exact ⟨old, found, .refl old⟩

/-- A symbol of a new name. -/
theorem settles_insert_undeclared (h : table.find? name = none) :
    table.Settles (table.insert name symbol) :=
  settles_insert fun _ found => absurd (h.symm.trans found) nofun

/-- The symbol of a variable that is defined. -/
theorem settles_insert_variable (defined : symbol.defined = true)
    (isVariable : symbol.ty.signature? = none) : table.Settles (table.insert name symbol) :=
  settles_insert fun _ _ =>
    ⟨fun _ => defined, fun found => absurd (isVariable.symm.trans found) nofun⟩

end SymbolTable

/-- The type of an object is not that of a function. -/
theorem CType.signature?_of_isComplete {t : CType} (h : t.isComplete = true) :
    t.signature? = none := by
  cases t with
  | function => cases h
  | void | int | double | pointer | array => rfl

namespace Parser

/-- A relation of the states in front of and behind a run, of which the elementary changes of
the state inside of a function are part. Where the parser stands in its tokens makes no
difference to it. -/
structure Transition (R : ParserState → ParserState → Prop) : Prop where
  refl (s : ParserState) : R s s
  trans {s t u : ParserState} : R s t → R t u → R s u
  rest (s : ParserState) (rest : List Token) : R s { s with rest }
  warnings (s : ParserState) (warnings : List SemanticNotice) : R s { s with warnings }
  errors (s : ParserState) (e : SourceFault) : R s { s with errors := s.errors ++ [e] }
  bind (s : ParserState) (name : String) (b : Binding) :
    R s { s with scopes := s.scopes.bind name b }
  bindFile (s : ParserState) (name : String) (b : Binding) :
    R s { s with scopes := s.scopes.bindFile name b }
  symbol (s : ParserState) {name : String} {symbol : GlobalSymbol} :
    s.unit.symbols.Settles (s.unit.symbols.insert name symbol) →
      R s { s with unit := { s.unit with symbols := s.unit.symbols.insert name symbol } }
  strings (s : ParserState) (bytes : List UInt8) :
    R s { s with unit := { s.unit with strings := s.unit.strings ++ [bytes] } }
  locals (s : ParserState) (locals : List LocalVar) : R s { s with locals }
  staticLocals (s : ParserState) (staticLocals : Nat) : R s { s with staticLocals }
  global (s : ParserState) {v : GlobalVar} : v.Made →
    R s { s with unit := { s.unit with globals := s.unit.globals ++ [v] } }
  block {s t : ParserState} : R { s with scopes := s.scopes.openBlock } t →
    R s { t with scopes := t.scopes.closeBlock }
  loop {s t : ParserState} : R { s with loopDepth := s.loopDepth + 1 } t →
    R s { t with loopDepth := t.loopDepth - 1 }

variable {R : ParserState → ParserState → Prop} {α β : Type}

/-- A run moves on through the tokens. -/
def Transition.course (T : Transition R) : Course where
  le s t := t.rest <:+ s.rest ∧ R s t
  refl s := ⟨List.suffix_rfl, T.refl s⟩
  trans h k := ⟨k.1.trans h.1, T.trans h.2 k.2⟩
  within _ := True
  within_of_le _ _ := trivial
  valid _ := True

/-- Runs of the parser are part of the relation, also where they fail. -/
abbrev Moves (T : Transition R) (p : Parser α) : Prop := Keeps T.course True p fun _ => True

variable {T : Transition R} {g : Productions}

theorem Moves.modify {f : ParserState → ParserState} (rest : ∀ s, (f s).rest <:+ s.rest)
    (step : ∀ s, R s (f s)) : Moves T (modify f) :=
  Keeps.modify (fun s => ⟨rest s, step s⟩) fun _ _ _ _ => trivial

/-- A step of a run from a state, to tokens of which the parser may go back later. -/
theorem Ends.within {p : Parser α} {f : α → Parser β} {s t : ParserState} (passed : T.course.le s t)
    (h : Moves T p)
    (hf : ∀ a u, p t = .ok a u → T.course.le s u → Ends T.course True (fun _ => True) s (f a u)) :
    Ends T.course True (fun _ => True) s ((p >>= f) t) := by
  have run := h t
  simp only [Bind.bind, EStateM.bind]
  cases hp : p t with
  | error e u =>
      rw [hp] at run
      exact ⟨T.course.trans passed run.1, fun _ _ _ => trivial⟩
  | ok a u =>
      rw [hp] at run
      exact hf a u hp (T.course.trans passed run.1)

theorem bind_ok {α β : Type} {p : Parser α} {f : α → Parser β} {s t : ParserState} {a : α}
    (run : p s = .ok a t) : (p >>= f) s = f a t := by
  simp only [Bind.bind, EStateM.bind, run]

theorem bind_run {α β : Type} (p : Parser α) (f : α → Parser β) (s : ParserState) :
    (p >>= f) s = match p s with
      | .ok a t => f a t
      | .error e t => .error e t := by
  simp only [Bind.bind, EStateM.bind]
  cases p s <;> rfl

theorem tryCatch_run (p : Parser α) (handler : SourceFault → Parser α) (s : ParserState) :
    tryCatch p handler s = match p s with
      | .ok a t => .ok a t
      | .error e t => handler e t := by
  change EStateM.tryCatch p handler s = _
  delta EStateM.tryCatch
  cases p s <;> rfl

theorem Moves.iterate {step : β → Parser (ForInStep β)} (h : ∀ b, Moves T (step b)) (b : β) :
    Moves T (iterate step b) :=
  (Keeps.iterate (I := fun _ => True) (fun b => (h b).pre fun _ => trivial) b).pre
    fun _ => ⟨trivial, trivial⟩

theorem Moves.between {enter leave : ParserState → ParserState} {p : Parser α} (h : Moves T p)
    (enterRest : ∀ s, (enter s).rest = s.rest) (leaveRest : ∀ s, (leave s).rest = s.rest)
    (step : ∀ s t, R (enter s) t → R s (leave t)) : Moves T (between enter leave p) := by
  intro s
  have run := h (enter s)
  unfold Parser.between
  have behind {t : ParserState} (moved : T.course.le (enter s) t) : T.course.le s (leave t) := by
    refine ⟨?_, step s t moved.2⟩
    rw [leaveRest, ← enterRest s]
    exact moved.1
  cases hp : p (enter s) with
  | ok a t | error e t =>
      rw [hp] at run
      exact ⟨behind run.1, fun _ _ _ => by trivial⟩

/-! ### Elementary steps -/

theorem peek_moves : Moves T peek := Keeps.get.skip fun _ => .done

theorem next_moves : Moves T next :=
  peek_moves.skip fun _ => .skip
    (Moves.modify (fun s => List.tail_suffix s.rest) fun s => T.rest s _) fun _ => .done

theorem check_moves (p : Punct) : Moves T (check p) := peek_moves.skip fun _ => .done

theorem skipToClose_some {s : ParserState} {rest : List Token}
    (found : behindClose? 1 s.rest = some rest) (e : SyntaxError) :
    skipToClose e s = .ok () { s with rest } := by
  refine (get_bind _ s).trans ?_
  rw [found]
  rfl

theorem skipToClose_none {s : ParserState} (found : behindClose? 1 s.rest = none)
    (e : SyntaxError) : skipToClose e s = .error (.form s.endLoc e) { s with rest := [] } := by
  refine (get_bind _ s).trans ?_
  rw [found]
  rfl

theorem skipToClose_moves (e : SyntaxError) : Moves T (skipToClose e) := by
  intro s
  cases found : behindClose? 1 s.rest with
  | some rest =>
      rw [skipToClose_some found]
      exact ⟨⟨behindClose?_suffix found, T.rest s rest⟩, fun _ _ _ => ⟨trivial, trivial⟩⟩
  | none =>
      rw [skipToClose_none found]
      exact ⟨⟨List.nil_suffix, T.rest s []⟩, fun _ _ _ => trivial⟩

theorem recover_moves (inBlock : Bool) (e : SourceFault) : Moves T (recover inBlock e) :=
  Moves.modify (fun s => behindError_suffix inBlock 0 s.rest) fun s =>
    T.trans (T.errors s e) (T.rest _ _)

theorem warn_moves (loc : Location) (w : SemanticWarning) : Moves T (warn loc w) :=
  Moves.modify (fun _ => List.suffix_rfl) fun s => T.warnings s _

theorem typed_moves (t : Typing α) : Moves T (typed t) := by
  intro s
  unfold typed
  cases t.run s.warnings with
  | ok r => exact ⟨⟨List.suffix_rfl, T.warnings s _⟩, fun _ _ _ => ⟨trivial, trivial⟩⟩
  | error f => exact ⟨T.course.refl s, fun _ _ _ => trivial⟩

theorem addString_moves (bytes : List UInt8) : Moves T (addString bytes) :=
  fun s => ⟨⟨List.suffix_rfl, T.strings s _⟩, fun _ _ _ => ⟨trivial, trivial⟩⟩

theorem find?_moves (name : String) : Moves T (find? name) := Keeps.get.skip fun _ => .done

theorem bind_moves (name : String) (b : Binding) : Moves T (bind name b) :=
  Moves.modify (fun _ => List.suffix_rfl) fun s => T.bind s name b

theorem bindFile_moves (name : String) (b : Binding) : Moves T (bindFile name b) :=
  Moves.modify (fun _ => List.suffix_rfl) fun s => T.bindFile s name b

theorem setSymbol_moves {s : ParserState} {name : String} {symbol : GlobalSymbol}
    (h : s.unit.symbols.Settles (s.unit.symbols.insert name symbol)) :
    Ends T.course True (fun _ => True) s (setSymbol name symbol s) :=
  ⟨⟨List.suffix_rfl, T.symbol s h⟩, fun _ _ _ => ⟨trivial, trivial⟩⟩

theorem declareFunction_moves (name : String) (ty : CType) (isStatic : Bool) (loc : Location) :
    Moves T (declareFunction name ty isStatic loc) := by
  intro s
  unfold declareFunction
  rw [findSymbol?_bind]
  cases found : s.unit.symbols.find? name with
  | none => exact setSymbol_moves (SymbolTable.settles_insert_undeclared found)
  | some old =>
      dsimp only
      cases known : old.ty.signature? with
      | none => exact Keeps.throw s
      | some before =>
          cases signature : ty.signature? with
          | none => exact Keeps.throw s
          | some declared =>
              refine .guard fun compatible => .ite (fun replaced => ?_) fun _ => Keeps.done s
              simp only [Bool.not_eq_true', Bool.not_eq_false, Bool.and_eq_true,
                beq_iff_eq] at compatible replaced
              refine setSymbol_moves (SymbolTable.settles_insert fun other same => ?_)
              cases found.symm.trans same
              refine ⟨fun defined => defined, fun {t} last =>
                ⟨before, known, ?_, .inr (.inl replaced.symm)⟩⟩
              cases signature.symm.trans last
              exact compatible.1

theorem identifier_moves (name : String) (loc : Location) : Moves T (identifier name loc) := by
  refine (find?_moves name).skip fun b => ?_
  split
  case h_1 =>
    refine Keeps.get.skip fun s => ?_
    split
    · exact .done
    · exact .throw
  case h_2 symbol =>
    refine Keeps.skip (P := fun _ => True) (Keeps.get.skip fun _ => .done) fun s => ?_
    split
    · exact .done
    · exact .throw
  case h_3 => exact .throw
  case h_4 =>
    refine (check_moves _).skip fun _ => .ite (fun _ => ?_) fun _ => .throw
    refine (warn_moves _ _).skip fun _ => (declareFunction_moves _ _ _ _).skip fun _ => ?_
    exact (bindFile_moves _ _).skip fun _ => .done

/-- The parser goes back into the parentheses, but it ends behind the suffixes. -/
theorem nestedDeclarator_moves (expect : ∀ p, Moves T (expect p))
    (suffixes : ∀ base, Moves T (g.suffixes base))
    (declarator : ∀ base abstract, Moves T (g.declarator base abstract)) (base : CType)
    (abstract : Bool) : Moves T (nestedDeclarator g base abstract) := by
  refine next_moves.skip fun _ s => ?_
  rw [get_bind]
  refine .within (T.course.refl s) (skipToClose_moves _) fun _ t _ passed => ?_
  refine .within passed (suffixes base) fun ⟨outer, _⟩ t _ passed => ?_
  have back : T.course.le s { t with rest := s.rest } :=
    ⟨List.suffix_rfl, T.trans passed.2 (T.rest t s.rest)⟩
  change Ends T.course True (fun _ => True) s ((g.declarator outer abstract >>= fun d => do
    Parser.expect .rparen
    modify fun u => { u with rest := t.rest }
    return d) { t with rest := s.rest })
  refine .within back (declarator outer abstract) fun d u _ inside => ?_
  refine .within inside (expect _) fun _ u _ inside => ?_
  exact ⟨⟨passed.1, T.trans inside.2 (T.rest u t.rest)⟩, fun _ _ _ => ⟨trivial, trivial⟩⟩

/-- All that is put together from the elementary steps moves on. -/
theorem Transition.closed (T : Transition R) : Closed (fun {α} (p : Parser α) => Moves T p) where
  pure _ := .done
  throw _ := .throw
  bind := .skip
  iterate := Moves.iterate
  look _ h := Keeps.get.skip h
  next := next_moves
  skipToClose := skipToClose_moves
  warn := warn_moves
  typed := typed_moves
  addString := addString_moves
  find? := find?_moves
  identifier := identifier_moves
  nestedDeclarator := nestedDeclarator_moves

/-! ### Tokens -/

theorem loc_moves : Moves T loc := loc_closed T.closed

theorem atEnd_moves : Moves T atEnd := atEnd_closed T.closed

theorem eat_moves (p : Punct) : Moves T (eat p) := eat_closed T.closed p

theorem eatKeyword_moves (kw : Keyword) : Moves T (eatKeyword kw) := eatKeyword_closed T.closed kw

theorem expect_moves (p : Punct) : Moves T (expect p) := expect_closed T.closed p

theorem peekPunct?_moves : Moves T peekPunct? := peekPunct?_closed T.closed

theorem startsType_moves (t : Token) : Moves T (startsType t) := startsType_closed T.closed t

theorem startsDeclaration_moves (t : Token) : Moves T (startsDeclaration t) :=
  startsDeclaration_closed T.closed t

theorem skipAttribute_moves : Moves T skipAttribute := skipAttribute_closed T.closed

theorem skipAttributes_moves : Moves T skipAttributes := skipAttributes_closed T.closed

theorem specifier_moves (s : Specifiers) : Moves T (specifier s) := specifier_closed T.closed s

theorem specifiedType_moves (s : Specifiers) (start : Location) :
    Moves T (specifiedType s start) := specifiedType_closed T.closed s start

theorem declSpecifiers_moves : Moves T declSpecifiers := declSpecifiers_closed T.closed

end Parser
end LiveC

import LiveC.Proofs.FileTransitions

/-!
What becomes of the definitions of a unit while a function or an initialiser is read. Functions
that are only declared define nothing; a static local variable is defined together with its
symbol, and nothing that is defined is lost.
-/

namespace LiveC

namespace SymbolTable

/-- The name is marked as that of a definition. -/
def Defines (t : SymbolTable) (name : String) : Prop :=
  ∃ symbol, t.find? name = some symbol ∧ symbol.defined = true

variable {t : SymbolTable} {name other : String} {symbol : GlobalSymbol}

theorem defines_iff_any : t.Defines name ↔ (t.find? name).any (·.defined) = true := by
  unfold Defines
  cases t.find? name <;> simp

theorem defines_insert : (t.insert name symbol).Defines other ↔
    if other = name then symbol.defined = true else t.Defines other := by
  unfold Defines
  rw [find?_insert]
  split <;> simp

end SymbolTable

/-- A symbol that was static still is, and a symbol of an identifier is still that of a function,
or of a variable. -/
structure GlobalSymbol.Stays (name : String) (old new : GlobalSymbol) : Prop where
  static : old.isStatic = true → new.isStatic = true
  kind : IsPlain name → new.ty.isFunction = old.ty.isFunction

/-- What may become of a unit inside of a function. -/
structure TranslationUnit.Grows (u v : TranslationUnit) : Prop where
  functions : v.functions = u.functions
  symbols {name : String} {old : GlobalSymbol} : u.symbols.find? name = some old →
    ∃ new, v.symbols.find? name = some new ∧ old.Stays name new
  globals : ∃ added, v.globals = u.globals ++ added ∧
    (∀ g ∈ added, ¬IsPlain g.name ∧ g.isStatic = true) ∧
    ∀ name, v.symbols.Defines name ↔ u.symbols.Defines name ∨ name ∈ added.map (·.name)

namespace TranslationUnit.Grows

variable {u v w : TranslationUnit}

theorem same (functions : v.functions = u.functions) (globals : v.globals = u.globals)
    (symbols : v.symbols = u.symbols) : u.Grows v :=
  ⟨functions, fun found => ⟨_, symbols ▸ found, id, fun _ => rfl⟩,
    [], by simpa using globals, nofun, fun name => by simp [symbols]⟩

theorem refl (u : TranslationUnit) : u.Grows u := same rfl rfl rfl

theorem trans (h : u.Grows v) (k : v.Grows w) : u.Grows w := by
  obtain ⟨added, globals, static, defined⟩ := h.globals
  obtain ⟨more, globals', static', defined'⟩ := k.globals
  refine ⟨k.functions.trans h.functions, fun found => ?_, added ++ more, ?_,
    List.forall_mem_append.mpr ⟨static, static'⟩, fun name => ?_⟩
  · obtain ⟨middle, known, before⟩ := h.symbols found
    obtain ⟨new, last, behind⟩ := k.symbols known
    exact ⟨new, last, behind.static ∘ before.static,
      fun plain => (behind.kind plain).trans (before.kind plain)⟩
  · rw [globals', globals, List.append_assoc]
  · rw [defined', defined, List.map_append, List.mem_append, or_assoc]

/-- A symbol is set that defines what the one of its name did. -/
theorem insert {name : String} {symbol : GlobalSymbol}
    (defined : symbol.defined = (u.symbols.find? name).any (·.defined))
    (stays : ∀ old, u.symbols.find? name = some old → old.Stays name symbol) :
    u.Grows { u with symbols := u.symbols.insert name symbol } := by
  refine ⟨rfl, fun {other old} found => ?_, [], (List.append_nil _).symm, nofun, fun other => ?_⟩
  · rw [SymbolTable.find?_insert]
    split
    case isTrue here =>
      subst here
      exact ⟨symbol, rfl, stays old found⟩
    case isFalse => exact ⟨old, found, id, fun _ => rfl⟩
  · rw [SymbolTable.defines_insert]
    split
    case isTrue here =>
      subst here
      rw [SymbolTable.defines_iff_any, defined]
      simp
    case isFalse => simp

/-- The definition of a variable of which the name is no identifier. -/
theorem static {g : GlobalVar} (named : ¬IsPlain g.name) (isStatic : g.isStatic = true) :
    u.Grows { u with
      symbols := u.symbols.insert g.name ⟨g.ty, true, true⟩
      globals := u.globals ++ [g] } := by
  refine ⟨rfl, fun {other old} found => ?_, [g], rfl,
    List.forall_mem_singleton.mpr ⟨named, isStatic⟩, fun other => ?_⟩
  · rw [SymbolTable.find?_insert]
    split
    case isTrue here =>
      subst here
      exact ⟨_, rfl, fun _ => rfl, fun plain => absurd plain named⟩
    case isFalse => exact ⟨old, found, id, fun _ => rfl⟩
  · rw [SymbolTable.defines_insert, List.map_singleton, List.mem_singleton]
    split
    case isTrue here => simp [here]
    case isFalse other => simp [other]

end TranslationUnit.Grows

namespace Parser

/-- Definitions are added, of which nothing more is asked. -/
def growth : Course where
  le s t := s.unit.Grows t.unit
  refl s := .refl s.unit
  trans := .trans
  within _ := True
  within_of_le _ _ := trivial
  valid _ := True

/-- Runs of the parser let the unit grow, also where they fail. -/
abbrev Grown {α : Type} (p : Parser α) : Prop := Keeps growth True p fun _ => True

variable {α : Type} {p : Parser α} {g : Productions} {s t : ParserState}

theorem Grown.of_ok (h : Grown p) {a : α} (run : p s = .ok a t) : s.unit.Grows t.unit := by
  have ends := h s
  rw [run] at ends
  exact ends.1

theorem Grown.modify {f : ParserState → ParserState} (same : ∀ s, (f s).unit = s.unit) :
    Grown (modify f) :=
  Keeps.modify (fun s => .same (congrArg _ (same s)) (congrArg _ (same s)) (congrArg _ (same s)))
    fun _ _ _ _ => trivial

theorem Grown.between {enter leave : ParserState → ParserState} (h : Grown p)
    (enterSame : ∀ s, (enter s).unit = s.unit) (leaveSame : ∀ s, (leave s).unit = s.unit) :
    Grown (between enter leave p) :=
  Keeps.between h (fun _ _ => id) (fun _ _ => trivial) (fun s => (Grown.modify enterSame s).1)
    (fun s => (Grown.modify leaveSame s).1) (fun _ _ => trivial) fun _ _ => trivial

theorem setSymbol_grown {name : String} {symbol : GlobalSymbol}
    (defined : symbol.defined = (s.unit.symbols.find? name).any (·.defined))
    (stays : ∀ old, s.unit.symbols.find? name = some old → old.Stays name symbol) :
    Ends growth True (fun _ => True) s (setSymbol name symbol s) :=
  ⟨.insert defined stays, fun _ _ _ => ⟨trivial, trivial⟩⟩

theorem declareFunction_grown (name : String) (ty : CType) (isStatic : Bool) (loc : Location) :
    Grown (declareFunction name ty isStatic loc) := by
  intro s
  unfold declareFunction
  rw [findSymbol?_bind]
  cases found : s.unit.symbols.find? name with
  | none => exact setSymbol_grown (by rw [found]; rfl) fun old same => by simp [found] at same
  | some old =>
      dsimp only
      cases known : old.ty.signature? with
      | none => exact Keeps.throw s
      | some before =>
          cases signature : ty.signature? with
          | none => exact Keeps.throw s
          | some declared =>
              refine .guard fun _ => .ite (fun _ => ?_) fun _ => Keeps.done s
              refine setSymbol_grown (by rw [found]; rfl) fun other same => ?_
              cases found.symm.trans same
              refine ⟨id, fun _ => ?_⟩
              exact (Expr.isFunction_of_signature? signature).trans
                (Expr.isFunction_of_signature? known).symm

theorem identifier_grown (name : String) (loc : Location) : Grown (identifier name loc) := by
  refine Keeps.skip (P := fun _ => True) (Keeps.get.skip fun _ => .done) fun b => ?_
  split
  case h_1 =>
    refine Keeps.get.skip fun s => ?_
    split
    · exact .done
    · exact .throw
  case h_2 symbol =>
    refine Keeps.skip (P := fun _ => True) (Keeps.get.skip fun _ => .done) fun s => ?_
    split
    · exact .done
    · exact .throw
  case h_3 => exact .throw
  case h_4 =>
    refine Keeps.skip (P := fun _ => True)
      (Keeps.skip (P := fun _ => True) (Keeps.get.skip fun _ => .done) fun _ => .done)
      fun _ => .ite (fun _ => ?_) fun _ => .throw
    refine .skip (p := warn loc _) (Grown.modify fun _ => rfl) fun _ => ?_
    refine (declareFunction_grown _ _ _ _).skip fun _ => ?_
    exact .skip (p := bindFile name _) (Grown.modify fun _ => rfl) fun _ => .done

theorem skipToClose_grown (e : SyntaxError) : Grown (skipToClose e) := by
  intro s
  cases found : behindClose? 1 s.rest with
  | some rest =>
      rw [skipToClose_some found]
      exact ⟨.refl _, fun _ _ _ => ⟨trivial, trivial⟩⟩
  | none =>
      rw [skipToClose_none found]
      exact ⟨.refl _, fun _ _ _ => trivial⟩

theorem typed_grown (step : Typing α) : Grown (typed step) := by
  intro s
  unfold typed
  cases step.run s.warnings with
  | ok r => exact ⟨.refl _, fun _ _ _ => ⟨trivial, trivial⟩⟩
  | error f => exact ⟨.refl _, fun _ _ _ => trivial⟩

theorem next_grown : Grown next :=
  Keeps.skip (P := fun _ => True) (Keeps.get.skip fun _ => .done) fun _ =>
    .skip (P := fun _ => True) (Grown.modify fun _ => rfl) fun _ => .done

theorem goTo_grown (rest : List Token) : Grown (modify fun s => { s with rest }) :=
  .modify fun _ => rfl

/-- Nothing below the level of statements defines anything. -/
theorem growth_closed : Closed (fun {α} (p : Parser α) => Grown p) where
  pure _ := .done
  throw _ := .throw
  bind := .skip
  iterate round b := (Keeps.iterate (I := fun _ => True)
    (fun b => (round b).pre fun _ => trivial) b).pre fun _ => ⟨trivial, trivial⟩
  look _ h := Keeps.get.skip h
  next := next_grown
  skipToClose := skipToClose_grown
  warn _ _ := .modify fun _ => rfl
  typed := typed_grown
  addString _ := fun _ => ⟨.same rfl rfl rfl, fun _ _ _ => ⟨trivial, trivial⟩⟩
  find? _ := Keeps.get.skip fun _ => .done
  identifier := identifier_grown
  nestedDeclarator expect suffixes declarator base abstract := by
    refine next_grown.skip fun _ => Keeps.get.skip fun s => (skipToClose_grown _).skip fun _ => ?_
    refine (suffixes base).skip fun r => Keeps.get.skip fun t => ?_
    refine .skip (goTo_grown s.rest) fun _ => (declarator r.1 abstract).skip fun d => ?_
    exact (expect _).skip fun _ => .skip (goTo_grown t.rest) fun _ => .done

/-! ### Declarations in blocks -/

theorem bind_grown (name : String) (b : Binding) : Grown (bind name b) := .modify fun _ => rfl

/-- A static local variable is defined together with its symbol. -/
theorem staticLocal_grown (each : g.Each fun {α} (p : Parser α) => Grown p) (spec : DeclSpec)
    (name : String) (ty : CType) (loc : Location) : Grown (staticLocal g spec name ty loc) := by
  have define {symbol : String} (numbered : ¬IsPlain symbol) (ty : CType)
      (init : Option (List InitItem)) : Grown (do
        if !ty.isComplete then refuse loc (.unknownSize name)
        setSymbol symbol ⟨ty, true, true⟩
        modify fun s => { s with unit := { s.unit with globals := s.unit.globals ++
          [⟨symbol, ty, true, spec.isConst && !ty.isPointer, init, loc⟩] } }
        bind name (.global symbol)) := by
    refine .guard fun _ s => ⟨?_, fun _ _ _ => ⟨trivial, trivial⟩⟩
    exact .static (g := ⟨symbol, ty, true, spec.isConst && !ty.isPointer, init, loc⟩) numbered rfl
  intro s
  unfold staticLocal
  rw [get_bind]
  dsimp only
  rw [set_bind]
  generalize (s.current.map Prod.fst).getD "" = owner
  have numbered : ¬IsPlain s!"{owner}.{name}.{s.staticLocals + 1}" :=
    IsNumbered.not_isPlain ⟨_, _, rfl⟩
  have counted : growth.le s { s with staticLocals := s.staticLocals + 1 } := .refl s.unit
  refine .after counted (fun _ _ _ => ⟨trivial, trivial⟩) (Keeps.pre (G := True) ?_ And.left _)
  refine (eat_closed growth_closed _).skip fun _ => .ite (fun _ => ?_) fun _ => ?_
  · exact (each.staticInit ty 0).skip fun r => define numbered r.1 _
  · exact define numbered ty none

theorem localVariable_grown (each : g.Each fun {α} (p : Parser α) => Grown p) (name : String)
    (ty : CType) (loc : Location) : Grown (localVariable g name ty loc) := by
  refine .guard fun _ => Keeps.get.skip fun s => (eat_closed growth_closed _).skip fun _ => ?_
  have declare (ty : CType) (stmts : List Stmt) : Grown (do
      if !ty.isComplete then refuse loc (.unknownSize name)
      modify fun s => { s with locals := s.locals ++ [⟨name, ty⟩] }
      bind name (.local s.locals.length)
      return stmts) := by
    refine .guard fun _ => .skip (P := fun _ => True) (Grown.modify fun _ => rfl) fun _ => ?_
    exact (bind_grown _ _).skip fun _ => .done
  exact .ite (fun _ => (each.localInit ty 0).skip fun r => declare r.1 _) fun _ => declare ty []

theorem blockDeclarator_grown (each : g.Each fun {α} (p : Parser α) => Grown p)
    (spec : DeclSpec) : Grown (blockDeclarator g spec) := by
  refine (each.declarator _ false).skip fun d => (skipAttributes_closed growth_closed).skip fun _ => ?_
  have named (name : String) (b : Binding) : Grown (do
      bind name b
      return ([] : List Stmt)) := (bind_grown name b).skip fun _ => .done
  split
  case h_1 => exact (loc_closed growth_closed).skip fun _ => (peek_closed growth_closed).skip fun _ =>
    .throw
  case h_2 name loc _ =>
    refine .ite (fun _ => named _ _) fun _ => .ite (fun _ => ?_) fun _ => ?_
    · exact (declareFunction_grown _ _ _ _).skip fun _ => named _ _
    · split
      case h_1 =>
        intro s
        rw [findSymbol?_bind]
        refine .ite (fun undeclared => ?_) fun _ => named _ _ s
        have missing := Option.isNone_iff_eq_none.mp undeclared
        refine .bind (setSymbol_grown (by rw [missing]; rfl) fun old found => ?_) fun _ =>
          (named _ _).pre fun _ => trivial
        rw [missing] at found
        cases found
      case h_2 => exact (staticLocal_grown each spec name d.ty loc).skip fun _ => .done
      case h_3 => exact localVariable_grown each name d.ty loc

theorem growth_closedBlocks : ClosedBlocks (fun {α} (p : Parser α) => Grown p)
    (fun {α} (p : Parser α) => Grown p) where
  statements := growth_closed
  items := growth_closed
  weaken := id
  tryCatch := .tryCatch
  recover _ := .modify fun _ => rfl
  inBlock h := h.between (fun _ => rfl) fun _ => rfl
  loopBody h := Grown.between h (fun _ => rfl) fun _ => rfl

/-- Whatever is read inside of a function lets the unit grow. -/
theorem productions_grown (n : Nat) : (productions n).Blocks (fun {α} (p : Parser α) => Grown p)
    (fun {α} (p : Parser α) => Grown p) :=
  productions_blocks growth_closedBlocks (fun _ => blockDeclarator_grown) n

theorem bindParameters_grown (ps : List Param) : Grown (bindParameters ps) := by
  induction ps with
  | nil => exact .done
  | cons p ps ih =>
      unfold bindParameters
      split
      · exact .throw
      · refine Keeps.get.skip fun s => .skip (P := fun _ => True) (Grown.modify fun _ => rfl) fun _ => ?_
        exact (bind_grown _ _).skip fun _ => ih

end Parser
end LiveC

import LiveC.Proofs.UnitGrammar
import LiveC.Proofs.ParserTransitions

/-!
Every production moves on through the tokens, and a run of it is part of each relation that the
elementary changes of the state are part of. A declarator goes back on its way, but it ends
behind its suffixes. Declarations at file scope move on as productions do, and so does the parser
of a whole source.
-/

namespace LiveC

open LiveC.Parser in
/-- The productions move on wherever they are used. -/
structure Productions.Moving {R : ParserState → ParserState → Prop} (T : Transition R)
    (g : Productions) : Prop where
  assignment : Moves T g.assignment
  conditional : Moves T g.conditional
  cast : Moves T g.cast
  unary : Moves T g.unary
  declarator (base : CType) (abstract : Bool) : Moves T (g.declarator base abstract)
  suffixes (base : CType) : Moves T (g.suffixes base)
  staticInit (ty : CType) (offset : Nat) : Moves T (g.staticInit ty offset)
  localInit (ty : CType) (offset : Nat) : Moves T (g.localInit ty offset)
  statement : Moves T g.statement
  fills (ty : CType) (offset : Nat) : Fills ty offset (g.staticInit ty offset)

namespace Parser

variable {R : ParserState → ParserState → Prop} {T : Transition R} {g : Productions}

/-! ### Below the level of statements -/

theorem each_moves (moving : g.Moving T) : g.Each fun {α} (p : Parser α) => Moves T p where
  assignment := moving.assignment
  conditional := moving.conditional
  cast := moving.cast
  unary := moving.unary
  declarator := moving.declarator
  suffixes := moving.suffixes
  staticInit := moving.staticInit
  localInit := moving.localInit

theorem bounded_moves (e : Expr) : Moves T (bounded e) := bounded_closed T.closed e

theorem pointerQualifiers_moves : Moves T pointerQualifiers := pointerQualifiers_closed T.closed

theorem ofDeclarator_moves (d : Declarator) (loc : Location) :
    Moves T (Param.ofDeclarator d loc) := ofDeclarator_closed T.closed d loc

theorem stringForArray_moves (element : CType) : Moves T (stringForArray element) :=
  stringForArray_closed T.closed element

section Productions

variable (moving : g.Moving T)
include moving

theorem expression_moves : Moves T (expression g) := expression_closed T.closed (each_moves moving)

theorem binary_moves (n : Nat) : Moves T (binary g n) :=
  binary_closed T.closed (each_moves moving) n

theorem call_moves (callee : Expr) (loc : Location) : Moves T (call g callee loc) :=
  call_closed T.closed (each_moves moving) callee loc

end Productions

/-! ### Declarations in blocks -/

theorem addGlobal_moves (v : GlobalVar) (h : v.Made) :
    Moves T (modify fun s => { s with unit := { s.unit with globals := s.unit.globals ++ [v] } }) :=
  Moves.modify (fun _ => List.suffix_rfl) fun s => T.global s h

/-- A variable that is defined with a complete type and no flag that a pointer may not have. -/
theorem made_of_isComplete {name : String} {ty : CType} {isStatic isConst : Bool}
    {init : Option (List InitItem)} {loc : Location} (complete : ¬(!ty.isComplete) = true)
    (filled : ∀ items ∈ init, ty.isComplete = true → ty.FilledWith 0 items) :
    GlobalVar.Made ⟨name, ty, isStatic, isConst && !ty.isPointer, init, loc⟩ := by
  have isComplete : ty.isComplete = true := by simpa using complete
  refine ⟨isComplete, fun isConst => ?_, fun items member => filled items member isComplete⟩
  simpa using (Bool.and_eq_true_iff.mp isConst).2

theorem staticLocal_moves (each : g.Each fun {α} (p : Parser α) => Moves T p)
    (fills : ∀ ty offset, Fills ty offset (g.staticInit ty offset)) (spec : DeclSpec)
    (name : String) (ty : CType) (loc : Location) : Moves T (staticLocal g spec name ty loc) := by
  have define (symbol : String) (ty : CType) (init : Option (List InitItem))
      (filled : ∀ items ∈ init, ty.isComplete = true → ty.FilledWith 0 items) : Moves T (do
      if !ty.isComplete then refuse loc (.unknownSize name)
      setSymbol symbol ⟨ty, true, true⟩
      modify fun s => { s with unit := { s.unit with globals := s.unit.globals ++
        [⟨symbol, ty, true, spec.isConst && !ty.isPointer, init, loc⟩] } }
      bind name (.global symbol)) := by
    refine .guard fun complete s => ?_
    have isVariable : ty.signature? = none :=
      CType.signature?_of_isComplete (by simpa using complete)
    refine .bind (setSymbol_moves (SymbolTable.settles_insert_variable rfl isVariable)) fun _ => ?_
    refine .pre ?_ fun _ => trivial
    exact (addGlobal_moves _ (made_of_isComplete complete filled)).skip fun _ => bind_moves _ _
  intro s
  unfold staticLocal
  rw [get_bind]
  dsimp only
  rw [set_bind]
  have numbered : T.course.le s { s with staticLocals := s.staticLocals + 1 } :=
    ⟨List.suffix_rfl, T.staticLocals s _⟩
  refine .within numbered (eat_moves .assign) fun assigned t _ passed => ?_
  cases assigned with
  | true =>
      refine .within passed (each.staticInit ty 0) fun r u run passed => ?_
      refine .after passed (fun _ _ _ => ⟨trivial, trivial⟩)
        ((define _ r.1 _ fun items same => ?_).pre (fun _ => trivial) u)
      cases same
      exact (fills ty 0 _ _ _ run).2
  | false =>
      exact .after passed (fun _ _ _ => ⟨trivial, trivial⟩)
        ((define _ ty none nofun).pre (fun _ => trivial) t)

theorem localVariable_moves (each : g.Each fun {α} (p : Parser α) => Moves T p)
    (name : String) (ty : CType) (loc : Location) :
    Moves T (localVariable g name ty loc) := by
  refine .guard fun _ => Keeps.get.skip fun s => (eat_moves _).skip fun _ => ?_
  have declare (ty : CType) (stmts : List Stmt) : Moves T (do
      if !ty.isComplete then refuse loc (.unknownSize name)
      modify fun s => { s with locals := s.locals ++ [⟨name, ty⟩] }
      bind name (.local s.locals.length)
      return stmts) := by
    refine .guard fun _ => .skip (Moves.modify (fun _ => List.suffix_rfl) fun s =>
      T.locals s _) fun _ => ?_
    exact (bind_moves _ _).skip fun _ => .done
  exact .ite (fun _ => (each.localInit ty 0).skip fun r => declare r.1 _) fun _ => declare ty []

theorem blockDeclarator_moves (each : g.Each fun {α} (p : Parser α) => Moves T p)
    (fills : ∀ ty offset, Fills ty offset (g.staticInit ty offset)) (spec : DeclSpec) :
    Moves T (blockDeclarator g spec) := by
  refine (each.declarator _ false).skip fun d => skipAttributes_moves.skip fun _ => ?_
  split
  case h_1 => exact loc_moves.skip fun _ => peek_moves.skip fun _ => .throw
  case h_2 name loc _ =>
    have named (b : Binding) : Moves T (do
        bind name b
        return ([] : List Stmt)) := (bind_moves name b).skip fun _ => .done
    refine .ite (fun _ => named _) fun _ => .ite (fun _ => ?_) fun _ => ?_
    · exact (declareFunction_moves _ _ _ _).skip fun _ => named _
    · split
      case h_1 =>
        intro s
        rw [findSymbol?_bind]
        refine .ite (fun undeclared => ?_) fun _ => named _ s
        exact .bind (setSymbol_moves (SymbolTable.settles_insert_undeclared
          (Option.isNone_iff_eq_none.mp undeclared))) fun _ => (named _).pre fun _ => trivial
      case h_2 => exact (staticLocal_moves each fills spec name d.ty loc).skip fun _ => .done
      case h_3 => exact localVariable_moves each name d.ty loc

/-! ### Statements -/

theorem inBlock_moves {α : Type} {p : Parser α} (h : Moves T p) : Moves T (inBlock p) :=
  h.between (fun _ => rfl) (fun _ => rfl) fun _ _ => T.block

theorem Transition.closedBlocks (T : Transition R) :
    ClosedBlocks (fun {α} (p : Parser α) => Moves T p) (fun {α} (p : Parser α) => Moves T p) where
  statements := T.closed
  items := T.closed
  weaken := id
  tryCatch := .tryCatch
  recover := recover_moves true
  inBlock := inBlock_moves
  loopBody h := Moves.between h (fun _ => rfl) (fun _ => rfl) fun _ _ => T.loop

section Productions

variable (moving : g.Moving T)
include moving

theorem blocks_moves : g.Blocks (fun {α} (p : Parser α) => Moves T p)
    (fun {α} (p : Parser α) => Moves T p) where
  each := each_moves moving
  declares := blockDeclarator_moves (each_moves moving) moving.fills
  statement := moving.statement

theorem blockDeclaratorStep_moves (spec : DeclSpec) (stmts : List Stmt) :
    Moves T (blockDeclaratorStep g spec stmts) :=
  blockDeclaratorStep_closed T.closedBlocks (blocks_moves moving) spec stmts

theorem item_moves : Moves T (item g) := item_closed T.closedBlocks (blocks_moves moving)

theorem blockItem_moves : Moves T (blockItem g) :=
  blockItem_closed T.closedBlocks (blocks_moves moving)

theorem blockStep_moves (stmts : List Stmt) : Moves T (blockStep g stmts) :=
  blockStep_closed T.closedBlocks (blocks_moves moving) stmts

theorem blockItems_moves : Moves T (blockItems g) :=
  blockItems_closed T.closedBlocks (blocks_moves moving)

theorem controlling_moves : Moves T (controlling g) :=
  controlling_closed T.closed (each_moves moving)

theorem loopBody_moves : Moves T (loopBody g) := T.closedBlocks.loopBody moving.statement

theorem forStatement_moves : Moves T (forStatement g) :=
  forStatement_closed T.closedBlocks (blocks_moves moving)

theorem returnStatement_moves (loc : Location) : Moves T (returnStatement g loc) :=
  returnStatement_closed T.closed (each_moves moving) loc

end Productions

/-! ### Levels of nesting -/

theorem productions_moving (n : Nat) : (productions n).Moving T := by
  have blocks := productions_blocks T.closedBlocks
    (fun n each => blockDeclarator_moves each (productions_fill n)) n
  exact { blocks.each with statement := blocks.statement, fills := productions_fill n }

end Parser
end LiveC

/-! ### Declarations at file scope -/

namespace LiveC.Parser

/-- A relation of which taking back a definition is part too. -/
structure FileTransition (R : ParserState → ParserState → Prop) : Prop extends Transition R where
  forget (s : ParserState) (name : String) :
    R s { s with unit := { s.unit with globals := s.unit.globals.filter (·.name != name) } }

/-- A relation to which it makes no difference where in its source the parser is. -/
structure UnitTransition (R : ParserState → ParserState → Prop) : Prop extends FileTransition R where
  place (s : ParserState) (current : Option (String × CType)) (scopes : ScopeStack) (depth : Nat) :
    R s { s with current, scopes, loopDepth := depth }
  functions (s : ParserState) (functions : List Function) :
    R s { s with unit := { s.unit with functions } }

variable {R : ParserState → ParserState → Prop} {F : FileTransition R} {g : Productions}

/-- A definition of a variable takes the place of one without initialiser. -/
theorem defineGlobal_moves (v : GlobalVar) (replaces : Bool)
    (h : v.Made) :
    Moves F.toTransition (modify fun s =>
      let others := if replaces then s.unit.globals.filter (·.name != v.name) else s.unit.globals
      { s with unit := { s.unit with globals := others ++ [v] } }) := by
  refine Moves.modify (fun _ => List.suffix_rfl) fun s => ?_
  cases replaces with
  | true => exact F.trans (F.forget s v.name) (F.global _ h)
  | false => exact F.global s h

section Productions

variable (F) (moving : g.Moving F.toTransition)
include moving

theorem fileVariable_moves (spec : DeclSpec) (name : String) (ty : CType) (loc : Location) :
    Moves F.toTransition (fileVariable g spec name ty loc) := by
  have bound : Moves F.toTransition (bindFile name (.global name)) := bindFile_moves _ _
  have define (old : Option GlobalSymbol) (ty : CType) (init : Option (List InitItem))
      (filled : ∀ items ∈ init, ty.isComplete = true → ty.FilledWith 0 items) :
      Moves F.toTransition (do
        if !ty.isComplete then refuse loc (.unknownSize name)
        let defined := old.any (·.defined)
        let initialized := (← get).unit.globals.any fun v => v.name == name && v.init.isSome
        if defined && init.isSome && initialized then refuse loc (.redefinition name)
        if !(defined && init.isNone) then
          let isStatic := spec.storage == some .static || old.any (·.isStatic)
          let object : GlobalVar := ⟨name, ty, isStatic, spec.isConst && !ty.isPointer, init, loc⟩
          setSymbol name ⟨ty, true, isStatic⟩
          modify fun s =>
            let others := if defined then s.unit.globals.filter (·.name != name) else s.unit.globals
            { s with unit := { s.unit with globals := others ++ [object] } }
        bindFile name (.global name)) := by
    refine .guard fun complete => Keeps.get.skip fun _ => .guard fun _ => .ite (fun _ s => ?_)
      fun _ => bound
    have isVariable : ty.signature? = none :=
      CType.signature?_of_isComplete (by simpa using complete)
    refine .bind (setSymbol_moves (SymbolTable.settles_insert_variable rfl isVariable)) fun _ => ?_
    refine .pre (.skip (P := fun _ => True) ?_ fun _ => bound) fun _ => trivial
    exact defineGlobal_moves (F := F) ⟨name, ty, _, _, init, loc⟩ _
      (made_of_isComplete complete filled)
  refine .guard fun _ s => ?_
  rw [findSymbol?_bind]
  refine .guard fun _ => ?_
  dsimp only
  rw [check_bind]
  refine .ite (fun _ => .ite (fun undeclared => ?_) fun _ => bound s) fun _ => ?_
  · exact .bind (setSymbol_moves (SymbolTable.settles_insert_undeclared
      (Option.isNone_iff_eq_none.mp undeclared))) fun _ => bound.pre fun _ => trivial
  · refine Keeps.skip (eat_moves .assign) (fun _ => .ite (fun _ t => ?_) fun _ =>
      define _ ty none nofun) s
    refine .within (F.toTransition.course.refl t) (moving.staticInit ty 0) fun r u run passed => ?_
    refine .after passed (fun _ _ _ => ⟨trivial, trivial⟩)
      ((define _ r.1 _ fun items same => ?_).pre (fun _ => trivial) u)
    cases same
    exact (moving.fills ty 0 _ _ _ run).2

theorem fileDeclaration_moves (spec : DeclSpec) (d : Declarator) :
    Moves F.toTransition (fileDeclaration g spec d) := by
  unfold fileDeclaration
  split
  case h_1 => exact loc_moves.skip fun _ => peek_moves.skip fun _ => .throw
  case h_2 name loc _ =>
    refine .ite (fun _ => bindFile_moves _ _) fun _ => .ite (fun _ => ?_) fun _ =>
      fileVariable_moves F moving spec name d.ty loc
    exact (declareFunction_moves _ _ _ _).skip fun _ => bindFile_moves _ _

omit moving in
theorem bindParameters_moves (ps : List Param) : Moves F.toTransition (bindParameters ps) := by
  induction ps with
  | nil => exact .done
  | cons p ps ih =>
      unfold bindParameters
      split
      · exact .throw
      · refine Keeps.get.skip fun s => .skip (Moves.modify (fun _ => List.suffix_rfl) fun s =>
          F.locals s _) fun _ => ?_
        exact (bind_moves _ _).skip fun _ => ih

end Productions

/-- An accepted declaration of a function agrees with the symbol that it leaves: they return the
same, and the parameters that both of them have are the same. -/
structure Agrees (ty : CType) (symbol : GlobalSymbol) : Prop where
  signature {t : Signature} : ty.signature? = some t → ∃ s, symbol.ty.signature? = some s ∧
    s.ret = t.ret ∧ (s = t ∨ t.unspecified = true ∨ s.unspecified = true ∧ symbol.defined = true)

attribute [ext] Signature

theorem agrees_of_declareFunction {name : String} {ty : CType} {isStatic : Bool} {loc : Location}
    {s t : ParserState} (run : declareFunction name ty isStatic loc s = .ok () t) :
    ∃ symbol, t.unit.symbols.find? name = some symbol ∧ Agrees ty symbol ∧
      symbol.defined = (s.unit.symbols.find? name).any (·.defined) := by
  have inserted {symbol : GlobalSymbol} (stored : setSymbol name symbol s = .ok () t) :
      t.unit.symbols.find? name = some symbol := by
    cases stored
    exact (SymbolTable.find?_insert ..).trans (if_pos rfl)
  have same {isStatic defined : Bool} : Agrees ty ⟨ty, defined, isStatic⟩ :=
    ⟨fun found => ⟨_, found, rfl, .inl rfl⟩⟩
  unfold declareFunction at run
  rw [findSymbol?_bind] at run
  cases found : s.unit.symbols.find? name with
  | none =>
      rw [found] at run
      exact ⟨_, inserted run, same, rfl⟩
  | some old =>
      rw [found] at run
      dsimp only at run
      cases known : old.ty.signature? with
      | none =>
          rw [known] at run
          cases run
      | some before =>
          cases declared : ty.signature? with
          | none =>
              rw [known, declared] at run
              cases run
          | some signature =>
              rw [known, declared] at run
              dsimp only at run
              split at run
              case isTrue => cases run
              case isFalse compatible =>
                simp only [Bool.not_eq_true', Bool.not_eq_false, Bool.and_eq_true, Bool.or_eq_true,
                  beq_iff_eq] at compatible
                split at run
                · exact ⟨_, inserted run, same, rfl⟩
                · rename_i kept
                  cases run
                  refine ⟨old, found, ⟨fun {t} last => ⟨before, known, ?_, ?_⟩⟩, rfl⟩ <;>
                  cases declared.symm.trans last
                  · exact compatible.1
                  · cases hidden : before.unspecified
                    case true => exact .inr (.inr ⟨rfl, by simpa [hidden] using kept⟩)
                    cases open' : signature.unspecified
                    case true => exact .inr (.inl rfl)
                    simp only [hidden, open', Bool.false_eq_true, false_or] at compatible
                    exact .inl (Signature.ext compatible.1 compatible.2.1 compatible.2.2
                      (hidden.trans open'.symm))

section Unit

variable (U : UnitTransition R) (moving : g.Moving U.toTransition)
include moving

theorem functionDefinition_moves (spec : DeclSpec) (d : Declarator) (signature : Signature) :
    Moves U.toTransition (functionDefinition g spec d signature) := by
  unfold functionDefinition
  split
  case h_1 => exact loc_moves.skip fun _ => peek_moves.skip fun _ => .throw
  case h_2 name loc _ =>
    refine .ite (fun _ => .throw_bind) fun _ => .guard fun _ => .guard fun _ s => ?_
    dsimp only
    rw [findSymbol?_bind]
    refine .guard fun _ => ?_
    refine .within (U.toTransition.course.refl s) (declareFunction_moves _ _ _ _) fun _ t run passed => ?_
    obtain ⟨symbol, found, agrees, fresh⟩ := agrees_of_declareFunction run
    have undefined : symbol.defined = false := fresh.trans (Bool.eq_false_iff.mpr ‹_›)
    rw [findSymbol?_bind]
    have settles (isStatic : Bool) : symbol.Settles ⟨d.ty, true, isStatic⟩ := by
      refine ⟨fun _ => rfl, fun last => ?_⟩
      obtain ⟨before, known, ret, rfl | hidden | ⟨-, isDefined⟩⟩ := agrees.signature last
      · exact ⟨before, known, ret, .inl rfl⟩
      · exact ⟨before, known, ret, .inr (.inr ⟨hidden, rfl, undefined⟩)⟩
      · exact absurd (undefined.symm.trans isDefined) Bool.false_ne_true
    refine .after passed (fun _ _ _ => ⟨trivial, trivial⟩) (.mono (.bind (setSymbol_moves
      (SymbolTable.settles_insert fun old same => ?settles)) fun _ => Keeps.pre ?_ fun _ => trivial)
        (fun _ => trivial) fun _ _ post => post)
    case settles =>
      cases found.symm.trans same
      exact settles _
    refine (bindFile_moves _ _).skip fun _ => .skip (Moves.modify (fun _ => List.suffix_rfl) fun s =>
      U.trans (U.locals s []) (U.place _ (some (name, signature.ret)) s.scopes.openBlock
        s.loopDepth)) fun _ => ?_
    refine (bindParameters_moves U.toFileTransition _).skip fun _ => (expect_moves _).skip fun _ => ?_
    refine (blockItems_moves moving).skip fun body => Moves.modify (fun _ => List.suffix_rfl) fun s => ?_
    exact U.trans (U.place s none s.scopes.closeBlock s.loopDepth)
      (U.trans (U.locals _ []) (U.functions _ _))

/-- One more declarator at file scope. -/
def fileDeclaratorStep (g : Productions) (spec : DeclSpec) (first : Bool) :
    Parser (ForInStep Bool) := do
  let d ← g.declarator spec.ty false
  skipAttributes
  let body ← check .lbrace
  match d.ty.signature? with
  | some signature =>
    if first && body then
      functionDefinition g spec d signature
      return .done false
  | none => pure ()
  fileDeclaration g spec d
  if ← eat .comma then return .yield false
  else
    expect .semicolon
    return .done false

theorem fileDeclaratorStep_moves (spec : DeclSpec) (first : Bool) :
    Moves U.toTransition (fileDeclaratorStep g spec first) := by
  refine (moving.declarator _ false).skip fun d => skipAttributes_moves.skip fun _ => ?_
  refine (check_moves _).skip fun body => ?_
  have declare : Moves U.toTransition (do
      fileDeclaration g spec d
      if ← eat .comma then return ForInStep.yield false
      else
        expect .semicolon
        return ForInStep.done false) := by
    refine (fileDeclaration_moves U.toFileTransition moving spec d).skip fun _ => (eat_moves _).skip fun _ => ?_
    exact .ite (fun _ => .done) fun _ => (expect_moves _).skip fun _ => .done
  dsimp only
  split
  case h_1 signature _ =>
    refine .ite (fun _ => ?_) fun _ => declare
    exact (functionDefinition_moves U moving spec d signature).skip fun _ => .done
  case h_2 => exact declare

theorem externalDeclaration_moves : Moves U.toTransition (externalDeclaration g) := by
  refine (eat_moves _).skip fun _ => .ite (fun _ => .done) fun _ => ?_
  refine declSpecifiers_moves.skip fun spec => (eat_moves _).skip fun _ => .ite (fun _ => .done) fun _ => ?_
  exact .skip (P := fun _ => True) (Moves.iterate (fileDeclaratorStep_moves U moving spec) true)
    fun _ => .done

omit moving in
theorem leaveFunction_moves : Moves U.toTransition leaveFunction :=
  Moves.modify (fun _ => List.suffix_rfl) fun s =>
    U.trans (U.locals s []) (U.place _ none s.scopes.closeAll 0)

/-- One more declaration of a source. -/
def unitStep (g : Productions) (_ : Unit) : Parser (ForInStep Unit) := do
  if ← atEnd then return .done ()
  else
    tryCatch (externalDeclaration g) fun e => do
      leaveFunction
      recover false e
    return .yield ()

theorem unitStep_moves (u : Unit) : Moves U.toTransition (unitStep g u) := by
  refine atEnd_moves.skip fun _ => .ite (fun _ => .done) fun _ => ?_
  refine .skip (P := fun _ => True) (.tryCatch (externalDeclaration_moves U moving) fun e => ?_)
    fun _ => .done
  exact (leaveFunction_moves U).skip fun _ => recover_moves false e

theorem translationUnit_moves : Moves U.toTransition (translationUnit g) :=
  Moves.iterate (unitStep_moves U moving) ()

end Unit

/-- The run that a unit is taken from. -/
theorem run_of_parseTokens {tokens : List Token} {p : Parsed} (h : parseTokens tokens = .ok p) :
    ∃ s t, translationUnit (productions maxNesting) s = .ok () t ∧ t.unit = p.unit ∧
      s.unit = {} := by
  unfold parseTokens at h
  dsimp only at h
  generalize tokens.takeWhile (·.kind != .eof) = rest at h
  generalize ((tokens.find? (·.kind == .eof)).map Token.loc).getD
    ((rest.getLast?.map Token.loc).getD .start) = endLoc at h
  cases run : translationUnit (productions maxNesting) { rest, endLoc } with
  | error e s => simp [run] at h
  | ok _ t =>
      simp only [run] at h
      split at h
      case isFalse => cases h
      case isTrue =>
        cases h
        exact ⟨_, t, run, rfl, rfl⟩

/-! ### The variables of a unit -/

/-- Every run of the parser keeps what holds of variables where they are defined. -/
theorem made_transition : UnitTransition fun s t =>
    (∀ v ∈ s.unit.globals, v.Made) → ∀ v ∈ t.unit.globals, v.Made where
  refl _ := id
  trans h k := k ∘ h
  rest _ _ := id
  warnings _ _ := id
  errors _ _ := id
  bind _ _ _ := id
  bindFile _ _ _ := id
  symbol _ _ _ _ := id
  strings _ _ := id
  locals _ _ := id
  staticLocals _ _ := id
  global _ _ added made := List.forall_mem_append.mpr ⟨made, List.forall_mem_singleton.mpr added⟩
  block h := h
  loop h := h
  forget _ _ made v member := made v (List.mem_filter.mp member).1
  place _ _ _ _ := id
  functions _ _ := id

theorem made_of_parseTokens {tokens : List Token} {p : Parsed} (h : parseTokens tokens = .ok p) :
    ∀ v ∈ p.unit.globals, v.Made := by
  obtain ⟨s, t, run, unit, start⟩ := run_of_parseTokens h
  have moves := translationUnit_moves made_transition (productions_moving maxNesting) s
  rw [run] at moves
  have made : ∀ v ∈ s.unit.globals, v.Made := by
    rw [start]
    exact nofun
  exact unit ▸ moves.1.2 made

end LiveC.Parser

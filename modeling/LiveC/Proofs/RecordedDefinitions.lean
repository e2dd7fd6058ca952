import LiveC.Proofs.FileDeclarations
import LiveC.Proofs.ScannedTokens

/-!
Definitions are recorded once. The declarations of a file are listed in front of each round of
the loops that read them; a round adds to the unit what its declaration defines, whatever was
declared before.
-/

namespace LiveC
namespace Parser

/-! ### Declarations as they are read -/

/-- What a parser lists that is run ahead. -/
def listing {α : Type} (p : Parser (List α)) (s : ParserState) : List α :=
  match p s with
  | .ok list _ => list
  | .error _ _ => []

/-- What is listed in front of the rounds of a loop. -/
def collect {α β : Type} (step : β → Parser (ForInStep β)) (list : β → Parser (List α)) (b : β)
    (s : ParserState) : List α :=
  listing (list b) s ++
    match step b s with
    | .ok (.yield c) t => if t.rest.length < s.rest.length then collect step list c t else []
    | _ => []
termination_by s.rest.length

/-- A variable with the initialiser that follows. -/
def variableForm (g : Productions) (ty : CType) : Parser FileDeclaration.Form := do
  if ← eat .assign then return .object (some (← g.staticInit ty 0).2)
  else return .object none

/-- What a declarator declares its name as. -/
def declaredForm (g : Productions) (spec : DeclSpec) (d : Declarator) (body : Bool) :
    Parser FileDeclaration.Form := do
  if spec.storage = some .typedef then return .typedef
  else if d.ty.isFunction then return if body then .function else .prototype
  else variableForm g d.ty

/-- The declaration of a declarator, in front of its body or initialiser. -/
def declaration (g : Productions) (spec : DeclSpec) (d : Declarator) (body : Bool) :
    Parser (List FileDeclaration) := do
  match d.name with
  | none => return []
  | some (name, _) =>
    let first := (← findSymbol? name).isNone
    return [⟨name, spec.storage, ← declaredForm g spec d body, first⟩]

/-- The declaration of the declarator that follows. Only the first one can have a body. -/
def declarationAhead (g : Productions) (spec : DeclSpec) (first : Bool) :
    Parser (List FileDeclaration) := do
  let d ← g.declarator spec.ty false
  skipAttributes
  declaration g spec d (first && (← check .lbrace))

/-- The declarations of the specifiers that follow. -/
def declarationsAhead (g : Productions) (_ : Unit) : Parser (List FileDeclaration) := do
  if ← atEnd then return []
  if ← eat .semicolon then return []
  let spec ← declSpecifiers
  if ← eat .semicolon then return []
  return collect (fileDeclaratorStep g spec) (declarationAhead g spec) true (← get)

/-- The state in front of a token list. -/
def start (tokens : List Token) : ParserState :=
  let rest := seenTokens tokens
  { rest
    endLoc := ((tokens.find? (·.kind == .eof)).map Token.loc).getD
      ((rest.getLast?.map Token.loc).getD .start) }

/-- The declarations of a file. -/
def fileDeclarations (tokens : List Token) : List FileDeclaration :=
  let g := productions maxNesting
  collect (unitStep g) (declarationsAhead g) () (start tokens)

/-! ### Rounds -/

section

variable {α β : Type}

theorem listing_bind {γ : Type} {p : Parser γ} {f : γ → Parser (List α)} {s t : ParserState} {a : γ}
    (run : p s = .ok a t) : listing (p >>= f) s = listing (f a) t := by
  unfold listing
  rw [bind_ok run]

@[simp]
theorem listing_pure (list : List α) (s : ParserState) : listing (Pure.pure list) s = list := rfl

/-- What each round keeps of the list so far holds of the whole list. -/
theorem collect_invariant {step : β → Parser (ForInStep β)} {list : β → Parser (List α)}
    {I : List α → ParserState → Prop}
    (h : ∀ b s r t noted, I noted s → step b s = .ok r t → I (noted ++ listing (list b) s) t)
    {b c : β} {s t : ParserState} {noted : List α} (start : I noted s)
    (run : iterate step b s = .ok c t) : I (noted ++ collect step list b s) t := by
  fun_induction iterate step b s generalizing noted with
  | case1 => cases run
  | case2 b s c' t' round =>
      cases run
      rw [collect, round, List.append_nil]
      exact h b s _ _ noted start round
  | case3 b s c' t' round lt ih =>
      rw [collect, round]
      dsimp only
      rw [if_pos lt, ← List.append_assoc]
      exact ih (h b s _ _ noted start round) run
  | case4 b s c' t' round lt =>
      cases run
      rw [collect, round]
      dsimp only
      rw [if_neg lt, List.append_nil]
      exact h b s _ _ noted start round

end

/-! ### One declaration -/

variable {g : Productions} {spec : DeclSpec} {d : Declarator} {s t : ParserState}
  {ds : List FileDeclaration}

theorem guard_ok {α β : Type} {c : Prop} [Decidable c] {e : SourceFault} {f : α → Parser β}
    {k : Parser β} {b : β}
    (run : (if c then (MonadExcept.throw e : Parser α) >>= f else k) s = .ok b t) :
    ¬c ∧ k s = .ok b t := by
  by_cases hc : c
  · rw [if_pos hc] at run
    cases run
  · rw [if_neg hc] at run
    exact ⟨hc, run⟩

theorem eat_eq (p : Punct) (s : ParserState) : eat p s =
    if (s.rest.head?.getD ⟨.eof, s.endLoc⟩).kind == .punct p then
      .ok true { s with rest := s.rest.tail }
    else .ok false s := by
  unfold eat
  rw [check_bind]
  split <;> rfl

/-- A variable is declared behind its initialiser, and defined if it is not yet. -/
theorem defineVariable_accounts {u : ParserState} (h : s.unit.Accounts ds)
    (grown : s.unit.Grows u.unit) {name : String} {ty : CType} {init : Option (List InitItem)}
    {loc : Location} (isVariable : ¬(s.unit.symbols.find? name).any (·.ty.isFunction) = true)
    (defines : (spec.storage != some .external || init.isSome) = true)
    (run : ((do
      if !ty.isComplete then refuse loc (.unknownSize name)
      let defined := (s.unit.symbols.find? name).any (·.defined)
      let initialized := (← get).unit.globals.any fun v => v.name == name && v.init.isSome
      if defined && init.isSome && initialized then refuse loc (.redefinition name)
      if !(defined && init.isNone) then
        let isStatic :=
          spec.storage == some .static || (s.unit.symbols.find? name).any (·.isStatic)
        let object : GlobalVar := ⟨name, ty, isStatic, spec.isConst && !ty.isPointer, init, loc⟩
        setSymbol name ⟨ty, true, isStatic⟩
        modify fun s =>
          let others := if defined then s.unit.globals.filter (·.name != name) else s.unit.globals
          { s with unit := { s.unit with globals := others ++ [object] } }
      bindFile name (.global name) : Parser Unit) u) = .ok () t) :
    t.unit.Accounts
      (ds ++ [⟨name, spec.storage, .object init, (s.unit.symbols.find? name).isNone⟩]) := by
  obtain ⟨-, run⟩ := guard_ok run
  dsimp only at run
  rw [get_bind] at run
  obtain ⟨once, run⟩ := guard_ok run
  have isVariable : (s.unit.symbols.find? name).any (·.ty.isFunction) = false := by
    simpa using isVariable
  split at run
  case isTrue needed =>
    cases run
    refine TranslationUnit.MayDefine.accounts (d := ⟨name, spec.storage, .object init, _⟩)
      (g := ⟨name, ty, _, spec.isConst && !ty.isPointer, init, loc⟩) ?_ h grown
    exact ⟨rfl, rfl, rfl, isVariable, rfl, rfl, once, needed, defines⟩
  case isFalse again =>
    cases run
    obtain ⟨defined, init⟩ : (s.unit.symbols.find? name).any (·.defined) = true ∧ init = none := by
      simpa using again
    have known : (s.unit.symbols.find? name).isSome = true := Option.isSome_of_any defined
    subst init
    refine h.declare rfl grown rfl rfl (fun plain _ => ?_) (fun _ => ?_) fun unknown => ?_
    · rw [← SymbolTable.defines_iff_any, h.defined] at defined
      exact defined.resolve_left (h.not_function isVariable plain)
    · obtain ⟨old, found⟩ := Option.isSome_iff_exists.mp known
      obtain ⟨new, found', -⟩ := grown.symbols found
      exact Option.isSome_iff_exists.mpr ⟨new, found'⟩
    · simp [show s.unit.symbols.find? name = none from unknown] at known

theorem fileVariable_accounts (grown : ∀ ty offset, Grown (g.staticInit ty offset)) {name : String}
    {ty : CType} {loc : Location} (h : s.unit.Accounts ds)
    (run : fileVariable g spec name ty loc s = .ok () t) :
    t.unit.Accounts (ds ++ listing (do
      let form ← variableForm g ty
      return [⟨name, spec.storage, form, (s.unit.symbols.find? name).isNone⟩]) s) := by
  unfold fileVariable at run
  obtain ⟨-, run⟩ := guard_ok run
  dsimp only at run
  rw [findSymbol?_bind] at run
  obtain ⟨isVariable, run⟩ := guard_ok run
  rw [check_bind] at run
  split at run
  case isTrue external =>
    obtain ⟨storage, notAssigned⟩ : spec.storage = some .external ∧
        ¬((s.rest.head?.getD ⟨.eof, s.endLoc⟩).kind == .punct .assign) = true := by
      simpa using external
    have form : variableForm g ty s = .ok (.object none) s := by
      unfold variableForm
      rw [bind_ok ((eat_eq .assign s).trans (if_neg notAssigned))]
      rfl
    rw [listing_bind form, listing_pure]
    split at run
    case isTrue undeclared =>
      have unknown : s.unit.symbols.find? name = none := Option.isNone_iff_eq_none.mp undeclared
      cases run
      refine h.declare rfl (.insert (by rw [unknown]; rfl) fun old found => ?_) rfl rfl ?_ ?_ ?_
      · rw [unknown] at found
        cases found
      · simp [FileDeclaration.definesVariable, storage]
      · simp [SymbolTable.find?_insert]
      · simp [storage]
    case isFalse declared =>
      cases run
      refine h.declare rfl (.same rfl rfl rfl) rfl rfl ?_ ?_ ?_
      · simp [FileDeclaration.definesVariable, storage]
      · simpa [Option.isSome_iff_ne_none] using declared
      · simp [storage]
  case isFalse defining =>
    obtain ⟨assigned, u, eaten, run⟩ := bind_eq_ok run
    have moved : s.unit.Grows u.unit := (eat_closed growth_closed .assign).of_ok eaten
    cases assigned with
    | true =>
        obtain ⟨r, w, read, run⟩ := bind_eq_ok run
        have form : variableForm g ty s = .ok (.object (some r.2)) w := by
          unfold variableForm
          rw [bind_ok eaten, if_pos rfl, bind_ok read]
          rfl
        rw [listing_bind form, listing_pure]
        exact defineVariable_accounts h (moved.trans ((grown ty 0).of_ok read)) isVariable
          (by simp) run
    | false =>
        have form : variableForm g ty s = .ok (.object none) u := by
          unfold variableForm
          rw [bind_ok eaten]
          rfl
        rw [listing_bind form, listing_pure]
        refine defineVariable_accounts h moved isVariable ?_ run
        rw [eat_eq] at eaten
        split at eaten
        case isTrue => cases eaten
        case isFalse notAssigned => simpa [notAssigned] using defining

theorem declareFunction_unknown {name : String} {ty : CType} {isStatic : Bool} {loc : Location}
    (unknown : s.unit.symbols.find? name = none)
    (run : declareFunction name ty isStatic loc s = .ok () t) :
    t.unit.symbols.find? name = some ⟨ty, false, isStatic⟩ := by
  unfold declareFunction at run
  rw [findSymbol?_bind, unknown] at run
  cases run
  exact (SymbolTable.find?_insert ..).trans (if_pos rfl)

theorem fileDeclaration_accounts (grown : ∀ ty offset, Grown (g.staticInit ty offset))
    (h : s.unit.Accounts ds) (run : fileDeclaration g spec d s = .ok () t) :
    t.unit.Accounts (ds ++ listing (declaration g spec d false) s) := by
  unfold fileDeclaration at run
  unfold declaration
  cases named : d.name with
  | none =>
      rw [named] at run
      obtain ⟨_, _, -, run⟩ := bind_eq_ok run
      obtain ⟨_, _, -, run⟩ := bind_eq_ok run
      cases run
  | some declared =>
      obtain ⟨name, loc⟩ := declared
      rw [named] at run
      dsimp only at run ⊢
      unfold declaredForm
      rw [listing_bind (p := findSymbol? name) rfl]
      split at run
      case isTrue isTypedef =>
        cases run
        rw [if_pos isTypedef, pure_bind, listing_pure]
        refine h.declare rfl (.same rfl rfl rfl) rfl rfl nofun (fun form => absurd rfl form) ?_
        simp [isTypedef]
      case isFalse notTypedef =>
        rw [if_neg notTypedef]
        split at run
        case isTrue isFunction =>
          obtain ⟨_, u, entered, run⟩ := bind_eq_ok run
          cases run
          rw [if_pos isFunction, pure_bind, listing_pure]
          have moved := (declareFunction_grown _ _ _ _).of_ok entered
          refine h.declare rfl (moved.trans (.same rfl rfl rfl)) rfl rfl nofun (fun _ => ?_)
            fun unknown isStatic => ?_
          · obtain ⟨symbol, found, -⟩ := agrees_of_declareFunction entered
            exact Option.isSome_iff_exists.mpr ⟨symbol, found⟩
          · have added := declareFunction_unknown unknown entered
            exact ⟨_, added, beq_iff_eq.mpr isStatic⟩
        case isFalse notFunction =>
          rw [if_neg notFunction]
          exact fileVariable_accounts grown h run

theorem functionDefinition_accounts
    (blocks : g.Blocks (fun {α} (p : Parser α) => Grown p) fun {α} (p : Parser α) => Grown p)
    {signature : Signature} (isFunction : d.ty.signature? = some signature)
    (h : s.unit.Accounts ds) (run : functionDefinition g spec d signature s = .ok () t) :
    t.unit.Accounts (ds ++ listing (declaration g spec d true) s) := by
  unfold functionDefinition at run
  unfold declaration
  cases named : d.name with
  | none =>
      rw [named] at run
      obtain ⟨_, _, -, run⟩ := bind_eq_ok run
      obtain ⟨_, _, -, run⟩ := bind_eq_ok run
      cases run
  | some declared =>
      obtain ⟨name, loc⟩ := declared
      rw [named] at run
      dsimp only at run ⊢
      obtain ⟨notTypedef, run⟩ := guard_ok run
      obtain ⟨-, run⟩ := guard_ok run
      obtain ⟨-, run⟩ := guard_ok run
      rw [findSymbol?_bind] at run
      obtain ⟨-, run⟩ := guard_ok run
      obtain ⟨_, u, entered, run⟩ := bind_eq_ok run
      rw [findSymbol?_bind] at run
      obtain ⟨_, v, defined, run⟩ := bind_eq_ok run
      obtain ⟨_, w, bound, run⟩ := bind_eq_ok run
      obtain ⟨_, x, inside, run⟩ := bind_eq_ok run
      obtain ⟨_, y, parameters, run⟩ := bind_eq_ok run
      obtain ⟨_, z, opened, run⟩ := bind_eq_ok run
      obtain ⟨body, last, read, left⟩ := bind_eq_ok run
      cases defined
      cases bound
      cases inside
      cases left
      have types := Expr.isFunction_of_signature? isFunction
      unfold declaredForm
      rw [listing_bind (p := findSymbol? name) rfl, if_neg notTypedef, if_pos types, if_pos rfl,
        pure_bind, listing_pure]
      have moved := (declareFunction_grown _ _ _ _).of_ok entered
      have grown := ((bindParameters_grown _).of_ok parameters).trans
        (((expect_closed growth_closed _).of_ok opened).trans
          ((blockItems_closed growth_closedBlocks blocks).of_ok read))
      refine TranslationUnit.Accounts.grows ?_ (TranslationUnit.Grows.beside_function grown
        ⟨name, signature, last.locals, body, _, loc⟩)
      exact h.addFunction (d := ⟨name, spec.storage, .function, _⟩) rfl moved rfl rfl types rfl

theorem declaration_of_variable {body : Bool} (isVariable : d.ty.signature? = none) :
    declaration g spec d body = declaration g spec d false := by
  have notFunction : d.ty.isFunction = false := by
    cases ty : d.ty with
    | function => simp [ty, CType.signature?] at isVariable
    | void | int | double | pointer | array => rfl
  unfold declaration declaredForm
  simp only [notFunction, Bool.false_eq_true, if_false]

theorem fileDeclaratorStep_accounts
    (blocks : g.Blocks (fun {α} (p : Parser α) => Grown p) fun {α} (p : Parser α) => Grown p)
    {first : Bool} {r : ForInStep Bool} (h : s.unit.Accounts ds)
    (run : fileDeclaratorStep g spec first s = .ok r t) :
    t.unit.Accounts (ds ++ listing (declarationAhead g spec first) s) := by
  obtain ⟨d, u, declared, run⟩ := bind_eq_ok run
  obtain ⟨_, v, skipped, run⟩ := bind_eq_ok run
  have moved := ((blocks.each.declarator _ _).of_ok declared).trans
    ((skipAttributes_closed growth_closed).of_ok skipped)
  unfold declarationAhead
  rw [listing_bind declared, listing_bind skipped, listing_bind (p := check .lbrace) rfl]
  rw [check_bind] at run
  generalize ((v.rest.head?.getD ⟨.eof, v.endLoc⟩).kind == .punct .lbrace) = body at run ⊢
  have behind {w : ParserState} (declares : w.unit.Accounts (ds ++ listing (declaration g spec d false) v))
      (rest : (do
        if ← eat .comma then return ForInStep.yield false
        else
          expect .semicolon
          return ForInStep.done false) w = .ok r t) :
      t.unit.Accounts (ds ++ listing (declaration g spec d false) v) := by
    refine declares.grows (Grown.of_ok ?_ rest)
    refine (eat_closed growth_closed _).skip fun _ => .ite (fun _ => .done) fun _ => ?_
    exact (expect_closed growth_closed _).skip fun _ => .done
  cases signature : d.ty.signature? with
  | none =>
      rw [signature] at run
      obtain ⟨_, w, run, rest⟩ := bind_eq_ok run
      rw [declaration_of_variable signature]
      exact behind (fileDeclaration_accounts blocks.each.staticInit (h.grows moved) run) rest
  | some _ =>
      rw [signature] at run
      dsimp only at run
      split at run
      case isTrue defines =>
        obtain ⟨_, w, defined, run⟩ := bind_eq_ok run
        cases run
        rw [defines]
        exact functionDefinition_accounts blocks signature (h.grows moved) defined
      case isFalse declares =>
        obtain ⟨_, w, run, rest⟩ := bind_eq_ok run
        rw [Bool.eq_false_iff.mpr declares]
        exact behind (fileDeclaration_accounts blocks.each.staticInit (h.grows moved) run) rest

theorem unitStep_accounts
    (blocks : g.Blocks (fun {α} (p : Parser α) => Grown p) fun {α} (p : Parser α) => Grown p)
    {u : Unit} {r : ForInStep Unit} (h : s.unit.Accounts ds) (run : unitStep g u s = .ok r t)
    (accepted : t.errors = []) :
    t.unit.Accounts (ds ++ listing (declarationsAhead g u) s) := by
  obtain ⟨done, _, ended, run⟩ := bind_eq_ok run
  cases ended
  unfold declarationsAhead
  rw [listing_bind (p := atEnd) rfl]
  cases last : s.rest.isEmpty with
  | true =>
      rw [last] at run
      cases run
      simpa using h
  | false =>
      rw [last] at run
      obtain ⟨_, v, declared, run⟩ := bind_eq_ok run
      cases run
      rw [tryCatch_run] at declared
      cases external : externalDeclaration g s with
      | error e v =>
          rw [external] at declared
          cases declared
          simp at accepted
      | ok _ v =>
          rw [external] at declared
          cases declared
          obtain ⟨semicolon, a, eaten, external⟩ := bind_eq_ok external
          have moved := (eat_closed growth_closed _).of_ok eaten
          rw [if_neg Bool.false_ne_true, listing_bind eaten]
          cases semicolon with
          | true =>
              cases external
              simpa using h.grows moved
          | false =>
              obtain ⟨spec, b, specified, external⟩ := bind_eq_ok external
              obtain ⟨semicolon, c, eaten, external⟩ := bind_eq_ok external
              have moved := moved.trans (((declSpecifiers_closed growth_closed).of_ok specified).trans
                ((eat_closed growth_closed _).of_ok eaten))
              rw [if_neg Bool.false_ne_true, listing_bind specified, listing_bind eaten]
              cases semicolon with
              | true =>
                  cases external
                  simpa using h.grows moved
              | false =>
                  obtain ⟨_, _, rounds, external⟩ := bind_eq_ok external
                  cases external
                  rw [if_neg Bool.false_ne_true, listing_bind (p := get) rfl, listing_pure]
                  exact collect_invariant (I := fun ds s => s.unit.Accounts ds)
                    (fun _ _ _ _ _ h run => fileDeclaratorStep_accounts blocks h run)
                    (h.grows moved) rounds

/-! ### Whole files -/

/-- Errors are never taken back. -/
theorem errors_transition : UnitTransition fun s t => s.errors <+: t.errors where
  refl _ := List.prefix_rfl
  trans h k := h.trans k
  rest _ _ := List.prefix_rfl
  warnings _ _ := List.prefix_rfl
  errors _ _ := List.prefix_append _ _
  bind _ _ _ := List.prefix_rfl
  bindFile _ _ _ := List.prefix_rfl
  symbol _ _ _ _ := List.prefix_rfl
  strings _ _ := List.prefix_rfl
  locals _ _ := List.prefix_rfl
  staticLocals _ _ := List.prefix_rfl
  global _ _ _ := List.prefix_rfl
  block h := h
  loop h := h
  forget _ _ := List.prefix_rfl
  place _ _ _ _ := List.prefix_rfl
  functions _ _ := List.prefix_rfl

/-- The run that an accepted unit is taken from. -/
theorem start_of_parseTokens {tokens : List Token} {p : Parsed} (h : parseTokens tokens = .ok p) :
    ∃ t, translationUnit (productions maxNesting) (start tokens) = .ok () t ∧ t.unit = p.unit ∧
      t.errors = [] := by
  unfold parseTokens at h
  dsimp only at h
  unfold start seenTokens
  dsimp only
  generalize tokens.takeWhile (·.kind != .eof) = rest at h ⊢
  generalize ((tokens.find? (·.kind == .eof)).map Token.loc).getD
    ((rest.getLast?.map Token.loc).getD .start) = endLoc at h ⊢
  cases run : translationUnit (productions maxNesting) { rest, endLoc } with
  | error e s => simp [run] at h
  | ok _ t =>
      simp only [run] at h
      split at h
      case isFalse => cases h
      case isTrue accepted =>
        cases h
        exact ⟨t, rfl, rfl, List.isEmpty_iff.mp accepted⟩

/-- The declarations of an accepted file account for its definitions. -/
theorem accounts_of_parseTokens {tokens : List Token} {p : Parsed}
    (h : parseTokens tokens = .ok p) : p.unit.Accounts (fileDeclarations tokens) := by
  obtain ⟨t, run, unit, accepted⟩ := start_of_parseTokens h
  have moving := productions_moving (T := errors_transition.toTransition) maxNesting
  rw [← List.nil_append (fileDeclarations tokens), ← unit]
  refine collect_invariant
    (I := fun ds s => s.errors = [] → s.unit.Accounts ds) (fun u s r t ds before run accepted => ?_)
    (fun _ => .empty) run accepted
  have moves := unitStep_moves errors_transition moving u s
  rw [run] at moves
  have accepted' : s.errors = [] := List.prefix_nil.mp (accepted ▸ moves.1.2)
  exact unitStep_accounts (productions_grown maxNesting) (before accepted') run accepted

end Parser

/-- The definitions of a unit are recorded once, as the declarations of its file say. -/
structure TranslationUnit.RecordsDefinitions (u : TranslationUnit) (ds : List FileDeclaration) :
    Prop where
  /-- The names of functions and variables, static local ones included, are distinct. -/
  distinct : (u.functions.map (·.name) ++ u.globals.map (·.name)).Nodup
  defined (name : String) : u.symbols.Defines name ↔
    name ∈ u.functions.map (·.name) ∨ name ∈ u.globals.map (·.name)
  functions : u.functions.map (·.name) = (ds.filter (·.isFunction)).map (·.name)
  /-- A variable of the file is defined if a declaration is not `extern`, or has an initialiser, -/
  objects {name : String} : IsPlain name → (name ∈ u.globals.map (·.name) ↔
    ∃ d ∈ ds, d.name = name ∧ d.definesVariable = true)
  /-- and it has the only initialiser that a declaration gives it, or none. -/
  initialised : ∀ g ∈ u.globals, IsPlain g.name → initialisersOf g.name ds = g.init.toList
  /-- A name stays static that the first declaration makes static. -/
  static : ∀ d ∈ ds, d.first = true → d.storage = some .static → u.IsStatic d.name
  /-- No declaration is the first one of a name behind another. -/
  firsts : ds.Pairwise fun a b => a.form ≠ .typedef → a.name = b.name → b.first = false

/-- No name is defined twice. -/
theorem TranslationUnit.Recorded.distinct {declaring : List Nat} {u : TranslationUnit}
    {current : Option (String × CType)} {statics : Nat} (h : u.Recorded declaring current statics) :
    (u.functions.map (·.name) ++ u.globals.map (·.name)).Nodup := by
  refine List.nodup_append.mpr ⟨h.functionNames, h.globalNames, fun name inFunctions other inGlobals => ?_⟩
  rintro rfl
  obtain ⟨f, function, rfl⟩ := List.mem_map.mp inFunctions
  obtain ⟨g, object, same⟩ := List.mem_map.mp inGlobals
  obtain ⟨plain, isFunction⟩ := h.functions f function
  obtain ⟨-, isVariable⟩ | ⟨-, n, numbered, -⟩ := h.globals g object
  · rw [same, isFunction] at isVariable
    cases isVariable
  · exact numbered.not_isPlain (same ▸ plain)

/-- Whatever a source declares, and in whatever order, an accepted unit records its definitions
once. -/
theorem definitions_recorded {source : String} {defines : List (String × String)}
    {u : TranslationUnit} {warnings : List Diagnostic}
    (h : parseSource source defines = .ok (u, warnings)) :
    ∃ text, tokenize source defines = .ok text ∧
      u.RecordsDefinitions (Parser.fileDeclarations text.tokens) := by
  unfold parseSource at h
  obtain ⟨text, tokenized, h⟩ := ok_of_bind h
  refine ⟨text, tokenized, ?_⟩
  cases parsed : parseTokens text.tokens with
  | error faults =>
      rw [parsed] at h
      cases h
  | ok p =>
      rw [parsed] at h
      cases h
      have words := (areScanned_of_tokenize tokenized).seenTokens
      obtain ⟨current, statics, recorded⟩ :=
        recorded_of_parseTokens parsed fun t member => (words t member).isPlain
      have accounts := Parser.accounts_of_parseTokens parsed
      exact ⟨recorded.distinct, accounts.defined, accounts.functions, accounts.objects,
        accounts.initialised, accounts.static, accounts.firsts⟩

/-- A function that is static from its prototype on, with a static local variable, and variables that
are declared in several ways. -/
theorem definitions_recorded_declaredAgain :
    let source := "static int f(int); int a; int b; extern int a; extern int c;\nint b = 3;\n" ++
      "int f(int x) { static int n = 1; return g(n + c) + x; }\nextern int d = 4;"
    ∃ u warnings, parseSource source [] = .ok (u, warnings) ∧
      u.functions.map (fun f => (f.name, f.isStatic)) = [("f", true)] ∧
      u.globals.map (fun v => (v.name, v.init.isSome)) =
        [("a", false), ("b", true), ("f.n.1", true), ("d", true)] ∧
      ∃ text, tokenize source [] = .ok text ∧
        u.RecordsDefinitions (Parser.fileDeclarations text.tokens) := by
  intro source
  have facts : (parseSource source []).toOption.any (fun r =>
      r.1.functions.map (fun f => (f.name, f.isStatic)) = [("f", true)] ∧
      r.1.globals.map (fun v => (v.name, v.init.isSome)) =
        [("a", false), ("b", true), ("f.n.1", true), ("d", true)]) = true := by
    rw [parseSource_of_bytes (Text.toByteChars_append_of
      (Text.toByteChars_of_all ?_) (Text.toByteChars_of_all ?_))]
    all_goals decide +kernel
  obtain ⟨r, parsed, facts⟩ := exists_of_toOption_any facts
  obtain ⟨functions, globals⟩ := of_decide_eq_true facts
  exact ⟨r.1, r.2, parsed, functions, globals, definitions_recorded parsed⟩

end LiveC

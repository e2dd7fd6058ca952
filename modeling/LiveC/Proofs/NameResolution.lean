import LiveC.Parser.Source
import LiveC.Proofs.DeclaredNames
import LiveC.Proofs.FileTransitions

/-!
Names resolve by block scope. Every look-up of a source finds the latest declaration in the
innermost open scope that has one; what a name stands for, and whether it is a type, is what is
found. A variable is in scope behind its initialiser only.

Statements leave every block that they enter, also where an error is recovered from, and names are
what they were before. A declaration of the file makes its name known as one in a block does; a
function is known in its own body, where its parameters are the first names of the block.
-/

namespace LiveC

namespace Parser

open ScopeHistory

variable {g : Productions}

/-! ### Statements -/

section Blocks

variable {α : Type} {p : Parser α} {D : Bool}

theorem inBlock_trace (h : Traced (.nests true) p) (s : ParserState) :
    ∃ events, Nests true events ∧ Trace (inBlock p) s (.enter :: events ++ [.leave]) :=
  have ⟨events, trace, describes⟩ := h { s with scopes := s.scopes.openBlock }
  ⟨events, nests_of_describes describes, trace.inBlock⟩

theorem Traced.inBlock (h : Traced (.nests true) p) : Traced (.nests D) (inBlock p) := by
  intro s
  obtain ⟨events, inside, trace⟩ := inBlock_trace h s
  have nests : Nests D (.enter :: events ++ [.leave]) := .block inside
  refine ⟨_, trace, ?_⟩
  cases Parser.inBlock p s <;> exact nests

end Blocks

/-- Statements enclose their declarations in blocks. -/
theorem scopes_closedBlocks : ClosedBlocks (fun {α} (p : Parser α) => Traced (.nests false) p)
    (fun {α} (p : Parser α) => Traced (.nests true) p) where
  statements := nests_closed false
  items := nests_closed true
  weaken h := h.mono .declares .declares
  tryCatch hp hh := hp.tryCatch hh id
  recover e := .silent (recover_silent true e)
  inBlock := .inBlock
  loopBody h := h.between (fun _ _ => rfl) (fun _ _ => rfl) id

section

variable (scoping : g.Scoped)
include scoping

theorem blockDeclarator_nests (spec : DeclSpec) :
    Traced (.nests true) (blockDeclarator g spec) := by
  intro s
  refine (blockDeclarator_inBlock scoping spec s).mono fun h => ?_
  cases blockDeclarator g spec s with
  | error e u => exact .reads
  | ok stmts u =>
      rintro (@⟨d, t, name, loc, read, init, b, -, -, reads, -, declares⟩)
      have initial : LooksUp init := by
        cases declares with
        | typedef | function | external => exact .nil
        | static _ _ reads | automatic _ _ reads => exact reads
      exact .append (.reads reads) (.append (.reads initial) (.declare name b))

theorem blocks_scoped : g.Blocks (fun {α} (p : Parser α) => Traced (.nests false) p)
    (fun {α} (p : Parser α) => Traced (.nests true) p) where
  each := scoping.reads.mono .nests
  declares := blockDeclarator_nests scoping
  statement := scoping.statement

theorem blockItems_nests : Traced (.nests true) (blockItems g) :=
  blockItems_closed scopes_closedBlocks (blocks_scoped scoping)

theorem forStatement_nests : Traced (.nests true) (forStatement g) :=
  forStatement_closed scopes_closedBlocks (blocks_scoped scoping)

end

theorem productions_scoped (n : Nat) : (productions n).Scoped := by
  have reads (n : Nat) := productions_each reads_closed n
  have keeps (n : Nat) := productions_each keepsVariables_closed n
  refine ⟨reads n, keeps n, ?_⟩
  induction n with
  | zero => exact .silent fun _ _ => rfl
  | succ n ih =>
      exact statement_closed scopes_closedBlocks (blocks_scoped ⟨reads n, keeps n, ih⟩)

/-! ### Declarations of the file -/

/-- How a declaration at file scope makes a name known: the history behind its declarator, and
what the name is bound to. -/
inductive DeclaresInFile (spec : DeclSpec) (d : Declarator) (name : String) :
    ScopeHistory → Binding → Prop
  | typedef : spec.storage = some .typedef → DeclaresInFile spec d name [] (.typedef d.ty)
  | function : spec.storage ≠ some .typedef → d.ty.isFunction = true →
      DeclaresInFile spec d name [] (.global name)
  | object {init : ScopeHistory} : spec.storage ≠ some .typedef → d.ty.isFunction = false →
      LooksUp init → DeclaresInFile spec d name init (.global name)

theorem closed_atFile : Closed (fun {α} (p : Parser α) => Traced .atFile p) :=
  closed_of_reads .reads fun reads => .append (.reads reads) .leaveAll

section

variable (scoping : g.Scoped)
include scoping

theorem fileVariable_last (spec : DeclSpec) (name : String) (ty : CType) (loc : Location)
    (s : ParserState) : HasTrace (Last .reads fun _ e => e = .declareFile name (.global name))
      (fileVariable g spec name ty loc) s := by
  have bound (s : ParserState) : HasTrace
      (Last .reads fun _ e => e = .declareFile name (.global name))
      (bindFile name (.global name)) s := ⟨_, bindFile_trace name _ s, [], _, .nil, rfl, rfl⟩
  have define (old : Option GlobalSymbol) (ty : CType) (init : Option (List InitItem))
      (s : ParserState) :
      HasTrace (Last .reads fun _ e => e = .declareFile name (.global name)) (do
        if !ty.isComplete then refuse loc (.unknownSize name)
        let defined := old.any (·.defined)
        let initialized := (← get).unit.globals.any fun v => v.name == name && v.init.isSome
        if defined && init.isSome && initialized then refuse loc (.redefinition name)
        if !(defined && init.isNone) then
          let isStatic := spec.storage == some .static || old.any (·.isStatic)
          let object : GlobalVar := ⟨name, ty, isStatic, spec.isConst && !ty.isPointer, init, loc⟩
          setSymbol name ⟨ty, true, isStatic⟩
          modify fun s =>
            let others := if defined then s.unit.globals.filter (·.name != name) else s.unit.globals
            { s with unit := { s.unit with globals := others ++ [object] } }
        bindFile name (.global name)) s := by
    refine last_guard fun _ => .look (fun _ _ => rfl) <| last_guard fun _ => .ite (fun _ => ?_)
      fun _ => bound s
    refine last_bind (setSymbol_traced _ _ s) fun _ s _ => ?_
    exact last_bind (Traced.modify (fun _ _ => rfl) s) fun _ s _ => bound s
  refine last_guard fun _ => last_bind (findSymbol?_traced name s) fun old s _ => ?_
  refine last_guard fun _ => last_bind (check_closed reads_closed .assign s) fun assigned s _ => ?_
  refine .ite (fun _ => .ite (fun _ => ?_) fun _ => bound s) fun _ => ?_
  · exact last_bind (setSymbol_traced _ _ s) fun _ s _ => bound s
  · refine last_bind (eat_traced .assign s) fun assigned s _ => .ite (fun _ => ?_) fun _ =>
      define _ ty none s
    exact last_bind (scoping.reads.staticInit ty 0 s) fun r s _ => define _ r.1 _ s

/-- The history of a declaration at file scope, whether it is accepted or not. -/
def InFile (spec : DeclSpec) (d : Declarator) (h : ScopeHistory) :
    EStateM.Result SourceFault ParserState Unit → Prop
  | .ok _ _ => ∃ name loc init b, d.name = some (name, loc) ∧ DeclaresInFile spec d name init b ∧
      h = init ++ [.declareFile name b]
  | .error _ _ => LooksUp h

theorem fileDeclaration_inFile (spec : DeclSpec) (d : Declarator) (s : ParserState) :
    HasTrace (InFile spec d) (fileDeclaration g spec d) s := by
  unfold fileDeclaration
  split
  case h_1 => exact ⟨[], .silent (fun _ _ => rfl) s, .nil⟩
  case h_2 name loc named =>
    have bound (b : Binding) (s : ParserState) :
        HasTrace (Last .nothing fun _ e => e = .declareFile name b) (bindFile name b) s :=
      ⟨_, bindFile_trace name b s, [], _, rfl, rfl, rfl⟩
    have accepted {p : Parser Unit} (h : HasTrace (Introduces (.declareFile name) fun _ =>
        DeclaresInFile spec d name) p s) : HasTrace (InFile spec d) p s := by
      refine h.mono fun events => ?_
      cases p s with
      | error e u => exact id
      | ok _ u => exact fun ⟨init, b, declares, same⟩ => ⟨name, loc, init, b, named, declares, same⟩
    refine .ite (fun typedef => ?_) fun notTypedef => .ite (fun isFunction => ?_) fun object => ?_
    · exact accepted (introduces_of_nothing (bound _ s) (.typedef typedef))
    · exact accepted (introduces_of_nothing (last_bind (declareFunction_traced _ _ _ _ s)
        fun _ s _ => bound _ s) (.function notTypedef isFunction))
    · refine accepted (introduces_of_reads (fileVariable_last scoping spec name d.ty loc s) ?_)
      rintro init u e reads rfl
      exact ⟨_, rfl, .object notTypedef (Bool.eq_false_iff.mpr object) reads⟩

theorem fileDeclaration_atFile (spec : DeclSpec) (d : Declarator) :
    Traced .atFile (fileDeclaration g spec d) := by
  intro s
  refine (fileDeclaration_inFile scoping spec d s).mono fun h => ?_
  cases fileDeclaration g spec d s with
  | error e u => exact fun reads => AtFile.append (.reads reads) .leaveAll
  | ok _ u =>
      rintro ⟨name, loc, init, b, -, declares, rfl⟩
      have initial : LooksUp init := by
        cases declares with
        | typedef | function => exact .nil
        | object _ _ reads => exact reads
      exact AtFile.append (.reads initial) (.declare name b)

end

/-! ### Functions -/

/-- Parameters are declared in order, as the first locals from a number on. -/
def parameterEvents (names : List String) (first : Nat) : ScopeHistory :=
  (names.zipIdx first).map fun r => .declare r.1 (.local r.2)

theorem nests_parameterEvents (names : List String) (first : Nat) :
    Nests true (parameterEvents names first) := by
  induction names generalizing first with
  | nil => exact .reads .nil
  | cons name names ih => exact .append (.declare name (.local first)) (ih (first + 1))

/-- The history of a parameter list. -/
def OfParameters (params : List Param) (first : Nat) (h : ScopeHistory) :
    EStateM.Result SourceFault ParserState Unit → Prop
  | .ok _ _ => ∃ names, params.map Param.name = names.map some ∧ h = parameterEvents names first
  | .error _ _ => Nests true h

theorem OfParameters.cons {p : Param} {params : List Param} {name : String} {first : Nat}
    {h : ScopeHistory} {r : EStateM.Result SourceFault ParserState Unit}
    (named : p.name = some name) (others : OfParameters params (first + 1) h r) :
    OfParameters (p :: params) first (.declare name (.local first) :: h) r := by
  cases r with
  | ok _ _ =>
      obtain ⟨names, same, rfl⟩ := others
      exact ⟨name :: names, by simp [named, same], rfl⟩
  | error _ _ => exact Nests.append (.declare name (.local first)) others

theorem bindParameters_ofParameters (params : List Param) (s : ParserState) :
    HasTrace (OfParameters params s.locals.length) (bindParameters params) s := by
  induction params generalizing s with
  | nil => exact ⟨[], .silent (fun _ _ => rfl) s, [], rfl, rfl⟩
  | cons p params ih =>
      unfold bindParameters
      split
      case h_1 => exact ⟨[], .silent (fun _ _ => rfl) s, .reads .nil⟩
      case h_2 name named =>
        have unfinished : Nests true [] := .reads .nil
        refine .look (fun _ _ => rfl) <| .behind (.modify fun _ _ => rfl) (fun _ _ => unfinished) ?_
        rintro _ _ ⟨⟩
        refine .change (e := .declare name (.local s.locals.length)) (fun _ _ => rfl) trivial ?_
        refine (ih _).mono fun h => ?_
        rw [List.length_append, List.length_singleton]
        exact .cons named

/-- The history of a function behind its declarator: its name is known in the file, its parameters
and what its body declares are known up to its end. -/
def InFunction (d : Declarator) (h : ScopeHistory) :
    EStateM.Result SourceFault ParserState Unit → Prop
  | .ok _ _ => ∃ name loc names body, d.name = some (name, loc) ∧
      (d.params.getD []).map Param.name = names.map some ∧ Nests true body ∧
      h = .declareFile name (.global name) :: .enter ::
        (parameterEvents names 0 ++ body ++ [.leave])
  | .error _ _ => AtFile (h ++ [.leaveAll])

theorem functionDefinition_inFunction (scoping : g.Scoped) (spec : DeclSpec) (d : Declarator)
    (signature : Signature) (s : ParserState) :
    HasTrace (InFunction d) (functionDefinition g spec d signature) s := by
  have fails (e : SourceFault) (t : ParserState) : InFunction d [] (.error e t) := AtFile.leaveAll
  unfold functionDefinition
  split
  case h_1 => exact ⟨[], .silent (fun _ _ => rfl) s, AtFile.leaveAll⟩
  case h_2 name loc named =>
    have broken {h : ScopeHistory} (nests : Nests true h) (e : SourceFault) (t : ParserState) :
        InFunction d (.declareFile name (.global name) :: .enter :: h) (.error e t) :=
      have declared : AtFile [.declareFile name (.global name)] := .declare name _
      declared.append (.broken nests)
    refine .guard fails fun _ => .guard fails fun _ => .guard fails fun _ => ?_
    refine .behind (findSymbol?_traced name) fails fun old s _ => .guard fails fun _ => ?_
    refine .behind (declareFunction_traced _ _ _ _) fails fun _ s _ => ?_
    refine .behind (findSymbol?_traced name) fails fun old s _ => ?_
    refine .behind (setSymbol_traced _ _) fails fun _ s _ => ?_
    refine .change (e := .declareFile name (.global name)) (fun _ _ => rfl) trivial ?_
    refine .change (e := .enter) (fun _ _ => rfl) trivial ?_
    refine (bindParameters_ofParameters (d.params.getD []) _).bind
      (fun e t h _ nests => broken nests e t) fun _ s h _ ⟨names, params, events⟩ => ?_
    subst events
    have nests := nests_parameterEvents names 0
    refine .behind (expect_traced _) (fun e t => ?_) fun _ s _ => ?_
    · exact broken (nests.append (.reads .nil)) e t
    refine (blockItems_nests scoping s).bind (fun e t h _ body => ?_) fun body s h _ inside => ?_
    · exact broken (nests.append body) e t
    refine ⟨[.leave], .change (fun _ _ => rfl) trivial, name, loc, names, h, named, params,
      inside, ?_⟩
    simp

section

variable (scoping : g.Scoped)
include scoping

theorem functionDefinition_atFile (spec : DeclSpec) (d : Declarator) (signature : Signature) :
    Traced .atFile (functionDefinition g spec d signature) := by
  intro s
  refine (functionDefinition_inFunction scoping spec d signature s).mono fun h => ?_
  cases functionDefinition g spec d signature s with
  | error e u => exact id
  | ok _ u =>
      rintro ⟨name, loc, names, body, -, -, nests, rfl⟩
      have declared : AtFile [.declareFile name (.global name)] := .declare name _
      exact declared.append (.function ((nests_parameterEvents names 0).append nests))

/-! ### Sources -/

theorem fileDeclaratorStep_atFile (spec : DeclSpec) (first : Bool) :
    Traced .atFile (fileDeclaratorStep g spec first) := by
  have C := closed_atFile
  have each : g.Each fun {α} (p : Parser α) => Traced .atFile p :=
    scoping.reads.mono fun h => h.mono .reads fun reads => .append (.reads reads) .leaveAll
  refine C.bind (each.declarator _ false) fun d => C.bind (skipAttributes_closed C) fun _ =>
    C.bind (check_closed C _) fun body => ?_
  have declare : Traced .atFile (do
      fileDeclaration g spec d
      if ← eat .comma then return ForInStep.yield false
      else
        expect .semicolon
        return ForInStep.done false) :=
    C.bind (fileDeclaration_atFile scoping spec d) fun _ => C.bind (eat_closed C _) fun _ =>
      C.ite (fun _ => C.pure _) fun _ => C.bind (expect_closed C _) fun _ => C.pure _
  dsimp only
  split
  case h_1 signature _ =>
    refine C.ite (fun _ => ?_) fun _ => declare
    exact C.bind (functionDefinition_atFile scoping spec d signature) fun _ => C.pure _
  case h_2 => exact declare

theorem externalDeclaration_atFile : Traced .atFile (externalDeclaration g) := by
  have C := closed_atFile
  refine C.bind (eat_closed C _) fun _ => C.ite (fun _ => C.pure _) fun _ => ?_
  refine C.bind (declSpecifiers_closed C) fun spec => C.bind (eat_closed C _) fun _ =>
    C.ite (fun _ => C.pure _) fun _ => ?_
  exact C.bind (C.iterate (fileDeclaratorStep_atFile scoping spec) true) fun _ => C.pure _

/-- Behind an error every block is left. -/
theorem unitStep_atFile (u : Unit) : Traced .atFile (unitStep g u) := by
  have C := closed_atFile
  refine C.bind (atEnd_closed C) fun _ => C.ite (fun _ => C.pure _) fun _ =>
    C.bind ?_ fun _ => C.pure _
  intro s
  obtain ⟨h, trace, describes⟩ := externalDeclaration_atFile scoping s
  cases run : externalDeclaration g s with
  | ok _ t =>
      rw [run] at describes
      refine ⟨h, .passes run trace, ?_⟩
      rw [tryCatch_run, run]
      exact describes
  | error e t =>
      rw [run] at describes
      have left : Trace (do
          leaveFunction
          recover false e) t [.leaveAll] :=
        .change_bind (fun _ _ => rfl) trivial (.silent (recover_silent false e) _)
      refine ⟨h ++ [.leaveAll], .caught run trace left, ?_⟩
      rw [tryCatch_run, run]
      exact describes

theorem translationUnit_atFile : Traced .atFile (translationUnit g) :=
  .iterate (unitStep_atFile scoping) ()

end

/-! ### Resolution -/

/-- The node that a name used as an expression stands for, where a history is in front of it. -/
inductive StandsFor (h : ScopeHistory) (s : ParserState) (name : String) : Expr → Prop
  | local {n : Note} {id : Nat} {v : LocalVar} : Resolves h name (some (.local id)) →
      s.locals[id]? = some v → n.ty = v.ty → StandsFor h s name (.var n id)
  | global {n : Note} {symbol : String} {object : GlobalSymbol} :
      Resolves h name (some (.global symbol)) → s.unit.symbols.find? symbol = some object →
        n.ty = object.ty → StandsFor h s name (.global n symbol)
  /-- An unknown name in front of a parenthesis. -/
  | implicit {n : Note} : Resolves h name none → check .lparen s = .ok true s →
      StandsFor h s name (.global n name)

/-- How names resolve in a grammar. The scopes of a state are told by the history in front of it,
to which a run adds its trace. -/
structure ResolvesNames (g : Productions) : Prop where
  /-- The trace of a source says all that the source gets to know of scopes and does to them. Each
  of its look-ups finds what the rule of block scopes says of the history in front of it. -/
  source (rest : List Token) (endLoc : Location) : ∃ h,
    Trace (translationUnit g) { rest, endLoc } h ∧
    Describes .atFile h (translationUnit g { rest, endLoc }) ∧
    (∀ scopes : ScopeStack, scopes.Answers h → translationUnit g { rest, endLoc, scopes } =
      rescope (scopes.after h) (translationUnit g { rest, endLoc })) ∧
    ∀ front name found back, h = front ++ .use name found :: back →
      ∀ other, Resolves front name other ↔ other = found
  behind {α : Type} {p : Parser α} {s t : ParserState} {a : α} {h h' : ScopeHistory} :
    s.scopes = .after {} h → Trace p s h' → p s = .ok a t → t.scopes = .after {} (h ++ h')
  /-- What a name stands for as an expression, -/
  standsFor {h : ScopeHistory} {name : String} {loc : Location} {s t : ParserState} {e : Expr} :
    s.scopes = .after {} h → identifier name loc s = .ok e t → StandsFor h s name e
  /-- and whether it is a type, is what the rule says. -/
  isType {h : ScopeHistory} {s : ParserState} (name : String) (loc : Location) :
    s.scopes = .after {} h → ∃ found, Resolves h name found ∧
      isTypedef ⟨.ident name, loc⟩ s = .ok (found.any Binding.isTypedef) s
  /-- Expressions, declarators and initialisers declare nothing but unknown functions. -/
  reads : g.Each fun {α} (p : Parser α) => Traced .reads p
  /-- Where declarations in blocks, -/
  inBlock (spec : DeclSpec) (s : ParserState) :
    HasTrace (InBlock g spec s) (blockDeclarator g spec) s
  /-- declarations of the file, -/
  inFile (spec : DeclSpec) (d : Declarator) (s : ParserState) :
    HasTrace (InFile spec d) (fileDeclaration g spec d) s
  /-- and functions with their parameters make names known. -/
  inFunction (spec : DeclSpec) (d : Declarator) (signature : Signature) (s : ParserState) :
    HasTrace (InFunction d) (functionDefinition g spec d signature) s
  /-- Compound statements -/
  compound (s : ParserState) : ∃ h, Nests true h ∧
    Trace (Parser.inBlock (blockItems g)) s (.enter :: h ++ [.leave])
  /-- and the clauses of a loop, with its body, are scopes of their own. -/
  clauses (s : ParserState) : ∃ h, Nests true h ∧
    Trace (Parser.inBlock (forStatement g)) s (.enter :: h ++ [.leave])
  /-- Behind a statement, also one with an error in it, names are what they were in front. -/
  restores (s : ParserState) : match g.statement s with
    | .ok _ t | .error _ t => t.scopes.blocks = s.scopes.blocks ∧
        ∀ name, ScopeStack.Keeps name (s.scopes.find? name) (t.scopes.find? name)

/-- What is found in scope is what the rule says of the history. -/
theorem resolves_find? {h : ScopeHistory} {s : ParserState} (scopes : s.scopes = .after {} h)
    (name : String) : Resolves h name (s.scopes.find? name) :=
  scopes ▸ (ScopeStack.records_after h).resolves name

theorem standsFor_of_identifier {h : ScopeHistory} {name : String} {loc : Location}
    {s t : ParserState} {e : Expr} (scopes : s.scopes = .after {} h)
    (run : identifier name loc s = .ok e t) : StandsFor h s name e := by
  have resolves := resolves_find? scopes name
  obtain ⟨b, u, looked, run⟩ := bind_eq_ok run
  cases looked
  cases found : s.scopes.find? name with
  | some b =>
      rw [found] at run resolves
      cases b with
      | «local» id =>
          obtain ⟨_, u, looked, run⟩ := bind_eq_ok run
          cases looked
          cases here : s.locals[id]? with
          | none =>
              rw [here] at run
              cases run
          | some v =>
              rw [here] at run
              cases run
              exact .local resolves here rfl
      | global symbol =>
          obtain ⟨_, u, looked, run⟩ := bind_eq_ok run
          cases looked
          cases here : s.unit.symbols.find? symbol with
          | none =>
              rw [here] at run
              cases run
          | some object =>
              rw [here] at run
              cases run
              exact .global resolves here rfl
      | typedef ty => cases run
  | none =>
      rw [found] at run resolves
      obtain ⟨called, u, ahead, run⟩ := bind_eq_ok run
      cases called with
      | false => cases run
      | true =>
          obtain rfl : s = u := (EStateM.Result.ok.inj ahead).2
          obtain ⟨_, _, -, run⟩ := bind_eq_ok run
          obtain ⟨_, _, -, run⟩ := bind_eq_ok run
          obtain ⟨_, _, -, run⟩ := bind_eq_ok run
          cases run
          exact .implicit resolves ahead

theorem names_resolve (n : Nat) : ResolvesNames (productions n) := by
  have scoping := productions_scoped n
  refine ⟨?_, ?_, standsFor_of_identifier,
    fun name loc scopes => ⟨_, resolves_find? scopes name, rfl⟩, scoping.reads,
    blockDeclarator_inBlock scoping, fileDeclaration_inFile scoping,
    functionDefinition_inFunction scoping, inBlock_trace (blockItems_nests scoping),
    inBlock_trace (forStatement_nests scoping), ?_⟩
  · intro rest endLoc
    obtain ⟨h, trace, describes⟩ := translationUnit_atFile scoping { rest, endLoc }
    obtain ⟨answers, same⟩ := trace.run
    refine ⟨h, trace, describes, fun scopes => same scopes, ?_⟩
    rintro front name found back rfl other
    have resolves := ScopeStack.resolves_of_answers answers
    exact ⟨resolves.unique, fun same => same ▸ resolves⟩
  · intro α p s t a h h' scopes trace run
    rw [trace.scopes run, scopes, ScopeStack.after_append]
  · intro s
    obtain ⟨h, trace, describes⟩ := scoping.statement s
    obtain ⟨answers, same⟩ := trace.run
    have restores := ScopeStack.restores_of_nests (nests_of_describes describes) answers nofun
      (Nat.zero_le _)
    have kept {t : ParserState} (scopes : t.scopes = s.scopes.after h) :
        t.scopes.blocks = s.scopes.blocks ∧
          ∀ name, ScopeStack.Keeps name (s.scopes.find? name) (t.scopes.find? name) :=
      scopes ▸ ⟨restores.outer, restores.find?⟩
    cases run : (productions n).statement s with
    | ok stmt t => exact kept (scopes_of_ok (same s.scopes answers) run)
    | error e t => exact kept (scopes_of_error (same s.scopes answers) run)

end Parser

/-- The global variable that a local one is computed from. -/
def Stmt.initialGlobal? : Stmt → Option String
  | .init _ _ [⟨_, .binary _ _ (.global _ name) _⟩] => some name
  | _ => none

/-- The messages that a source is refused with. -/
def refusals (source : String) : List String :=
  match parseSource source [] with
  | .ok _ => []
  | .error faults => faults.map Diagnostic.message

theorem refusals_of_bytes {source : String} {cs : List Char}
    (bytes : Text.toByteChars source = cs) :
    refusals source = match parseBytes cs [] with
      | .ok _ => []
      | .error faults => faults.map Diagnostic.message := by
  rw [refusals, parseSource_of_bytes bytes]

/-- A variable is not in scope in its own initialiser: the name is that of another variable there,
or of none. A parameter is not in scope in the parameter list. -/
theorem parseSource_of_ownInitialiser :
    (∃ u warnings, parseSource "int x = 1; int f(void) \x7b int x = x + 1; return x; \x7d" [] =
        .ok (u, warnings) ∧
      ∃ f ∈ u.functions, f.locals.map LocalVar.name = ["x"] ∧
        f.body.head?.bind Stmt.initialGlobal? = some "x") ∧
    refusals ("void *malloc(unsigned long); " ++
        "int f(void) \x7b int *p = malloc(sizeof *p); return 0; \x7d") =
      ["use of undeclared identifier 'p'"] ∧
    refusals "int f(int x, int y[sizeof x]) \x7b return 0; \x7d" =
      ["use of undeclared identifier 'x'"] := by
  refine ⟨?_, ?_, ?_⟩
  · have facts : (parseSource "int x = 1; int f(void) \x7b int x = x + 1; return x; \x7d"
        []).toOption.any (fun r => ∃ f ∈ r.1.functions, f.locals.map LocalVar.name = ["x"] ∧
          f.body.head?.bind Stmt.initialGlobal? = some "x") = true := by
      rw [parseSource_of_bytes (Text.toByteChars_of_all ?_)]
      all_goals decide +kernel
    obtain ⟨r, parsed, facts⟩ := exists_of_toOption_any facts
    exact ⟨r.1, r.2, parsed, of_decide_eq_true facts⟩
  · rw [refusals_of_bytes (Text.toByteChars_append_of
      (Text.toByteChars_of_all ?_) (Text.toByteChars_of_all ?_))]
    all_goals decide +kernel
  · rw [refusals_of_bytes (Text.toByteChars_of_all ?_)]
    all_goals decide +kernel

end LiveC

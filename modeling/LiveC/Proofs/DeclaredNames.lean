import LiveC.Proofs.ParserClosure
import LiveC.Proofs.ScopeTraces

/-!
The history of each production. Below the level of statements names are only looked up; a
statement leaves every block that it enters.

Where declarations in blocks make their names known. A typedef, a function and an external
variable are in scope right behind their declarators, any other variable is in scope behind its
initialiser.
-/

namespace LiveC.Parser

open ScopeHistory

variable {L : ScopeLanguage} {g : Productions}

/-! ### Elementary steps -/

theorem skipToClose_silent (e : SyntaxError) : Silent (skipToClose e) := by
  intro s scopes
  cases found : behindClose? 1 s.rest with
  | some rest =>
      have found' : behindClose? 1 { s with scopes }.rest = some rest := found
      rw [skipToClose_some found, skipToClose_some found']
      rfl
  | none =>
      have found' : behindClose? 1 { s with scopes }.rest = none := found
      rw [skipToClose_none found, skipToClose_none found']
      rfl

theorem typed_silent {α : Type} (t : Typing α) : Silent (typed t) := by
  intro s scopes
  unfold typed
  cases t.run s.warnings <;> rfl

theorem recover_silent (inBlock : Bool) (e : SourceFault) : Silent (recover inBlock e) :=
  fun _ _ => rfl

theorem eatKeyword_traced (kw : Keyword) : Traced L (eatKeyword kw) :=
  .bind (.silent (p := peek) fun _ _ => rfl) fun _ =>
    .ite (fun _ => .silent fun _ _ => rfl) fun _ => .pure _

theorem eat_traced (p : Punct) : Traced L (eat p) :=
  .bind (.silent (p := check p) fun _ _ => rfl) fun _ =>
    .ite (fun _ => .silent fun _ _ => rfl) fun _ => .pure _

theorem expect_traced (p : Punct) : Traced L (expect p) :=
  (eat_traced p).bind fun _ => .ite (fun _ => .pure _) fun _ =>
    .bind (.silent (p := peek) fun _ _ => rfl) fun _ => .throw _

theorem skipAttributes_traced : Traced L skipAttributes := by
  refine .iterate (fun _ => .bind (p := eatKeyword .attributeKw <||> eatKeyword .declspecKw) ?_
    fun _ => .ite (fun _ => ?_) fun _ => .pure _) ()
  · refine (eatKeyword_traced _).bind fun first => ?_
    cases first with
    | true => exact .pure _
    | false => exact eatKeyword_traced _
  · have skip : Traced L skipAttribute :=
      (expect_traced _).bind fun _ => .silent (skipToClose_silent _)
    exact skip.bind fun _ => .pure _

theorem setSymbol_traced (name : String) (symbol : GlobalSymbol) :
    Traced L (setSymbol name symbol) := .silent fun _ _ => rfl

theorem findSymbol?_traced (name : String) : Traced L (findSymbol? name) := .silent fun _ _ => rfl

theorem declareFunction_traced (name : String) (ty : CType) (isStatic : Bool) (loc : Location) :
    Traced L (declareFunction name ty isStatic loc) := by
  refine (findSymbol?_traced name).bind fun old => ?_
  split
  case h_1 => exact setSymbol_traced _ _
  case h_2 old =>
    split
    case h_1 s t _ _ =>
      refine .ite (fun _ => .throw _) fun _ => .ite (fun _ => setSymbol_traced _ _) fun _ => .pure _
    case h_2 => exact .throw _
    case h_3 => exact .throw _

/-- A change of the scopes and nothing else. -/
theorem bindFile_trace (name : String) (b : Binding) (s : ParserState) :
    Trace (bindFile name b) s [.declareFile name b] := .change (fun _ _ => rfl) trivial

theorem bind_trace (name : String) (b : Binding) (s : ParserState) :
    Trace (bind name b) s [.declare name b] := .change (fun _ _ => rfl) trivial

/-- A name that is found nowhere is declared as a function in front of a parenthesis. -/
theorem implicit_reads (name : String) (loc : Location) (s : ParserState) :
    HasTrace (fun h _ => LooksUp (.use name none :: h)) (do
      if ← check .lparen then
        warn loc (.implicitFunction name)
        declareFunction name (.function (.int .int) [] false true) false loc
        bindFile name (.global name)
        return Expr.global ⟨.function (.int .int) [] false true, loc⟩ name
      else refuse loc (.undeclared name)) s := by
  have missing : LooksUp [.use name none] := .use name none
  refine .behind (.silent fun _ _ => rfl) (fun _ _ => missing) fun called t _ => .ite (fun _ => ?_)
    fun _ => ⟨[], .silent (fun _ _ => rfl) t, missing⟩
  refine .behind (.silent fun _ _ => rfl) (fun _ _ => missing) fun _ t _ => ?_
  refine .behind (declareFunction_traced _ _ _ _) (fun _ _ => missing) fun _ t _ => ?_
  exact ⟨_, .bind rfl (bindFile_trace name (.global name) t) (.silent (fun _ _ => rfl) _),
    .implicit name⟩

theorem identifier_reads (name : String) (loc : Location) :
    Traced .reads (identifier name loc) := by
  intro s
  cases found : s.scopes.find? name with
  | none =>
      obtain ⟨h, trace, reads⟩ := implicit_reads name loc s
      have looked : find? name s = .ok none s := congrArg (EStateM.Result.ok · s) found
      refine ⟨_, .bind looked (.use name s) trace, ?_⟩
      rw [found]
      cases identifier name loc s <;> exact reads
  | some b =>
      refine Traced.bind_at ⟨_, .use name s, .use name _⟩ ?_
      intro b' t run
      cases run
      rw [found]
      cases b with
      | «local» id =>
          refine Traced.look (fun _ _ => rfl) (fun s => ?_) s
          split
          · exact .pure _
          · exact .throw _
      | global symbol =>
          refine (findSymbol?_traced symbol).bind (fun found => ?_) s
          split
          · exact .pure _
          · exact .throw _
      | typedef ty => exact Traced.throw _ s

/-- What only looks names up. -/
theorem closed_of_reads (has : ∀ {h}, LooksUp h → L.has h)
    (breaks : ∀ {h}, LooksUp h → L.breaks h) : Closed (fun {α} (p : Parser α) => Traced L p) where
  pure := .pure
  throw := .throw
  bind := .bind
  iterate := .iterate
  look := .look
  next := .silent fun _ _ => rfl
  skipToClose e := .silent (skipToClose_silent e)
  warn loc w := .silent fun _ _ => rfl
  typed t := .silent (typed_silent t)
  addString bytes := .silent fun _ _ => rfl
  find? name := fun s => ⟨_, .use name s, has (.use name _)⟩
  identifier name loc := (identifier_reads name loc).mono has breaks
  nestedDeclarator := by
    intro g expect suffixes declarator base abstract
    refine .bind (.silent fun _ _ => rfl) fun _ => .look (fun _ _ => rfl) fun s => ?_
    refine .bind (.silent (skipToClose_silent _)) fun _ => .bind (suffixes base) fun r => ?_
    refine .look (fun _ _ => rfl) fun t => .bind (.modify fun _ _ => rfl) fun _ => ?_
    exact .bind (declarator r.1 abstract) fun d => .bind (expect _) fun _ =>
      .bind (.modify fun _ _ => rfl) fun _ => .pure d

theorem reads_closed : Closed (fun {α} (p : Parser α) => Traced .reads p) := closed_of_reads id id

theorem nests_closed (D : Bool) : Closed (fun {α} (p : Parser α) => Traced (.nests D) p) :=
  closed_of_reads .reads .reads

theorem Traced.nests {α : Type} {p : Parser α} {D : Bool} (h : Traced .reads p) :
    Traced (.nests D) p := h.mono .reads .reads

/-! ### Variables of a function -/

/-- The function that is read has the same variables in two states. -/
structure SameVariables (s t : ParserState) : Prop where
  locals : t.locals = s.locals
  staticLocals : t.staticLocals = s.staticLocals
  current : t.current = s.current

theorem SameVariables.refl (s : ParserState) : SameVariables s s := ⟨rfl, rfl, rfl⟩

theorem SameVariables.trans {s t u : ParserState} (h : SameVariables s t)
    (k : SameVariables t u) : SameVariables s u :=
  ⟨k.locals.trans h.locals, k.staticLocals.trans h.staticLocals, k.current.trans h.current⟩

/-- A run that succeeds adds no variables to the function. -/
def KeepsVariables {α : Type} (p : Parser α) : Prop :=
  ∀ s a t, p s = .ok a t → SameVariables s t

namespace KeepsVariables

variable {α β : Type} {p : Parser α} {f : α → Parser β}

theorem pure (a : α) : KeepsVariables (Pure.pure a : Parser α) := by
  rintro s b t ⟨⟩
  exact .refl s

theorem throw (e : SourceFault) : KeepsVariables (MonadExcept.throw e : Parser α) := nofun

theorem bind (hp : KeepsVariables p) (hf : ∀ a, KeepsVariables (f a)) :
    KeepsVariables (p >>= f) := by
  intro s b u run
  obtain ⟨a, t, first, second⟩ := bind_eq_ok run
  exact (hp s a t first).trans (hf a t b u second)

theorem ite {c : Prop} [Decidable c] {p q : Parser α} (hp : c → KeepsVariables p)
    (hq : ¬c → KeepsVariables q) : KeepsVariables (if c then p else q) := by
  split
  case isTrue hc => exact hp hc
  case isFalse hc => exact hq hc

theorem modify {f : ParserState → ParserState} (same : ∀ s, SameVariables s (f s)) :
    KeepsVariables (modify f) := by
  rintro s a t ⟨⟩
  exact same s

theorem look {f : ParserState → Parser β} (h : ∀ s, KeepsVariables (f s)) :
    KeepsVariables (MonadState.get >>= f) := fun s => h s s

end KeepsVariables

theorem next_keepsVariables : KeepsVariables next := by
  rintro s a t ⟨⟩
  exact ⟨rfl, rfl, rfl⟩

theorem skipToClose_keepsVariables (e : SyntaxError) : KeepsVariables (skipToClose e) := by
  intro s a t run
  cases found : behindClose? 1 s.rest with
  | some rest =>
      cases (skipToClose_some found e).symm.trans run
      exact ⟨rfl, rfl, rfl⟩
  | none => cases (skipToClose_none found e).symm.trans run

theorem declareFunction_keepsVariables (name : String) (ty : CType) (isStatic : Bool)
    (loc : Location) : KeepsVariables (declareFunction name ty isStatic loc) := by
  have set (symbol : GlobalSymbol) : KeepsVariables (setSymbol name symbol) :=
    .modify fun _ => ⟨rfl, rfl, rfl⟩
  refine .bind (.look fun _ => .pure _) fun old => ?_
  split
  case h_1 => exact set _
  case h_2 =>
    split
    case h_1 => exact .ite (fun _ => .throw _) fun _ => .ite (fun _ => set _) fun _ => .pure _
    case h_2 | h_3 => exact .throw _

theorem identifier_keepsVariables (name : String) (loc : Location) :
    KeepsVariables (identifier name loc) := by
  refine .bind (.look fun _ => .pure _) fun found => ?_
  split
  case h_1 =>
    refine .look fun s => ?_
    split
    · exact .pure _
    · exact .throw _
  case h_2 =>
    refine .bind (.look fun _ => .pure _) fun symbol => ?_
    split
    · exact .pure _
    · exact .throw _
  case h_3 => exact .throw _
  case h_4 =>
    refine .bind (.look fun _ => .pure _) fun called => .ite (fun _ => ?_) fun _ => .throw _
    refine .bind (.modify fun _ => ⟨rfl, rfl, rfl⟩) fun _ => ?_
    refine .bind (declareFunction_keepsVariables _ _ _ _) fun _ => ?_
    exact .bind (.modify fun _ => ⟨rfl, rfl, rfl⟩) fun _ => .pure _

/-- Below the level of statements no variables are declared. -/
theorem keepsVariables_closed : Closed (fun {α} (p : Parser α) => KeepsVariables p) where
  pure := .pure
  throw := .throw
  bind := .bind
  iterate round b s c t run := iterate_invariant (I := fun _ t => SameVariables s t)
    (fun b s' r t same once => same.trans (round b s' r t once)) b s (.refl s) run
  look _ := .look
  next := next_keepsVariables
  skipToClose := skipToClose_keepsVariables
  warn loc w := .modify fun _ => ⟨rfl, rfl, rfl⟩
  typed t := by
    intro s a u run
    unfold typed at run
    split at run <;> cases run
    exact ⟨rfl, rfl, rfl⟩
  addString bytes := by
    rintro s a t ⟨⟩
    exact ⟨rfl, rfl, rfl⟩
  find? name := .look fun _ => .pure _
  identifier := identifier_keepsVariables
  nestedDeclarator := by
    intro g expect suffixes declarator base abstract
    refine .bind next_keepsVariables fun _ => .look fun s => ?_
    refine .bind (skipToClose_keepsVariables _) fun _ => .bind (suffixes base) fun r => ?_
    refine .look fun t => .bind (.modify fun _ => ⟨rfl, rfl, rfl⟩) fun _ => ?_
    exact .bind (declarator r.1 abstract) fun d => .bind (expect _) fun _ =>
      .bind (.modify fun _ => ⟨rfl, rfl, rfl⟩) fun _ => .pure d

end LiveC.Parser

/-! ## Declared names -/

namespace LiveC

/-- The productions do with names and variables what they should. -/
structure Productions.Scoped (g : Productions) : Prop where
  reads : g.Each fun {α} (p : Parser α) => Parser.Traced .reads p
  keeps : g.Each fun {α} (p : Parser α) => Parser.KeepsVariables p
  statement : Parser.Traced (.nests false) g.statement

namespace Parser

open ScopeHistory

variable {g : Productions} {α β : Type}

section

variable {p : Parser α} {f : α → Parser β} {s t : ParserState}
  {E : ParserState → ScopeEvent → Prop} {L : ScopeLanguage}

/-- If a run succeeds, the last thing that it does with names is one change of the scopes. -/
def Last (L : ScopeLanguage) (E : ParserState → ScopeEvent → Prop) (h : ScopeHistory) :
    EStateM.Result SourceFault ParserState α → Prop
  | .ok _ u => ∃ before e, L.has before ∧ E u e ∧ h = before ++ [e]
  | .error _ _ => L.breaks h

theorem last_bind (hp : TracedAt L p s)
    (hf : ∀ a t, p s = .ok a t → HasTrace (Last L E) (f a) t) :
    HasTrace (Last L E) (p >>= f) s := by
  refine hp.bind (fun _ _ _ _ => id) fun a t h run first => (hf a t run).mono fun h' => ?_
  cases f a t with
  | error e u => exact L.append_breaks first
  | ok b u =>
      rintro ⟨before, e, has, event, rfl⟩
      exact ⟨h ++ before, e, L.append first has, event, (List.append_assoc ..).symm⟩

theorem last_pure (a : β) (h : HasTrace (Last L E) p s) :
    HasTrace (Last L E) (p >>= fun _ => (pure a : Parser β)) s := by
  refine h.bind (fun _ _ _ _ => id) fun b t events _ ⟨before, e, has, event, same⟩ => ?_
  exact ⟨[], .silent (fun _ _ => rfl) t, before, e, has, event,
    (List.append_nil events).trans same⟩

/-- What is behind a test that refuses. -/
theorem last_guard {c : Prop} [Decidable c] {loc : Location} {e : SemanticError} {k : Parser β}
    (h : ¬c → HasTrace (Last L E) k s) :
    HasTrace (Last L E) (if c then refuse loc e >>= f else k) s :=
  .guard (fun _ _ => L.breaks_nil) h

theorem last_change {e : ScopeEvent} {g : ParserState → ParserState} {a : α}
    (step : ∀ s scopes, g { s with scopes } = { g s with scopes := scopes.step e })
    (agrees : s.scopes.Agrees e) (event : E (g s) e) :
    HasTrace (Last L E) (modify g >>= fun _ => (pure a : Parser α)) s :=
  ⟨[e], .change_bind step agrees (.silent (fun _ _ => rfl) _), [], e, L.nil, event, rfl⟩

end

/-- The name of a static local variable as a symbol of the unit. -/
def staticName (name : String) (s : ParserState) : String :=
  let owner := (s.current.map Prod.fst).getD ""
  s!"{owner}.{name}.{s.staticLocals + 1}"

theorem staticName_eq (name : String) {s t : ParserState} (same : SameVariables s t) :
    staticName name t = staticName name s := by
  simp only [staticName, same.current, same.staticLocals]

/-- A static local variable that has its symbol's name. -/
def defineStatic (g : Productions) (spec : DeclSpec) (name : String) (ty : CType)
    (loc : Location) (symbol : String) : Parser Unit := do
  let (ty, init) ←
    if ← eat .assign then
      let (ty, items) ← g.staticInit ty 0
      pure (ty, some items)
    else pure (ty, none)
  if !ty.isComplete then refuse loc (.unknownSize name)
  setSymbol symbol ⟨ty, true, true⟩
  let object : GlobalVar := ⟨symbol, ty, true, spec.isConst && !ty.isPointer, init, loc⟩
  modify fun s => { s with unit := { s.unit with globals := s.unit.globals ++ [object] } }
  bind name (.global symbol)

theorem staticLocal_eq (spec : DeclSpec) (name : String) (ty : CType) (loc : Location) :
    staticLocal g spec name ty loc = (fun s => .ok (staticName name s)
      { s with staticLocals := s.staticLocals + 1 } : Parser String) >>=
        defineStatic g spec name ty loc := rfl


/-- How a declaration in a block makes a name known, from the state behind its declarator to that
behind the declaration: the history in between, and what the name is bound to. -/
inductive DeclaresInBlock (spec : DeclSpec) (d : Declarator) (name : String) (t u : ParserState) :
    ScopeHistory → Binding → Prop
  | typedef : spec.storage = some .typedef → DeclaresInBlock spec d name t u [] (.typedef d.ty)
  | function : spec.storage ≠ some .typedef → d.ty.isFunction = true →
      DeclaresInBlock spec d name t u [] (.global name)
  | external : spec.storage = some .external → d.ty.isFunction = false →
      DeclaresInBlock spec d name t u [] (.global name)
  | static {init : ScopeHistory} : spec.storage = some .static → d.ty.isFunction = false →
      LooksUp init → DeclaresInBlock spec d name t u init (.global (staticName name t))
  | automatic {init : ScopeHistory} {ty : CType} : spec.storage = none → d.ty.isFunction = false →
      LooksUp init → u.locals = t.locals ++ [⟨name, ty⟩] →
        DeclaresInBlock spec d name t u init (.local t.locals.length)

/-- What stands behind a declarator in a block. -/
def declareInBlock (g : Productions) (spec : DeclSpec) (d : Declarator) (name : String)
    (loc : Location) : Parser (List Stmt) :=
  if spec.storage = some .typedef then do
    bind name (.typedef d.ty)
    return []
  else if d.ty.isFunction then do
    declareFunction name d.ty false loc
    bind name (.global name)
    return []
  else match spec.storage with
    | some .external => do
      if (← findSymbol? name).isNone then setSymbol name ⟨d.ty, false, false⟩
      bind name (.global name)
      return []
    | some .static => do
      staticLocal g spec name d.ty loc
      return []
    | _ => localVariable g name d.ty loc

/-- If a run succeeds, it makes a name known as the last thing that it does with names. -/
def Introduces (event : Binding → ScopeEvent) (D : ParserState → ScopeHistory → Binding → Prop)
    (h : ScopeHistory) : EStateM.Result SourceFault ParserState α → Prop
  | .ok _ u => ∃ init b, D u init b ∧ h = init ++ [event b]
  | .error _ _ => LooksUp h

section

variable {p : Parser α} {s : ParserState} {event : Binding → ScopeEvent} {b : Binding}
  {E : ParserState → ScopeEvent → Prop} {D : ParserState → ScopeHistory → Binding → Prop}

theorem introduces_of_reads (last : HasTrace (Last .reads E) p s)
    (h : ∀ init u e, LooksUp init → E u e → ∃ b, e = event b ∧ D u init b) :
    HasTrace (Introduces event D) p s := by
  refine last.mono fun events => ?_
  cases p s with
  | ok a u =>
      rintro ⟨init, e, reads, event, rfl⟩
      obtain ⟨b, rfl, declares⟩ := h init u e reads event
      exact ⟨init, b, declares, rfl⟩
  | error e u => exact id

theorem introduces_of_nothing (last : HasTrace (Last .nothing fun _ e => e = event b) p s)
    (h : ∀ {u}, D u [] b) : HasTrace (Introduces event D) p s := by
  refine last.mono fun events => ?_
  cases p s with
  | ok a u =>
      rintro ⟨before, e, rfl, rfl, rfl⟩
      exact ⟨[], b, h, rfl⟩
  | error e u =>
      rintro rfl
      exact .nil

end

section

variable (scoping : g.Scoped)
include scoping

theorem staticLocal_last (spec : DeclSpec) (name : String) (ty : CType) (loc : Location)
    (s : ParserState) : HasTrace
      (Last .reads fun _ e => e = .declare name (.global (staticName name s)))
      (staticLocal g spec name ty loc) s := by
  have define (symbol : String) (ty : CType) (init : Option (List InitItem)) (t : ParserState) :
      HasTrace (Last .reads fun _ e => e = .declare name (.global symbol)) (do
        if !ty.isComplete then refuse loc (.unknownSize name)
        setSymbol symbol ⟨ty, true, true⟩
        modify fun s => { s with unit := { s.unit with globals := s.unit.globals ++
          [⟨symbol, ty, true, spec.isConst && !ty.isPointer, init, loc⟩] } }
        bind name (.global symbol)) t := by
    refine last_guard fun _ => last_bind (setSymbol_traced _ _ t) fun _ t _ => ?_
    refine last_bind (Traced.modify (fun _ _ => rfl) t) fun _ t _ => ?_
    exact ⟨_, bind_trace name _ t, [], _, .nil, rfl, rfl⟩
  rw [staticLocal_eq]
  refine last_bind (Traced.silent (fun _ _ => rfl) s) ?_
  rintro _ t ⟨⟩
  refine last_bind (eat_traced .assign _) fun assigned t _ => .ite (fun _ => ?_) fun _ =>
    define _ _ _ t
  exact last_bind (scoping.reads.staticInit ty 0 t) fun r t _ => define _ _ _ t

theorem localVariable_last (name : String) (ty : CType) (loc : Location) (s : ParserState) :
    HasTrace (Last .reads fun u e => e = .declare name (.local s.locals.length) ∧
      ∃ ty, u.locals = s.locals ++ [⟨name, ty⟩]) (localVariable g name ty loc) s := by
  have declare (ty : CType) (stmts : List Stmt) (t : ParserState) (same : t.locals = s.locals) :
      HasTrace (Last .reads fun u e => e = .declare name (.local s.locals.length) ∧
        ∃ ty, u.locals = s.locals ++ [⟨name, ty⟩]) (do
          if !ty.isComplete then refuse loc (.unknownSize name)
          modify fun s => { s with locals := s.locals ++ [⟨name, ty⟩] }
          bind name (.local s.locals.length)
          return stmts) t := by
    refine last_guard fun _ => last_bind (Traced.modify (fun _ _ => rfl) t) ?_
    rintro _ _ ⟨⟩
    exact last_change (e := .declare name (.local s.locals.length)) (fun _ _ => rfl) trivial
      ⟨rfl, ty, congrArg (· ++ _) same⟩
  refine last_guard fun _ => .look (fun _ _ => rfl) ?_
  refine last_bind (eat_traced .assign s) fun assigned t run => ?_
  have same := eat_closed keepsVariables_closed .assign s assigned t run
  refine .ite (fun _ => ?_) fun _ => declare ty [] t same.locals
  refine last_bind (scoping.reads.localInit ty 0 t) fun r u run => ?_
  exact declare r.1 _ u ((scoping.keeps.localInit ty 0 t r u run).locals.trans same.locals)

/-- What stands behind a declarator makes its name known. -/
theorem declareInBlock_introduces (spec : DeclSpec) (d : Declarator) (name : String)
    (loc : Location) {t s : ParserState} (same : SameVariables t s) :
    HasTrace (Introduces (.declare name) (DeclaresInBlock spec d name t))
      (declareInBlock g spec d name loc) s := by
  have named (b : Binding) (s : ParserState) :
      HasTrace (Last .nothing fun _ e => e = .declare name b) (do
        bind name b
        return ([] : List Stmt)) s :=
    last_change (e := .declare name b) (fun _ _ => rfl) trivial rfl
  unfold declareInBlock
  split
  case isTrue typedef => exact introduces_of_nothing (named _ s) (.typedef typedef)
  case isFalse notTypedef =>
  split
  case isTrue isFunction =>
    exact introduces_of_nothing (last_bind (declareFunction_traced _ _ _ _ s) fun _ u _ =>
      named _ u) (.function notTypedef isFunction)
  case isFalse object =>
  have object : d.ty.isFunction = false := Bool.eq_false_iff.mpr object
  split
  case h_1 external =>
    refine introduces_of_nothing (last_bind (findSymbol?_traced name s) fun old u _ => ?_)
      (.external external object)
    exact .ite (fun _ => last_bind (setSymbol_traced _ _ u) fun _ u _ => named _ u) fun _ =>
      named _ u
  case h_2 static =>
    refine introduces_of_reads (last_pure [] (staticLocal_last scoping spec name d.ty loc s)) ?_
    rintro init u e reads rfl
    rw [staticName_eq name same]
    exact ⟨_, rfl, .static static object reads⟩
  case h_3 notExternal notStatic =>
    have automatic : spec.storage = none := by
      cases storage : spec.storage with
      | none => rfl
      | some c =>
          cases c with
          | typedef => exact absurd storage notTypedef
          | external => exact absurd storage notExternal
          | static => exact absurd storage notStatic
    refine introduces_of_reads (localVariable_last scoping name d.ty loc s) ?_
    rintro init u e reads ⟨rfl, ty, locals⟩
    rw [same.locals] at locals ⊢
    exact ⟨_, rfl, .automatic automatic object reads locals⟩

/-- The history of a declarator in a block that is accepted. -/
inductive AcceptedInBlock (g : Productions) (spec : DeclSpec) (s u : ParserState) :
    ScopeHistory → Prop
  | intro {d : Declarator} {t : ParserState} {name : String} {loc : Location}
      {read init : ScopeHistory} {b : Binding} :
      g.declarator spec.ty false s = .ok d t → Trace (g.declarator spec.ty false) s read →
        LooksUp read → d.name = some (name, loc) → DeclaresInBlock spec d name t u init b →
          AcceptedInBlock g spec s u (read ++ (init ++ [.declare name b]))

/-- The history of a declarator in a block, whether it is accepted or not. -/
def InBlock (g : Productions) (spec : DeclSpec) (s : ParserState) (h : ScopeHistory) :
    EStateM.Result SourceFault ParserState α → Prop
  | .ok _ u => AcceptedInBlock g spec s u h
  | .error _ _ => LooksUp h

theorem blockDeclarator_inBlock (spec : DeclSpec) (s : ParserState) :
    HasTrace (InBlock g spec s) (blockDeclarator g spec) s := by
  obtain ⟨read, trace, describes⟩ := scoping.reads.declarator spec.ty false s
  have reads : LooksUp read := reads_of_describes describes
  refine HasTrace.bind (R := fun h _ => h = read) ⟨read, trace, rfl⟩ ?_ ?_
  · rintro e t h - rfl
    exact reads
  rintro d t h run rfl
  refine .behind skipAttributes_traced (fun _ _ => ?_) fun _ v passed => ?_
  · exact .append reads .nil
  have same := skipAttributes_closed keepsVariables_closed t () v passed
  cases named : d.name with
  | none => exact ⟨[], .silent (fun _ _ => rfl) v, .append reads .nil⟩
  | some r =>
      refine (declareInBlock_introduces scoping spec d r.1 r.2 same).mono fun h' => ?_
      cases declareInBlock g spec d r.1 r.2 v with
      | error e u => exact reads.append
      | ok stmts u =>
          rintro ⟨init, b, declares, rfl⟩
          exact .intro run trace reads named declares

end

end Parser
end LiveC

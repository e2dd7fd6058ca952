import LiveC.Parser.Declaration
import LiveC.Proofs.Sequence
import LiveC.Proofs.StatementGrammar

/-!
Declarations at file scope. Whatever token list is accepted, its functions and initialisers
are well typed and ready for code generation.
-/

namespace LiveC

open ParserState

namespace ParserScope

/-- Outside of loops, in a function at the end of which the parser is in a state. -/
abbrev outermost (tokens : List Token) (strings : Nat) (tracked : Prop) (last : ParserState) :
    ParserScope :=
  ⟨⟨tokens, strings, last.locals, last.returnType, 0⟩, tracked, [], fun name isFunction =>
    last.unit.symbols.Declares name isFunction ∧ (tracked → IsSpelled tokens name isFunction)⟩

/-- Outside of functions. -/
abbrev file (tokens : List Token) (strings : Nat) (tracked : Prop) : ParserScope :=
  ⟨⟨tokens, strings, [], .int .int, 0⟩, tracked, [], fun _ _ => True⟩

/-- At file scope, string literals are only added. -/
def fileCourse (tokens : List Token) (strings : Nat) (tracked : Prop) : Parser.Course where
  le s t := s.unit.strings.length ≤ t.unit.strings.length
  refl _ := Nat.le_refl _
  trans := Nat.le_trans
  within t := t.unit.strings.length ≤ strings
  within_of_le := Nat.le_trans
  valid := Tracked (file tokens strings tracked)

theorem within_outermost {tokens : List Token} {strings : Nat} {tracked : Prop} {t : ParserState}
    (h : t.unit.strings.length ≤ strings) : (outermost tokens strings tracked t).course.within t :=
  ⟨⟨List.prefix_refl _, rfl, h⟩, fun _ _ => And.intro⟩

end ParserScope

open ParserScope

section

variable {tokens : List Token} {strings : Nat} {tracked : Prop} {s : ParserState}

/-- What a function comes to in the end makes no difference to a state. -/
theorem ParserState.Tracked.entered (h : Tracked (file tokens strings tracked) s)
    (last : ParserState) : Tracked (outermost tokens strings tracked last) s :=
  ⟨⟨h.rest, h.names, h.symbols, h.locals, h.returns, h.depth, h.unit⟩, h.recorded, h.spelled⟩

theorem ParserState.Tracked.left {last : ParserState}
    (h : Tracked (outermost tokens strings tracked last) s) :
    Tracked (file tokens strings tracked) s :=
  ⟨⟨h.rest, h.names, h.symbols, h.locals, h.returns, h.depth, h.unit⟩, h.recorded, h.spelled⟩

end

namespace Parser

variable {σ : ParserScope} {H : Prop} {g : Productions} {tokens : List Token} {strings : Nat}
  {tracked : Prop} {α β : Type}

/-- What keeps the course of every function keeps the one of the file. What is behind it may
refer to the names that are defined. -/
theorem Ends.atFile {p : Parser α} {f : α → Parser β} {P : ParserState → α → Prop} {R : β → Prop}
    {s : ParserState} (h : ∀ last, Ends (outermost tokens strings tracked last).course H (P last) s (p s))
    (hf : ∀ a t, s.unit.Leads t.unit →
      Ends (fileCourse tokens strings tracked) (H ∧ P t a) R t (f a t)) :
    Ends (fileCourse tokens strings tracked) H R s ((p >>= f) s) := by
  simp only [Bind.bind, EStateM.bind]
  cases hp : p s with
  | ok a t =>
      have ends := h t
      rw [hp] at ends
      refine .after ends.1.1.2.2 (fun within pre valid => ?_) (hf a t ends.1.2)
      have kept := ends.2 (within_outermost within) pre (valid.entered t)
      exact ⟨kept.1.left, kept.2⟩
  | error e t =>
      have ends := h t
      rw [hp] at ends
      refine ⟨ends.1.1.2.2, fun within pre valid => ?_⟩
      exact (ends.2 (within_outermost within) pre (valid.entered t)).left

theorem Keeps.atFile {p : Parser α} {Q : α → Prop}
    (h : ∀ last, Keeps (outermost tokens strings tracked last).course H p Q) :
    Keeps (fileCourse tokens strings tracked) H p Q := by
  intro s
  have ends : Ends (fileCourse tokens strings tracked) H Q s ((p >>= Pure.pure) s) :=
    .atFile (fun last => h last s) fun a t _ => Keeps.pure And.right t
  rwa [bind_pure] at ends

/-! ### Variables -/

theorem check_bind (p : Punct) (f : Bool → Parser β) (s : ParserState) :
    (check p >>= f) s = f ((s.rest.head?.getD ⟨.eof, s.endLoc⟩).kind == .punct p) s := rfl

/-- A definition of a variable at file scope takes the place of one without initialiser. -/
theorem recorded_define {u : TranslationUnit} {current : Option (String × CType)}
    {declaring : List Nat} {statics : Nat} {v : GlobalVar} {defined : Bool}
    (h : u.Recorded declaring current statics) (plain : IsPlain v.name)
    (isVariable : v.ty.isFunction = false) (free : u.symbols.definition? v.name ≠ some true)
    (undefined : defined = false → u.symbols.definition? v.name = none) (contained : v.Contained)
    (uses : ∀ f ∈ u.functions, f.Uses fun name isFunction => IsPlain name →
      u.symbols.HasKind name isFunction ∧ (name = v.name → isFunction = false)) :
    TranslationUnit.Recorded declaring
      { u with
        symbols := u.symbols.insert v.name ⟨v.ty, true, v.isStatic⟩
        globals := (if defined then u.globals.filter (·.name != v.name) else u.globals) ++ [v] }
      current statics := by
  have functionKept {name : String} (defined : u.symbols.definition? name = some true) :
      (u.symbols.insert v.name ⟨v.ty, true, v.isStatic⟩).definition? name = some true := by
    rw [SymbolTable.definition?_insert, if_neg, defined]
    rintro rfl
    exact free defined
  have variableKept {name : String} (defined : u.symbols.definition? name = some false) :
      (u.symbols.insert v.name ⟨v.ty, true, v.isStatic⟩).definition? name = some false := by
    rw [SymbolTable.definition?_insert]
    split
    · exact congrArg some isVariable
    · exact defined
  have others : List.Sublist
      (if defined then u.globals.filter (·.name != v.name) else u.globals) u.globals := by
    split
    · exact List.filter_sublist
    · exact List.Sublist.refl _
  have fresh : v.name ∉
      (if defined then u.globals.filter (·.name != v.name) else u.globals).map (·.name) := by
    intro taken
    obtain ⟨g, member, same⟩ := List.mem_map.mp taken
    split at member
    case isTrue =>
      have differs := (List.mem_filter.mp member).2
      exact bne_iff_ne.mp differs same
    case isFalse notDefined =>
      have absent := undefined (Bool.eq_false_iff.mpr notDefined)
      obtain ⟨-, present⟩ | ⟨-, n, numbered, -⟩ := h.globals g member
      · rw [same, absent] at present
        cases present
      · exact numbered.not_isPlain (same ▸ plain)
  refine ⟨fun f member => ?_, h.functionNames, fun c member => ?_, ?_, ?_, h.bounded, h.reserved, ?_,
    fun f member => (uses f member).mono fun name isFunction declared plain => ?_⟩
  · exact ⟨(h.functions f member).1, functionKept (h.functions f member).2⟩
  · obtain ⟨⟨plain, defined⟩, unfinished⟩ := h.current c member
    exact ⟨⟨plain, functionKept defined⟩, unfinished⟩
  · refine List.forall_mem_append.mpr ⟨fun g member => ?_, List.forall_mem_singleton.mpr (.inl
      ⟨plain, ?_⟩)⟩
    · obtain ⟨plain, defined⟩ | numbered := h.globals g (others.subset member)
      · exact .inl ⟨plain, variableKept defined⟩
      · exact .inr numbered
    · rw [SymbolTable.definition?_insert, if_pos rfl]
      exact congrArg some isVariable
  · rw [List.map_append, List.nodup_append]
    refine ⟨(others.map _).nodup h.globalNames, List.pairwise_singleton _ _,
      fun name member other same => ?_⟩
    obtain rfl := List.mem_singleton.mp same
    rintro rfl
    exact fresh member
  · exact List.forall_mem_append.mpr ⟨fun g member => h.contained g (others.subset member),
      List.forall_mem_singleton.mpr contained⟩
  · obtain ⟨⟨symbol, found, kind⟩, same⟩ := declared plain
    by_cases other : name = v.name
    · refine ⟨_, (SymbolTable.find?_insert ..).trans (if_pos other), ?_⟩
      exact isVariable.trans (same other).symm
    · exact ⟨symbol, by rw [SymbolTable.find?_insert, if_neg other, found], kind⟩

theorem bindFile_atFile (name : String) {b : Binding} (h : H → b.Declared) :
    Keeps (fileCourse tokens strings tracked) H (bindFile name b) fun _ => True :=
  .atFile fun _ => bindFile_keeps name h

/-- The definition of a variable, behind its initialiser. What was known of the name in front of
it still holds. -/
theorem defineVariable_ends {spec : DeclSpec} {name : String} {old : Option GlobalSymbol}
    {ty : CType} {init : Option (List InitItem)} (loc : Location) {s : ParserState}
    (plain : H → tracked → IsPlain name) (initialised : H →
      IsInitialised (file tokens strings tracked) ty init)
    (free : IsPlain name → s.unit.symbols.definition? name ≠ some true)
    (undefined : IsPlain name → old.any (·.defined) = false →
      s.unit.symbols.definition? name = none)
    (uses : H → tracked → ∀ f ∈ s.unit.functions, f.Uses fun other isFunction => IsPlain other →
      s.unit.symbols.HasKind other isFunction ∧ (other = name → isFunction = false)) :
    Ends (fileCourse tokens strings tracked) H (fun _ => True) s ((do
      if !ty.isComplete then refuse loc (.unknownSize name)
      let defined := old.any (·.defined)
      let initialized := (← get).unit.globals.any fun v => v.name == name && v.init.isSome
      if defined && init.isSome && initialized then refuse loc (.redefinition name)
      if !(defined && init.isNone) then
        let isStatic := spec.storage == some .static || old.any (·.isStatic)
        let object : GlobalVar := ⟨name, ty, isStatic, spec.isConst && !ty.isPointer, init, loc⟩
        setSymbol name ⟨ty, true, isStatic⟩
        modify fun s =>
          let others := if defined then s.unit.globals.filter (·.name != name) else s.unit.globals
          { s with unit := { s.unit with globals := others ++ [object] } }
      bindFile name (.global name) : Parser Unit) s) := by
  refine .guard fun complete => ?_
  simp only [Bool.not_eq_true', Bool.not_eq_false] at complete
  dsimp only
  rw [get_bind]
  have bound {G : Prop} : Keeps (fileCourse tokens strings tracked) G
      (bindFile name (.global name)) fun _ => True := bindFile_atFile name fun _ => trivial
  refine .guard fun _ => .ite (fun _ => ?_) fun _ => bound s
  let isStatic := spec.storage == some .static || old.any (·.isStatic)
  let object : GlobalVar := ⟨name, ty, isStatic, spec.isConst && !ty.isPointer, init, loc⟩
  let others := if old.any (·.defined) then s.unit.globals.filter (·.name != name)
    else s.unit.globals
  let unit := { s.unit with
    symbols := s.unit.symbols.insert name ⟨ty, true, isStatic⟩, globals := others ++ [object] }
  have isVariable := CType.isFunction_of_complete complete
  have subset : ∀ v ∈ others, v ∈ s.unit.globals := by
    intro v member
    unfold others at member
    split at member
    · exact (List.mem_filter.mp member).1
    · exact member
  refine .after (t := { s with unit }) (Nat.le_refl _) (fun _ pre valid => ⟨⟨⟨valid.rest,
    valid.names, forall_mem_insert valid.symbols (initialised pre).stored.object, valid.locals,
    valid.returns, valid.depth, valid.unit.functions, ?_⟩, fun tracked => ?_, fun tracked => ?_⟩,
    trivial⟩) (bound _)
  · exact List.forall_mem_append.mpr ⟨fun v member => valid.unit.globals v (subset v member),
      List.forall_mem_singleton.mpr (initialised pre).parsed⟩
  · have plain := plain pre tracked
    exact recorded_define (v := object) (valid.recorded tracked) plain isVariable (free plain)
      (undefined plain) ((initialised pre).contained complete) (uses pre tracked)
  · have spelled := valid.spelled tracked
    exact ⟨forall_mem_insert spelled.symbols (isSpelled_of_variable isVariable), spelled.uses⟩

theorem fileVariable_keeps (sound : g.Sound) (spec : DeclSpec) (name : String) {ty : CType}
    (isVariable : ty.isFunction = false) (h : H → ty.Declared)
    (plain : H → tracked → IsPlain name) (loc : Location) :
    Keeps (fileCourse tokens strings tracked) H (fileVariable g spec name ty loc) fun _ => True := by
  have bound {G : Prop} : Keeps (fileCourse tokens strings tracked) G
      (bindFile name (.global name)) fun _ => True := bindFile_atFile name fun _ => trivial
  intro s
  refine .assume (.guard fun _ => ?_)
  rw [findSymbol?_bind]
  refine .guard fun notFunction => ?_
  dsimp only
  rw [check_bind]
  refine .ite (fun _ => .ite (fun undeclared => ?_) fun _ => bound s) fun _ => ?_
  · refine .atFile (P := fun _ _ => True) (fun _ => ?_) fun _ t _ => bound t
    exact (setSymbol_ends (fun pre => (h pre.1).object) (fun _ => isSpelled_of_variable isVariable)
      (.insert_undeclared undeclared)).mono id fun _ _ _ => trivial
  have free {t : ParserState} (leads : s.unit.Leads t.unit) (plain : IsPlain name) :
      t.unit.symbols.definition? name ≠ some true := by
    rw [leads.defined plain]
    exact SymbolTable.definition?_ne_function (Bool.eq_false_iff.mpr notFunction)
  have undefined {t : ParserState} (leads : s.unit.Leads t.unit)
      (plain : IsPlain name) (undefined : (s.unit.symbols.find? name).any (·.defined) = false) :
      t.unit.symbols.definition? name = none := by
    rw [leads.defined plain]
    exact SymbolTable.definition?_eq_none undefined
  -- The initialiser may declare the name as that of a function, but no function uses it like that.
  have uses {t : ParserState} (leads : s.unit.Leads t.unit)
      (valid : Tracked (file tokens strings tracked) s) (tracked' : tracked) :
      ∀ f ∈ t.unit.functions, f.Uses fun other isFunction => IsPlain other →
        t.unit.symbols.HasKind other isFunction ∧ (other = name → isFunction = false) := by
    intro f member
    rw [leads.functions] at member
    refine ((valid.recorded tracked').uses f member).mono fun other isFunction declared word =>
      ⟨leads.kind word (declared word), ?_⟩
    rintro rfl
    cases isFunction with
    | false => rfl
    | true =>
        exact absurd (declared word) (SymbolTable.not_isFunction (Bool.eq_false_iff.mpr notFunction))
  refine .atFile (fun _ => eat_keeps .assign s) fun _ t leads => .ite (fun _ => ?_) fun _ => ?_
  · have read (last : ParserState) : Ends (outermost tokens strings tracked last).course
        ((H ∧ Tracked (file tokens strings tracked) s) ∧ True)
        (fun r => r.1.IsStored tokens ∧ ty.Completes r.1 ∧ ∀ i ∈ r.2, i.Parsed tokens strings ∧
          (r.1.Sized → i.Within 0 (0 + r.1.size))) t (g.staticInit ty 0 t) :=
      sound.staticInit (fun pre => h pre.1.1) 0 t
    refine .atFile read fun r u more => ?_
    have leads := leads.trans more
    refine defineVariable_ends loc (fun pre => plain pre.1.1.1) (fun pre => ⟨pre.2.1, nofun, ?_⟩)
      (free leads) (undefined leads) fun pre => uses leads pre.1.1.2
    rintro items ⟨⟩ i member
    obtain ⟨parsed, within⟩ := pre.2.2.2 i member
    rw [Nat.zero_add] at within
    exact ⟨parsed, within⟩
  · exact defineVariable_ends loc (fun pre => plain pre.1.1)
      (fun pre => ⟨(h pre.1.1).stored _, fun _ => (h pre.1.1).2, nofun⟩) (free leads) (undefined leads)
      fun pre => uses leads pre.1.2

theorem fileDeclaration_keeps (sound : g.Sound) (words : tracked → ∀ t ∈ tokens, t.kind.IsPlain)
    (spec : DeclSpec) {d : Declarator} (h : H → d.Parsed tokens) :
    Keeps (fileCourse tokens strings tracked) H (fileDeclaration g spec d) fun _ => True := by
  unfold fileDeclaration
  split
  case h_1 => exact .atFile fun _ => loc_keeps.skip fun _ => peek_keeps.skip fun _ => .throw
  case h_2 name loc named =>
    refine .ite (fun _ => bindFile_atFile (b := .typedef d.ty) name fun pre => (h pre).declared)
      fun _ => .ite (fun isFunction => ?_) fun isVariable => ?_
    · have declare (last : ParserState) := (declareFunction_keeps
        (σ := outermost tokens strings tracked last) name (spec.storage == some .static) loc
        isFunction (fun pre => (h pre).declared.object) fun pre => (h pre).isWord named).post
        fun _ _ _ => trivial
      refine (Keeps.atFile declare).skip fun _ => ?_
      exact bindFile_atFile (b := .global name) name fun _ => trivial
    · exact fileVariable_keeps sound spec name (Bool.eq_false_iff.mpr isVariable)
        (fun pre => (h pre).declared)
        (fun pre tracked => ((h pre).isWord named).isPlain (words tracked)) loc

/-! ### Function definitions -/

/-- The parameters become the next variables. -/
theorem bindParameters_ends {ps : List Param} (h : H → ∀ p ∈ ps, p.ty.Declared) (s : ParserState) :
    Ends σ.course H
      (fun _ => s.locals.map LocalVar.ty ++ ps.map Param.ty <+: σ.locals.map LocalVar.ty) s
      (bindParameters ps s) := by
  induction ps generalizing s with
  | nil =>
      refine ⟨σ.course.refl s, fun within _ valid => ⟨valid, ?_⟩⟩
      rw [List.map_nil, List.append_nil]
      exact within.1.1.map _
  | cons p ps ih =>
      unfold bindParameters
      cases p.name with
      | none => exact ⟨σ.course.refl s, fun _ _ valid => valid⟩
      | some name =>
          have added : Keeps σ.course H (modify fun s => { s with locals := s.locals ++ [⟨name, p.ty⟩] })
              fun _ => True :=
            .modify (fun s => ⟨⟨List.prefix_append _ _, rfl, Nat.le_refl _⟩, .refl _, rfl⟩)
              fun s _ pre valid => ⟨⟨valid.rest, valid.names, valid.symbols,
                List.forall_mem_append.mpr ⟨valid.locals, List.forall_mem_singleton.mpr
                  ((h pre p (.head _)).stored _)⟩, valid.returns, valid.depth, valid.unit⟩,
                valid.recorded, valid.spelled⟩
          have named := (added.skip fun _ =>
            bind_keeps (b := .local s.locals.length) name fun _ => trivial) s
          refine .after named.1 named.2 ((ih (fun pre => ?_) _).mono And.left fun _ _ types => ?_)
          · exact fun p member => h pre p (.tail _ member)
          · simpa using types

/-- What stands behind the declarator of a function. -/
theorem body_ends (sound : g.Sound) {ps : List Param} (h : H → ∀ p ∈ ps, p.ty.Declared)
    (s : ParserState) :
    Ends σ.course H (fun body => Stmt.AllParsed σ body ∧
      s.locals.map LocalVar.ty ++ ps.map Param.ty <+: σ.locals.map LocalVar.ty) s
      ((do
        bindParameters ps
        expect .lbrace
        blockItems g : Parser (List Stmt)) s) := by
  refine (bindParameters_ends h s).bind fun _ => (expect_keeps _).skip fun _ => ?_
  exact (blockItems_keeps sound).post fun body pre parsed => ⟨parsed, pre.2⟩

/-- The parameters of a function are those in its declarator, if the name is in front of them. -/
theorem Declarator.passable {d : Declarator} {name : String} {loc : Location}
    {signature : Signature} (h : d.Parsed tokens) (named : d.name = some (name, loc))
    (isFunction : d.ty.signature? = some signature)
    (fits : Expr.fitsRegisters ((d.params.getD []).map Param.ty) = true) {f : Function}
    (sameName : f.name = name) (sameLoc : f.loc = loc) (sameSignature : f.signature = signature)
    (first : (d.params.getD []).map Param.ty <+: f.locals.map LocalVar.ty)
    (written : f.WritesParameters tokens) : f.Passable := by
  subst sameName sameLoc sameSignature
  obtain ⟨before, t, after, split, kind, loc, paren⟩ := h.name _ _ named
  obtain ⟨ps, params⟩ := Option.isSome_iff_exists.mp (paren (written before t after split kind loc))
  obtain ⟨ret, v, u, ty⟩ := h.params ps params
  rw [ty] at isFunction
  rw [params, Option.getD_some] at fits first
  have types : f.signature.params = ps.map Param.ty :=
    congrArg Signature.params (Option.some.inj isFunction).symm
  exact ⟨by rw [types, fits], by rwa [types]⟩

/-- What is read inside of a function that is entered before and left behind it. -/
theorem enclosed_ends {p : Parser α} {s u : ParserState} (leave : α → ParserState → ParserState)
    (Q : ParserScope → α → Prop) (enterStrings : u.unit.strings = s.unit.strings)
    (leaveStrings : ∀ a t, (leave a t).unit.strings = t.unit.strings)
    (enterValid : H → Tracked (file tokens strings tracked) s →
      Tracked (file tokens strings tracked) u)
    (inner : ∀ last, Ends (outermost tokens strings tracked last).course H
      (Q (outermost tokens strings tracked last)) u (p u))
    (leaveValid : ∀ a t, H → t.current = u.current → Tracked (file tokens strings tracked) t →
      Q (outermost tokens strings tracked t) a →
      Tracked (file tokens strings tracked) (leave a t)) :
    Ends (fileCourse tokens strings tracked) H (fun _ => True) s
      ((p >>= fun a => modify (leave a)) u) := by
  have entered : (fileCourse tokens strings tracked).le s u :=
    Nat.le_of_eq (congrArg List.length enterStrings.symm)
  simp only [Bind.bind, EStateM.bind]
  cases run : p u with
  | error e t =>
      have ends := inner t
      rw [run] at ends
      refine ⟨Nat.le_trans entered ends.1.1.2.2, fun within pre valid => ?_⟩
      exact (ends.2 (within_outermost within) pre ((enterValid pre valid).entered t)).left
  | ok a t =>
      have ends := inner t
      rw [run] at ends
      have behind : (fileCourse tokens strings tracked).le t (leave a t) :=
        Nat.le_of_eq (congrArg List.length (leaveStrings a t).symm)
      refine ⟨Nat.le_trans (Nat.le_trans entered ends.1.1.2.2) behind, fun within pre valid =>
        ⟨?_, trivial⟩⟩
      have kept := ends.2 (within_outermost (Nat.le_trans behind within)) pre
        ((enterValid pre valid).entered t)
      exact leaveValid a t pre ends.1.1.2.1 kept.1.left kept.2

/-- The parameters in a declarator have declared types. -/
theorem Declarator.params_declared {d : Declarator} (h : d.Parsed tokens) :
    ∀ p ∈ d.params.getD [], p.ty.Declared := by
  cases params : d.params with
  | none => exact nofun
  | some ps =>
      obtain ⟨ret, v, u, ty⟩ := h.params ps params
      have declared := h.declared
      rw [ty] at declared
      obtain ⟨⟨-, -, -, wellFormed⟩, -, bounded⟩ := declared
      intro p member
      have memberType := List.mem_map_of_mem (f := Param.ty) member
      exact ⟨Expr.allWellFormed_iff.mp wellFormed p.ty memberType,
        CType.allBounded_iff.mp bounded p.ty memberType⟩

/-- What a function returns has a declared type. -/
theorem ret_declared {t : CType} {s : Signature} (h : t.Declared) (isFunction : t.signature? = some s) :
    s.ret.Declared := by
  rw [Expr.ofSignature_of_signature? isFunction] at h
  exact ⟨h.1.2.2.1, h.2.1⟩

/-- What a function takes has bounded types. -/
theorem params_bounded {t : CType} {s : Signature} (h : t.Declared)
    (isFunction : t.signature? = some s) : ∀ ty ∈ s.params, ty.Bounded := by
  rw [Expr.ofSignature_of_signature? isFunction] at h
  exact CType.allBounded_iff.mp h.2.2

/-- A function becomes the current one when its name is defined. -/
theorem recorded_enter {u : TranslationUnit} {declaring : List Nat} {statics : Nat}
    {current : Option (String × CType)} (h : u.Recorded declaring current statics) {name : String}
    (plain : IsPlain name) (undefined : u.symbols.definition? name = none)
    (declared : u.symbols.HasKind name true) {ty : CType} (isFunction : ty.isFunction = true)
    (isStatic : Bool) (ret : CType) :
    TranslationUnit.Recorded declaring
      { u with symbols := u.symbols.insert name ⟨ty, true, isStatic⟩ } (some (name, ret)) statics := by
  have kept {other : String} {kind : Bool} (defined : u.symbols.definition? other = some kind) :
      (u.symbols.insert name ⟨ty, true, isStatic⟩).definition? other = some kind := by
    rw [SymbolTable.definition?_insert, if_neg, defined]
    rintro rfl
    rw [undefined] at defined
    cases defined
  refine ⟨fun f member => ?_, h.functionNames, ?_, fun g member => ?_, h.globalNames, h.bounded,
    h.reserved, h.contained, fun f member => (h.uses f member).mono fun other kind uses plain => ?_⟩
  · exact ⟨(h.functions f member).1, kept (h.functions f member).2⟩
  · rintro _ ⟨⟩
    refine ⟨⟨plain, ?_⟩, fun taken => ?_⟩
    · rw [SymbolTable.definition?_insert, if_pos rfl]
      exact congrArg some isFunction
    · obtain ⟨f, member, same⟩ := List.mem_map.mp taken
      have defined := (h.functions f member).2
      rw [same, undefined] at defined
      cases defined
  · obtain ⟨plain, defined⟩ | numbered := h.globals g member
    · exact .inl ⟨plain, kept defined⟩
    · exact .inr numbered
  · have known := uses plain
    unfold SymbolTable.HasKind
    rw [SymbolTable.find?_insert]
    split
    case isTrue same =>
      subst same
      exact ⟨_, rfl, isFunction.trans (declared.unique known)⟩
    case isFalse => exact known

/-- The current function is added to the unit. -/
theorem recorded_leave {u : TranslationUnit} {declaring : List Nat} {statics : Nat} {ret : CType}
    {f : Function} (h : u.Recorded declaring (some (f.name, ret)) statics)
    (uses : f.Uses u.symbols.Declares) :
    TranslationUnit.Recorded declaring { u with functions := u.functions ++ [f] } none statics := by
  obtain ⟨defined, fresh⟩ := h.current _ rfl
  refine ⟨?_, ?_, nofun, h.globals, h.globalNames, h.bounded, h.reserved, h.contained,
    List.forall_mem_append.mpr ⟨h.uses, List.forall_mem_singleton.mpr uses⟩⟩
  · exact List.forall_mem_append.mpr ⟨h.functions, List.forall_mem_singleton.mpr defined⟩
  · rw [List.map_append, List.nodup_append]
    refine ⟨h.functionNames, List.pairwise_singleton _ _, fun name member other same => ?_⟩
    obtain rfl := List.mem_singleton.mp same
    rintro rfl
    exact fresh member

/-- A function is defined behind its declaration. -/
theorem functionBody_ends (sound : g.Sound) {d : Declarator} {name : String} {loc : Location}
    {signature : Signature} (isStatic : Bool) (h : H → d.Parsed tokens)
    (words : tracked → ∀ t ∈ tokens, t.kind.IsPlain) (named : d.name = some (name, loc))
    (isFunction : d.ty.signature? = some signature)
    (fits : Expr.fitsRegisters ((d.params.getD []).map Param.ty) = true) {s : ParserState}
    (undefined : IsPlain name → s.unit.symbols.definition? name = none)
    (declared : H → s.unit.symbols.Declares name true) :
    Ends (fileCourse tokens strings tracked) H (fun _ => True) s ((do
      setSymbol name ⟨d.ty, true, isStatic⟩
      bindFile name (.global name)
      modify fun s =>
        { s with locals := [], current := some (name, signature.ret), scopes := s.scopes.openBlock }
      bindParameters (d.params.getD [])
      expect .lbrace
      let body ← blockItems g
      modify fun s =>
        { s with
          scopes := s.scopes.closeBlock
          current := none
          locals := []
          unit := { s.unit with
            functions := s.unit.functions ++ [⟨name, signature, s.locals, body, isStatic, loc⟩] } } :
        Parser Unit) s) := by
  let entered : ParserState :=
    { s with
      locals := []
      current := some (name, signature.ret)
      scopes := (s.scopes.bindFile name (.global name)).openBlock
      unit := { s.unit with symbols := s.unit.symbols.insert name ⟨d.ty, true, isStatic⟩ } }
  have types := Expr.isFunction_of_signature? isFunction
  have enclosed : Ends (fileCourse tokens strings tracked) H _ s _ := enclosed_ends (u := entered)
    (fun body s =>
      { s with
        scopes := s.scopes.closeBlock
        current := none
        locals := []
        unit := { s.unit with
          functions := s.unit.functions ++ [⟨name, signature, s.locals, body, isStatic, loc⟩] } })
    (fun σ body => Stmt.AllParsed σ body ∧ (d.params.getD []).map Param.ty <+:
      σ.locals.map LocalVar.ty) rfl (fun _ _ => rfl) ?_
    (fun _ => body_ends sound (fun pre => Declarator.params_declared (h pre)) entered) ?_
  · simp only [bind_assoc] at enclosed
    exact enclosed
  · intro pre valid
    refine ⟨⟨valid.rest, (valid.names.bindFile (b := .global name) trivial name).openBlock,
      forall_mem_insert valid.symbols (h pre).declared.object, nofun,
      ret_declared (h pre).declared isFunction, valid.depth, valid.unit.functions,
      valid.unit.globals⟩, fun tracked => ?_, fun tracked => ?_⟩
    · have plain := ((h pre).isWord named).isPlain (words tracked)
      exact recorded_enter (valid.recorded tracked) plain (undefined plain) (declared pre plain) types
        isStatic _
    · have spelled := valid.spelled tracked
      exact ⟨forall_mem_insert spelled.symbols fun _ => (h pre).isWord named, spelled.uses⟩
  · intro body t pre current valid ⟨parsed, first⟩
    have ret : t.returnType = signature.ret := by
      rw [returnType, current]
      rfl
    let f : Function := ⟨name, signature, t.locals, body, isStatic, loc⟩
    have uses : f.Uses _ := fun s member => (parsed s member).2.2
    refine ⟨⟨valid.rest, valid.names.closeBlock, valid.symbols, nofun, ⟨trivial, trivial⟩,
      valid.depth, List.forall_mem_append.mpr ⟨valid.unit.functions,
        List.forall_mem_singleton.mpr ⟨?_, ?_, ?_, params_bounded (h pre).declared isFunction,
          valid.locals⟩⟩, valid.unit.globals⟩, fun tracked => ?_, fun tracked => ?_⟩
    · refine Stmt.allWellTyped_iff.mpr fun s member => ?_
      exact ret ▸ (parsed s member).1
    · have outside : (0 < (outermost tokens strings tracked t).depth) = False :=
        eq_false (Nat.lt_irrefl 0)
      exact Stmt.allReady_iff.mpr fun s member => outside ▸ (parsed s member).2.1
    · exact Declarator.passable (h pre) named isFunction fits rfl rfl rfl first
    · have recorded := valid.recorded tracked
      rw [current] at recorded
      exact recorded_leave (f := f) recorded (uses.mono fun _ _ => And.left)
    · have spelled := valid.spelled tracked
      exact ⟨spelled.symbols, List.forall_mem_append.mpr ⟨spelled.uses,
        List.forall_mem_singleton.mpr (uses.mono fun _ _ kind => kind.2 tracked)⟩⟩

theorem functionDefinition_keeps (sound : g.Sound) (words : tracked → ∀ t ∈ tokens, t.kind.IsPlain)
    (spec : DeclSpec) {d : Declarator} {signature : Signature} (h : H → d.Parsed tokens)
    (isFunction : d.ty.signature? = some signature) :
    Keeps (fileCourse tokens strings tracked) H (functionDefinition g spec d signature)
      fun _ => True := by
  have types := Expr.isFunction_of_signature? isFunction
  unfold functionDefinition
  split
  case h_1 => exact .atFile fun _ => loc_keeps.skip fun _ => peek_keeps.skip fun _ => .throw
  case h_2 name loc named =>
    refine .ite (fun _ => .throw_bind) fun _ => .guard fun _ => .guard fun fits s => ?_
    simp only [Bool.not_eq_true, Bool.not_eq_false'] at fits
    dsimp only
    rw [findSymbol?_bind]
    refine .guard fun undefined => ?_
    have absent := SymbolTable.definition?_eq_none (Bool.eq_false_iff.mpr undefined)
    refine .atFile (fun _ => declareFunction_keeps name _ loc types (fun pre =>
      (h pre).declared.object) (fun pre => (h pre).isWord named) s) fun _ t leads => ?_
    rw [findSymbol?_bind]
    exact functionBody_ends sound _ (fun pre => h pre.1) words named isFunction fits
      (fun plain => (leads.defined plain).trans absent) fun pre => pre.2.1

theorem externalDeclaration_keeps (sound : g.Sound)
    (words : tracked → ∀ t ∈ tokens, t.kind.IsPlain) :
    Keeps (fileCourse tokens strings tracked) H (externalDeclaration g) fun _ => True := by
  refine (Keeps.atFile fun _ => eat_keeps _).skip fun _ => .ite (fun _ => .done) fun _ => ?_
  refine (Keeps.atFile fun _ => declSpecifiers_keeps).bind fun spec => ?_
  refine (Keeps.atFile fun _ => eat_keeps _).skip fun _ => .ite (fun _ => .done) fun _ => ?_
  refine .skip (P := fun _ => True) ((Keeps.iterate (I := fun _ => True) (fun first => ?_) true).pre
    fun pre => ⟨pre, trivial⟩) fun _ => .done
  refine .bind (P := Declarator.Parsed tokens) (.atFile fun _ => sound.declarator (fun pre =>
    pre.1.2) false) fun d => ?_
  refine (Keeps.atFile fun _ => skipAttributes_keeps).skip fun _ => ?_
  refine (Keeps.atFile fun _ => check_keeps _).skip fun body => ?_
  have declare : Keeps (fileCourse tokens strings tracked)
      (((H ∧ spec.ty.Declared) ∧ True) ∧ d.Parsed tokens) (do
      fileDeclaration g spec d
      if ← eat .comma then return .yield false
      else
        expect .semicolon
        return .done false) fun _ : ForInStep Bool => True := by
    refine (fileDeclaration_keeps sound words spec And.right).skip fun _ => ?_
    refine (Keeps.atFile fun _ => eat_keeps _).skip fun _ => .ite (fun _ => .done) fun _ => ?_
    exact (Keeps.atFile fun _ => expect_keeps _).skip fun _ => .done
  dsimp only
  split
  case h_1 signature isFunction =>
    refine .ite (fun _ => ?_) fun _ => declare
    exact (functionDefinition_keeps sound words spec And.right isFunction).skip fun _ => .done
  case h_2 => exact declare

theorem leaveFunction_keeps :
    Keeps (fileCourse tokens strings tracked) H leaveFunction fun _ => True := by
  refine .modify (fun _ => Nat.le_refl _) fun _ _ _ valid => ⟨⟨valid.rest, valid.names.closeAll,
    valid.symbols, nofun, ⟨trivial, trivial⟩, rfl, valid.unit⟩, fun tracked => ?_, valid.spelled⟩
  have h := valid.recorded tracked
  exact ⟨h.functions, h.functionNames, nofun, h.globals, h.globalNames, h.bounded, h.reserved,
    h.contained, h.uses⟩

theorem translationUnit_keeps (sound : g.Sound) (words : tracked → ∀ t ∈ tokens, t.kind.IsPlain) :
    Keeps (fileCourse tokens strings tracked) H (translationUnit g) fun _ => True := by
  refine (Keeps.iterate (I := fun _ => True) (fun _ => ?_) ()).pre fun pre => ⟨pre, trivial⟩
  refine (Keeps.atFile fun _ => atEnd_keeps).skip fun _ => .ite (fun _ => .done) fun _ => ?_
  refine .skip (P := fun _ => True) (.tryCatch (externalDeclaration_keeps sound words) fun e => ?_)
    fun _ => .done
  exact leaveFunction_keeps.skip fun _ => .atFile fun _ => recover_keeps false e

end Parser

/-- The tokens that the parser sees: those in front of the end of input. -/
def seenTokens (tokens : List Token) : List Token := tokens.takeWhile (·.kind != .eof)

/-- The state that a unit is taken from. -/
theorem tracked_of_parseTokens {tokens : List Token} {p : Parsed} (h : parseTokens tokens = .ok p)
    (tracked : Prop) (words : tracked → ∀ t ∈ seenTokens tokens, t.kind.IsPlain) :
    ∃ s, s.unit = p.unit ∧
      Tracked (file (seenTokens tokens) p.unit.strings.length tracked) s := by
  unfold parseTokens at h
  dsimp only at h
  unfold seenTokens at words ⊢
  generalize tokens.takeWhile (·.kind != .eof) = rest at h words ⊢
  generalize ((tokens.find? (·.kind == .eof)).map Token.loc).getD
    ((rest.getLast?.map Token.loc).getD .start) = endLoc at h
  cases run : Parser.translationUnit (Parser.productions maxNesting) { rest, endLoc } with
  | error e s => simp [run] at h
  | ok _ s =>
      simp only [run] at h
      split at h
      case isFalse => cases h
      case isTrue =>
        cases h
        have keeps : Parser.Keeps (fileCourse rest s.unit.strings.length tracked) True _ _ :=
          Parser.translationUnit_keeps (Parser.productions_sound maxNesting) words
        have ends := keeps { rest, endLoc }
        rw [run] at ends
        refine ⟨s, rfl, (ends.2 (Nat.le_refl _) trivial ⟨?_, fun _ => ?_, fun _ => ⟨nofun, nofun⟩⟩).1⟩
        · exact ⟨List.suffix_refl _, List.forall_mem_singleton.mpr nofun, nofun, nofun,
            ⟨trivial, trivial⟩, rfl, nofun, nofun⟩
        · exact ⟨nofun, .nil, nofun, nofun, .nil, nofun, .nil, nofun, nofun⟩

/-- What is parsed from tokens is well typed and ready for code generation. -/
theorem parsed_of_parseTokens {tokens : List Token} {p : Parsed} (h : parseTokens tokens = .ok p) :
    p.unit.Parsed (seenTokens tokens) p.unit.strings.length := by
  obtain ⟨s, unit, valid⟩ := tracked_of_parseTokens h False False.elim
  exact unit ▸ valid.unit

/-- The definitions of what is parsed from identifiers without dots have names of their own. -/
theorem recorded_of_parseTokens {tokens : List Token} {p : Parsed} (h : parseTokens tokens = .ok p)
    (words : ∀ t ∈ seenTokens tokens, t.kind.IsPlain) :
    ∃ current statics, p.unit.Recorded [] current statics := by
  obtain ⟨s, unit, valid⟩ := tracked_of_parseTokens h True fun _ => words
  exact ⟨s.current, s.staticLocals, unit ▸ valid.recorded trivial⟩

theorem spelled_of_parseTokens {tokens : List Token} {p : Parsed} (h : parseTokens tokens = .ok p)
    (words : ∀ t ∈ seenTokens tokens, t.kind.IsPlain) : p.unit.Spelled (seenTokens tokens) := by
  obtain ⟨s, unit, valid⟩ := tracked_of_parseTokens h True fun _ => words
  exact unit ▸ valid.spelled trivial

/-- Every expression of an accepted unit obeys the typing rules. -/
theorem wellTyped_of_parseTokens {tokens : List Token} {p : Parsed}
    (h : parseTokens tokens = .ok p) : p.unit.WellTyped (canonical (seenTokens tokens)) :=
  have parsed := parsed_of_parseTokens h
  ⟨fun f member => (parsed.functions f member).typed,
    fun v member => (parsed.globals v member).typed⟩

/-- The function `int f(int *p) { while (*p) *p -= 2; return f(p) ? 'x' : *p; }` -/
theorem wellTyped_of_recursiveFunction :
    let tokens : List Token := [.keyword .intKw, .ident "f", .punct .lparen, .keyword .intKw,
      .punct .star, .ident "p", .punct .rparen, .punct .lbrace, .keyword .whileKw, .punct .lparen,
      .punct .star, .ident "p", .punct .rparen, .punct .star, .ident "p", .punct .minusAssign,
      .int 2 false false true, .punct .semicolon, .keyword .returnKw, .ident "f", .punct .lparen,
      .ident "p", .punct .rparen, .punct .question, .char 120, .punct .colon, .punct .star,
      .ident "p", .punct .semicolon, .punct .rbrace, .eof].map (⟨·, .start⟩)
    ∃ p, parseTokens tokens = .ok p ∧ p.unit.functions.length = 1 ∧
      p.unit.WellTyped (canonical (seenTokens tokens)) := by
  intro tokens
  have accepted : (parseTokens tokens).toOption.any (·.unit.functions.length = 1) = true := by
    decide +kernel
  obtain ⟨p, run, one⟩ := exists_of_toOption_any accepted
  exact ⟨p, run, of_decide_eq_true one, wellTyped_of_parseTokens run⟩

end LiveC

import LiveC.Parser.Statement
import LiveC.Proofs.DeclarationGrammar
import LiveC.Proofs.InitialLengths

/-!
Statements hand on what the typing rules and code generation ask for, and so does every level
of nesting: each one is sound if the level below it is.
-/

namespace LiveC

/-- Statements in a row that the parser hands on. -/
def Stmt.AllParsed (σ : ParserScope) (body : List Stmt) : Prop := ∀ s ∈ body, s.Parsed σ

namespace Stmt

variable {σ : ParserScope} {body : List Stmt}

theorem Parsed.block (h : AllParsed σ body) : (Stmt.block body).Parsed σ :=
  ⟨allWellTyped_iff.mpr fun s member => (h s member).1,
    allReady_iff.mpr fun s member => (h s member).2.1, .inner rfl fun s member => (h s member).2.2⟩

theorem Parsed.expr {e : Expr} (h : e.Parsed σ) : (Stmt.expr e).Parsed σ :=
  ⟨h.1, h.2.ready, .leaf (List.forall_mem_singleton.mpr h.2.uses) rfl⟩

theorem AllParsed.nil : AllParsed σ [] := nofun

/-- What a statement needs inside of a loop. -/
theorem Parsed.inside {s : Stmt} (h : s.Parsed σ.inside) :
    s.WellTyped σ.context σ.ret ∧ s.Ready σ.strings σ.locals.length True ∧
      s.Throughout (Expr.Uses σ.kinds) := by
  obtain ⟨typed, ready, uses⟩ := h
  have inLoop : (0 < σ.inside.depth) = True := eq_true (Nat.succ_pos σ.depth)
  rw [inLoop] at ready
  exact ⟨typed, ready, uses⟩

end Stmt

namespace Parser

open ParserState

variable {σ : ParserScope} {H : Prop} {g : Productions}

/-! ### Declarations in blocks -/

/-- A variable is defined under a name of its own. -/
theorem recorded_addGlobal {u : TranslationUnit} {current : Option (String × CType)}
    {declaring : List Nat} {statics : Nat} {v : GlobalVar}
    (h : u.Recorded declaring current statics)
    (named : IsPlain v.name ∧ u.symbols.definition? v.name = some false ∨
      v.isStatic = true ∧ ∃ n, IsNumbered n v.name ∧ n ≤ statics ∧ n ∉ declaring)
    (fresh : v.name ∉ u.globals.map (·.name)) (contained : v.Contained) :
    TranslationUnit.Recorded declaring { u with globals := u.globals ++ [v] } current statics where
  functions := h.functions
  functionNames := h.functionNames
  current := h.current
  globals := List.forall_mem_append.mpr ⟨h.globals, List.forall_mem_singleton.mpr named⟩
  globalNames := by
    rw [List.map_append, List.nodup_append]
    refine ⟨h.globalNames, List.pairwise_singleton _ _, fun name member other same => ?_⟩
    obtain rfl := List.mem_singleton.mp same
    rintro rfl
    exact fresh member
  bounded := h.bounded
  reserved := h.reserved
  contained := List.forall_mem_append.mpr ⟨h.contained, List.forall_mem_singleton.mpr contained⟩
  uses := h.uses

/-- The number of a static local variable is reserved while its declaration is read. -/
theorem recorded_reserve {u : TranslationUnit} {current : Option (String × CType)}
    {declaring : List Nat} {statics : Nat} (h : u.Recorded declaring current statics) :
    u.Recorded ((statics + 1) :: declaring) current (statics + 1) where
  functions := h.functions
  functionNames := h.functionNames
  current := h.current
  globals g member := by
    obtain plain | ⟨isStatic, n, numbered, le, free⟩ := h.globals g member
    · exact .inl plain
    · refine .inr ⟨isStatic, n, numbered, Nat.le_succ_of_le le, fun reserved => ?_⟩
      cases reserved with
      | head => exact Nat.not_succ_le_self _ le
      | tail _ reserved => exact free reserved
  globalNames := h.globalNames
  bounded := List.forall_mem_cons.mpr
    ⟨Nat.le_refl _, fun n member => Nat.le_succ_of_le (h.bounded n member)⟩
  reserved := by
    refine List.nodup_cons.mpr ⟨fun member => ?_, h.reserved⟩
    exact Nat.not_succ_le_self _ (h.bounded _ member)
  contained := h.contained
  uses := h.uses

section StaticLocals

variable {u : TranslationUnit} {current : Option (String × CType)} {declaring : List Nat}
  {statics n : Nat} (h : u.Recorded (n :: declaring) current statics)
include h

/-- The name of a static variable whose declaration is being read is still free. -/
theorem fresh_of_declaring {name : String} (numbered : IsNumbered n name) :
    name ∉ u.globals.map (·.name) := by
  intro taken
  obtain ⟨g, isGlobal, rfl⟩ := List.mem_map.mp taken
  obtain ⟨plain, -⟩ | ⟨-, m, other, -, free⟩ := h.globals g isGlobal
  · exact numbered.not_isPlain plain
  · exact free (other.unique numbered ▸ .head _)

/-- The reservation is given up. -/
theorem recorded_release : u.Recorded declaring current statics where
  functions := h.functions
  functionNames := h.functionNames
  current := h.current
  globals g member := by
    obtain plain | ⟨isStatic, m, numbered, le, free⟩ := h.globals g member
    · exact .inl plain
    · exact .inr ⟨isStatic, m, numbered, le, fun later => free (.tail _ later)⟩
  globalNames := h.globalNames
  bounded m member := h.bounded m (.tail _ member)
  reserved := (List.nodup_cons.mp h.reserved).2
  contained := h.contained
  uses := h.uses

end StaticLocals

theorem tracked_release {n : Nat} {s : ParserState} (h : Tracked (σ.reserving n) s) :
    Tracked σ s :=
  ⟨h.toValid, fun tracked => recorded_release (h.recorded tracked), h.spelled⟩

/-- What is known of a type and an initialiser that were read. -/
structure IsInitialised (σ : ParserScope) (ty : CType) (init : Option (List InitItem)) : Prop where
  stored : ty.IsStored σ.tokens
  declared : init = none → ty.Bounded
  items : ∀ items ∈ init, ∀ i ∈ items, i.Parsed σ.tokens σ.strings ∧ (ty.Sized → i.Within 0 ty.size)

theorem IsInitialised.parsed {ty : CType} {init : Option (List InitItem)}
    (h : IsInitialised σ ty init) {name : String} {isStatic isConst : Bool} {loc : Location} :
    GlobalVar.Parsed σ.tokens σ.strings ⟨name, ty, isStatic, isConst, init, loc⟩ where
  typed items member i inItems := (h.items items member i inItems).1.int
  strings items member i inItems := (h.items items member i inItems).1.string
  stored := h.stored
  declared := h.declared

theorem IsInitialised.contained {ty : CType} {init : Option (List InitItem)}
    (h : IsInitialised σ ty init) (complete : ty.isComplete = true) {name : String}
    {isStatic isConst : Bool} {loc : Location} :
    GlobalVar.Contained ⟨name, ty, isStatic, isConst, init, loc⟩ :=
  fun small items member i inItems => (h.items items member i inItems).2 ⟨complete, small⟩

/-- The definition of a static local variable, behind its initialiser. -/
theorem defineStatic_ends {n : Nat} {symbol : String} (numbered : IsNumbered n symbol) {ty : CType}
    {init : Option (List InitItem)} (name : String) (isConst : Bool) (loc : Location)
    (s : ParserState) :
    Ends σ.course (Tracked (σ.reserving n) s ∧ IsInitialised σ ty init) (fun _ => True) s ((do
      if !ty.isComplete then refuse loc (.unknownSize name)
      setSymbol symbol ⟨ty, true, true⟩
      modify fun s => { s with unit := { s.unit with
        globals := s.unit.globals ++ [⟨symbol, ty, true, isConst, init, loc⟩] } }
      bind name (.global symbol) : Parser Unit) s) := by
  refine .guard fun complete => ?_
  simp only [Bool.not_eq_true', Bool.not_eq_false] at complete
  have leads : s.unit.symbols.Leads (s.unit.symbols.insert symbol ⟨ty, true, true⟩) :=
    .insert (fun plain => absurd plain numbered.not_isPlain)
      fun plain => absurd plain numbered.not_isPlain
  have isVariable := CType.isFunction_of_complete complete
  refine .along (D := (σ.reserving n).course)
    (setSymbol_ends (fun pre => pre.2.stored.object) (fun _ => isSpelled_of_variable isVariable) leads)
    (fun _ => id) (fun _ => id) (fun _ pre => pre.1) (fun _ => tracked_release) fun _ t _ => ?_
  refine .bind (P := fun _ => True) ?_ fun _ =>
    bind_keeps (b := .global symbol) name fun _ => trivial
  refine ⟨⟨σ.toFunctionScope.course.refl t, .refl _, rfl⟩, fun _ pre valid => ⟨⟨⟨valid.rest, valid.names,
    valid.symbols, valid.locals, valid.returns, valid.depth, valid.unit.functions,
    List.forall_mem_append.mpr ⟨valid.unit.globals, List.forall_mem_singleton.mpr
      pre.1.2.parsed⟩⟩, fun tracked => ?_, fun tracked =>
        ⟨(valid.spelled tracked).symbols, (valid.spelled tracked).uses⟩⟩, trivial⟩⟩
  have reserving := pre.2.1.recorded tracked
  refine recorded_addGlobal (valid.recorded tracked) (.inr ⟨rfl, n, numbered, ?_, ?_⟩)
    (fresh_of_declaring reserving numbered) (pre.1.2.contained complete)
  · exact reserving.bounded n (.head _)
  · exact (List.nodup_cons.mp reserving.reserved).1

theorem staticLocal_keeps (sound : g.Sound) (spec : DeclSpec) (name : String) {ty : CType}
    (h : H → ty.Declared) (loc : Location) :
    Keeps σ.course H (staticLocal g spec name ty loc) fun _ => True := by
  intro s
  let n := s.staticLocals + 1
  let owner := (s.current.map Prod.fst).getD ""
  have numbered : IsNumbered n s!"{owner}.{name}.{n}" := ⟨_, _, rfl⟩
  have enter : Tracked σ s → H → Tracked (σ.reserving n) { s with staticLocals := n } :=
    fun valid _ => ⟨⟨valid.rest, valid.names, valid.symbols, valid.locals, valid.returns,
      valid.depth, valid.unit⟩, fun tracked => recorded_reserve (valid.recorded tracked),
      valid.spelled⟩
  have release (t : ParserState) : Tracked (σ.reserving n) t → Tracked σ t := tracked_release
  unfold staticLocal
  rw [get_bind]
  dsimp only
  rw [set_bind]
  refine .along (D := (σ.reserving n).course) (eat_keeps (σ := σ.reserving n) .assign _)
    (fun _ => id) (fun _ => id) enter release fun _ t _ => .ite (fun _ => ?_) fun _ => ?_
  · refine .along (D := (σ.reserving n).course)
      (sound.staticInit (σ := σ.reserving n) (fun pre => h pre.1) 0 t) (fun _ => id) (fun _ => id)
      (fun _ pre => pre.2.1) release fun r u _ => ?_
    refine (defineStatic_ends numbered name _ loc u).mono (fun pre => ⟨pre.2.1, pre.2.2.1, nofun, ?_⟩)
      fun _ _ => id
    rintro items ⟨⟩ i member
    obtain ⟨parsed, within⟩ := pre.2.2.2.2 i member
    rw [Nat.zero_add] at within
    exact ⟨parsed, within⟩
  · exact (defineStatic_ends numbered name _ loc t).mono
      (fun pre => ⟨pre.2.1, (h pre.1).stored _, fun _ => (h pre.1).2, nofun⟩) fun _ _ => id

theorem addLocal_keeps (s : ParserState) {v : LocalVar} (h : H → v.ty.IsStored σ.tokens) :
    Keeps (σ.course.above s) H (modify fun s => { s with locals := s.locals ++ [v] })
      fun _ => s.locals.length < σ.locals.length := by
  intro t
  have longer : σ.course.le t { t with locals := t.locals ++ [v] } :=
    ⟨⟨List.prefix_append _ _, rfl, Nat.le_refl _⟩, .refl _⟩
  refine ⟨longer, fun within pre valid => ⟨⟨?_, σ.course.trans valid.2 longer⟩, ?_⟩⟩
  · have declared := valid.1
    exact ⟨⟨declared.rest, declared.names, declared.symbols,
      List.forall_mem_append.mpr ⟨declared.locals, List.forall_mem_singleton.mpr (h pre)⟩,
      declared.returns, declared.depth, declared.unit⟩, declared.recorded, declared.spelled⟩
  · have all := within.1.1.length_le
    have before := valid.2.1.1.length_le
    simp only [List.length_append, List.length_singleton] at all
    omega

theorem localVariable_keeps (sound : g.Sound) (name : String) {ty : CType} (h : H → ty.Declared)
    (loc : Location) : Keeps σ.course H (localVariable g name ty loc) (Stmt.AllParsed σ) := by
  refine .guard fun _ => .get_bind fun s => ?_
  -- The number of the variable is only known to be one of the function's once it is declared.
  have declare (ty : CType) (stmts : List Stmt) : Keeps (σ.course.above s)
      (ty.IsStored σ.tokens ∧ (s.locals.length < σ.locals.length → Stmt.AllParsed σ stmts)) (do
        if !ty.isComplete then refuse loc (.unknownSize name)
        modify fun s => { s with locals := s.locals ++ [⟨name, ty⟩] }
        bind name (.local s.locals.length)
        return stmts) (Stmt.AllParsed σ) := by
    refine .guard fun _ => (addLocal_keeps s fun pre => pre.1).bind fun _ => ?_
    refine ((bind_keeps (b := .local s.locals.length) name fun _ => trivial).above s).skip fun _ => ?_
    exact .pure fun pre => pre.1.2 pre.2
  refine ((eat_keeps _).above s).skip fun _ => .ite (fun _ => ?_) fun _ =>
    (declare ty []).pre fun pre => ⟨(h pre.1).stored _, fun _ => .nil⟩
  refine ((sound.localInit (fun pre => h pre.1) 0).above s).bind fun r => (declare r.1 _).pre fun pre => ?_
  refine ⟨pre.2.1, fun declared => List.forall_mem_singleton.mpr ⟨?_, ⟨declared, ?_⟩, ?_⟩⟩
  · exact fun store member => ⟨(pre.2.2.2 store member).1.1, (pre.2.2.2 store member).2⟩
  · exact fun store member => (pre.2.2.2 store member).1.2.ready
  · refine .leaf (fun e member => ?_) rfl
    obtain ⟨store, inStores, rfl⟩ := List.mem_map.mp member
    exact (pre.2.2.2 store inStores).1.2.uses

theorem blockDeclarator_keeps (sound : g.Sound) {spec : DeclSpec} (h : H → spec.ty.Declared) :
    Keeps σ.course H (blockDeclarator g spec) (Stmt.AllParsed σ) := by
  refine (sound.declarator h false).bind fun d => skipAttributes_keeps.skip fun _ => ?_
  have nothing {G : Prop} : Keeps σ.course G (pure []) (Stmt.AllParsed σ) := .pure fun _ => .nil
  split
  case h_1 => exact loc_keeps.skip fun _ => peek_keeps.skip fun _ => .throw
  case h_2 name loc named =>
    refine .ite (fun _ => ?_) fun _ => .ite (fun isFunction => ?_) fun isVariable => ?_
    · exact (bind_keeps (b := .typedef d.ty) name fun pre => pre.2.declared).skip fun _ => nothing
    · refine (declareFunction_keeps name false loc isFunction (fun pre => pre.2.declared.object)
        fun pre => pre.2.isWord named).skip fun _ => ?_
      exact (bind_keeps (b := .global name) name fun _ => trivial).skip fun _ => nothing
    · split
      case h_1 =>
        have bound {G : Prop} : Keeps σ.course G (do
            bind name (.global name)
            return []) (Stmt.AllParsed σ) :=
          (bind_keeps (b := .global name) name fun _ => trivial).skip fun _ => nothing
        intro s
        rw [findSymbol?_bind]
        refine .ite (fun undeclared => ?_) fun _ => bound s
        refine .bind (setSymbol_ends (fun pre => pre.2.declared.object) (fun _ =>
          isSpelled_of_variable (Bool.eq_false_iff.mpr isVariable))
          (.insert_undeclared undeclared)) fun _ => bound
      case h_2 =>
        exact (staticLocal_keeps sound spec name (fun pre => pre.2.declared) loc).skip fun _ => nothing
      case h_3 => exact localVariable_keeps sound name (fun pre => pre.2.declared) loc

theorem blockDeclaration_keeps (sound : g.Sound) :
    Keeps σ.course H (blockDeclaration g) (Stmt.AllParsed σ) := by
  refine declSpecifiers_keeps.bind fun spec => (eat_keeps _).skip fun _ =>
    .ite (fun _ => .pure fun _ => .nil) fun _ => ?_
  refine (Keeps.iterate (fun stmts => ?_) []).pre fun pre => ⟨pre, .nil⟩
  refine (blockDeclarator_keeps sound fun pre => pre.1.2).bind fun more => ?_
  have extended (pre : ((H ∧ spec.ty.Declared) ∧ Stmt.AllParsed σ stmts) ∧ Stmt.AllParsed σ more) :
      Stmt.AllParsed σ (stmts ++ more) := List.forall_mem_append.mpr ⟨pre.1.2, pre.2⟩
  refine (eat_keeps _).skip fun _ => .ite (fun _ => .pure extended) fun _ => ?_
  exact (expect_keeps _).skip fun _ => .pure extended

/-! ### Blocks -/

theorem inBlock_keeps {α : Type} {p : Parser α} {Q : α → Prop} (h : Keeps σ.course H p Q) :
    Keeps σ.course H (inBlock p) Q := by
  refine .between h (fun _ _ => id) (fun _ => id) (fun s => σ.course.refl s)
    (fun s => σ.course.refl s) (fun s valid => ?_) (fun s valid => ?_)
  · exact ⟨⟨valid.rest, valid.names.openBlock, valid.symbols, valid.locals, valid.returns,
      valid.depth, valid.unit⟩, valid.recorded, valid.spelled⟩
  · exact ⟨⟨valid.rest, valid.names.closeBlock, valid.symbols, valid.locals, valid.returns,
      valid.depth, valid.unit⟩, valid.recorded, valid.spelled⟩

theorem blockItem_keeps (sound : g.Sound) :
    Keeps σ.course H (blockItem g) (Stmt.AllParsed σ) := by
  refine peek_keeps.skip fun t => .tryCatch ?_ fun e =>
    (recover_keeps true e).skip fun _ => .pure fun _ => .nil
  refine (startsDeclaration_keeps t).skip fun _ => .ite (fun _ => blockDeclaration_keeps sound)
    fun _ => sound.statement.bind fun s => .pure fun pre => List.forall_mem_singleton.mpr pre.2

theorem blockItems_keeps (sound : g.Sound) :
    Keeps σ.course H (blockItems g) (Stmt.AllParsed σ) := by
  have items : Keeps σ.course H (iterate (fun stmts => do
      if ← check .rbrace then return .done stmts
      else
        if ← atEnd then fail (← loc) .expectedBraceAtEnd
        return .yield (stmts ++ (← blockItem g))) []) (Stmt.AllParsed σ) := by
    refine (Keeps.iterate (fun stmts => ?_) []).pre fun pre => ⟨pre, .nil⟩
    refine (check_keeps _).skip fun _ => .ite (fun _ => .pure And.right) fun _ => ?_
    refine atEnd_keeps.skip fun _ => .ite (fun _ => loc_keeps.skip fun _ => .throw_bind) fun _ => ?_
    exact (blockItem_keeps sound).bind fun more => .pure fun pre =>
      List.forall_mem_append.mpr ⟨pre.1.2, pre.2⟩
  exact items.bind fun stmts => (expect_keeps _).skip fun _ => .pure And.right

/-! ### Statements -/

theorem controlling_keeps (sound : g.Sound) :
    Keeps σ.course H (controlling g) (Expr.ParsedCondition σ) := by
  refine (expect_keeps _).skip fun _ => (expression_keeps sound).bind fun e => ?_
  refine (typed_keeps fun pre => pre.2.condition).bind fun c => ?_
  exact (expect_keeps _).skip fun _ => .pure And.right

theorem loopBody_keeps (sound : g.Sound) :
    Keeps σ.course H (loopBody g) (Stmt.Parsed σ.inside) := by
  refine .between (D := σ.inside.course) sound.statement (fun _ _ => id) (fun _ => id)
    (fun s => σ.course.refl s) (fun s => σ.course.refl s) (fun s valid => ?_) (fun s valid => ?_)
  · exact ⟨⟨valid.rest, valid.names, valid.symbols, valid.locals, valid.returns,
      congrArg Nat.succ valid.depth, valid.unit⟩, valid.recorded, valid.spelled⟩
  · exact ⟨⟨valid.rest, valid.names, valid.symbols, valid.locals, valid.returns,
      congrArg Nat.pred valid.depth, valid.unit⟩, valid.recorded, valid.spelled⟩

/-- A `for` loop of parts that the parser hands on. -/
theorem for_parsed {start : Option Stmt} {c step : Option Expr} {body : Stmt}
    (hs : ∀ s ∈ start, s.Parsed σ) (hc : ∀ e ∈ c, e.ParsedCondition σ)
    (he : ∀ e ∈ step, e.Parsed σ) (hb : body.Parsed σ.inside) :
    (Stmt.for start c step body).Parsed σ := by
  have first : Stmt.OptionalWellTyped σ.context σ.ret start ∧
      Stmt.OptionalReady σ.strings σ.locals.length (0 < σ.depth) start := by
    cases start with
    | none => exact ⟨trivial, trivial⟩
    | some s => exact ⟨(hs s rfl).1, (hs s rfl).2.1⟩
  obtain ⟨bodyTyped, bodyReady, bodyUses⟩ := hb.inside
  refine ⟨⟨first.1, fun e member => (hc e member).1, fun e member => (he e member).1, bodyTyped⟩,
    ⟨first.2, fun e member => (hc e member).2.ready, fun e member => (he e member).2.ready,
      bodyReady⟩, .node ?_ ?_⟩
  · refine List.forall_mem_append.mpr ⟨fun e member => ?_, fun e member => ?_⟩
    · exact (hc e (Option.mem_toList.mp member)).2.uses
    · exact (he e (Option.mem_toList.mp member)).2.uses
  · refine List.forall_mem_append.mpr ⟨fun s member => ?_, List.forall_mem_singleton.mpr bodyUses⟩
    exact (hs s (Option.mem_toList.mp member)).2.2

theorem forStatement_keeps (sound : g.Sound) :
    Keeps σ.course H (forStatement g) (Stmt.Parsed σ) := by
  -- What is behind each of the three clauses, the last one first.
  have body (start : Option Stmt) (c step : Option Expr) : Keeps σ.course
      (((∀ s ∈ start, s.Parsed σ) ∧ ∀ e ∈ c, e.ParsedCondition σ) ∧ ∀ e ∈ step, e.Parsed σ) (do
        expect .rparen
        return .for start c step (← loopBody g)) (Stmt.Parsed σ) := by
    refine (expect_keeps _).skip fun _ => (loopBody_keeps sound).bind fun s => .pure ?_
    exact fun pre => for_parsed pre.1.1.1 pre.1.1.2 pre.1.2 pre.2
  have step (start : Option Stmt) (c : Option Expr) : Keeps σ.course
      ((∀ s ∈ start, s.Parsed σ) ∧ ∀ e ∈ c, e.ParsedCondition σ) (do
        expect .semicolon
        let step ← if ← check .rparen then pure none else some <$> expression g
        expect .rparen
        return .for start c step (← loopBody g)) (Stmt.Parsed σ) := by
    refine (expect_keeps _).skip fun _ => (check_keeps _).skip fun _ => .ite
      (fun _ => (body start c none).pre fun pre => ⟨pre, nofun⟩) fun _ => ?_
    refine ((expression_keeps sound).map (R := fun e? => ∀ e ∈ e?, e.Parsed σ) ?_).bind (body start c)
    rintro e - parsed _ ⟨⟩
    exact parsed
  have condition (start : Option Stmt) : Keeps σ.course (∀ s ∈ start, s.Parsed σ) (do
      let c ← if ← check .semicolon then pure none
        else some <$> typed (← expression g).condition
      expect .semicolon
      let step ← if ← check .rparen then pure none else some <$> expression g
      expect .rparen
      return .for start c step (← loopBody g)) (Stmt.Parsed σ) := by
    refine (check_keeps _).skip fun _ => .ite
      (fun _ => (step start none).pre fun pre => ⟨pre, nofun⟩) fun _ => ?_
    refine (expression_keeps sound).bind fun e => .bind
      (.map (R := fun c? => ∀ c ∈ c?, c.ParsedCondition σ) (typed_keeps fun pre => pre.2.condition) ?_)
      fun c => (step start c).pre fun pre => ⟨pre.1.1, pre.2⟩
    rintro c - parsed _ ⟨⟩
    exact parsed
  refine (expect_keeps _).skip fun _ => (eat_keeps _).skip fun _ => peek_keeps.skip fun t => ?_
  refine (startsDeclaration_keeps t).skip fun _ => .ite
    (fun _ => (condition none).pre fun _ => nofun) fun _ => .ite (fun _ => ?_) fun _ => ?_
  · refine (blockDeclaration_keeps sound).bind fun stmts => (condition _).pre ?_
    rintro ⟨-, parsed⟩ _ ⟨⟩
    exact .block parsed
  · refine (expression_keeps sound).bind fun e => (expect_keeps _).skip fun _ => (condition _).pre ?_
    rintro ⟨-, parsed⟩ _ ⟨⟩
    exact .expr parsed

theorem loopJump_keeps (kw : Keyword) {s : Stmt} (loc : Location)
    (h : 0 < σ.depth → s.Parsed σ) : Keeps σ.course H (loopJump kw s loc) (Stmt.Parsed σ) := by
  refine next_keeps.skip fun _ => Keeps.get.bind fun state => .guard fun inLoop => ?_
  refine (expect_keeps _).skip fun _ => .pure fun ⟨_, _, valid⟩ => h ?_
  rw [← valid.depth]
  exact Nat.pos_of_ne_zero inLoop

theorem returnStatement_keeps (sound : g.Sound) (loc : Location) :
    Keeps σ.course H (returnStatement g loc) (Stmt.Parsed σ) := by
  have nothing {G : Prop} : Keeps σ.course G (pure (.return none)) (Stmt.Parsed σ) :=
    .pure fun _ => ⟨nofun, nofun, .leaf nofun rfl⟩
  have value {G : Prop} {e : Expr} (h : G → e.Parsed σ ∧ (σ.ret.isVoid = false → e.ty = σ.ret)) :
      Keeps σ.course G (pure (.return (some e))) (Stmt.Parsed σ) := by
    refine .pure fun pre => ⟨?_, ?_, ?_⟩
    · rintro _ ⟨⟩
      exact ⟨(h pre).1.1, (h pre).2⟩
    · rintro _ ⟨⟩
      exact (h pre).1.2.ready
    · exact .leaf (List.forall_mem_singleton.mpr (h pre).1.2.uses) rfl
  refine Keeps.get.bind fun s => ?_
  dsimp only
  refine (eat_keeps _).skip fun _ => .ite (fun _ => ?_) fun _ => ?_
  · exact .ite (fun _ => (warn_keeps _ _).skip fun _ => nothing) fun _ => nothing
  · refine (expression_keeps sound).bind fun e => (expect_keeps _).skip fun _ => .ite (fun void => ?_)
      fun _ => ?_
    · have noValue {G : Prop} (h : G → s.returnType = σ.ret ∧ e.Parsed σ) :
          Keeps σ.course G (pure (.return (some e))) (Stmt.Parsed σ) :=
        value fun pre => ⟨(h pre).2, fun notVoid => by
          rw [← (h pre).1] at notVoid
          exact absurd (notVoid.symm.trans void) Bool.false_ne_true⟩
      exact .ite (fun _ => (warn_keeps _ _).skip fun _ => noValue fun pre => ⟨pre.1.2.1.1.2.1, pre.2⟩)
        fun _ => noValue fun pre => ⟨pre.1.2.1.1.2.1, pre.2⟩
    · refine (typed_keeps fun pre =>
        pre.2.assignConvert pre.1.2.2.returns.object loc).bind fun r => value fun pre => ?_
      exact ⟨pre.2.1, fun _ => pre.2.2.1.trans pre.1.1.2.1.1.2.1⟩

theorem statement_keeps (sound : g.Sound) : Keeps σ.course H (statement g) (Stmt.Parsed σ) := by
  refine peek_keeps.skip fun t => ?_
  dsimp only
  split
  case h_1 =>
    refine next_keeps.skip fun _ => (controlling_keeps sound).bind fun c => sound.statement.bind fun yes => ?_
    refine (eatKeyword_keeps _).skip fun _ => .ite (fun _ => ?_) fun _ => ?_
    · refine (sound.statement.map (R := fun no => ∃ s, no = some s ∧ s.Parsed σ)
        fun s _ parsed => ⟨s, rfl, parsed⟩).bind fun no => .pure ?_
      rintro ⟨⟨⟨-, hc⟩, hy⟩, s, rfl, hs⟩
      exact ⟨⟨hc.1, hy.1, hs.1⟩, ⟨hc.2.ready, hy.2.1, hs.2.1⟩,
        .node (List.forall_mem_singleton.mpr hc.2.uses) (List.forall_mem_cons.mpr
          ⟨hy.2.2, List.forall_mem_singleton.mpr hs.2.2⟩)⟩
    · refine .pure ?_
      rintro ⟨⟨-, hc⟩, hy⟩
      exact ⟨⟨hc.1, hy.1, trivial⟩, ⟨hc.2.ready, hy.2.1, trivial⟩,
        .node (List.forall_mem_singleton.mpr hc.2.uses) (List.forall_mem_singleton.mpr hy.2.2)⟩
  case h_2 =>
    refine next_keeps.skip fun _ => (controlling_keeps sound).bind fun c => ?_
    refine (loopBody_keeps sound).bind fun body => .pure ?_
    rintro ⟨⟨-, hc⟩, hb⟩
    obtain ⟨typed, ready, uses⟩ := hb.inside
    exact ⟨⟨hc.1, typed⟩, ⟨hc.2.ready, ready⟩,
      .node (List.forall_mem_singleton.mpr hc.2.uses) (List.forall_mem_singleton.mpr uses)⟩
  case h_3 =>
    refine next_keeps.skip fun _ => (loopBody_keeps sound).bind fun body => ?_
    refine (eatKeyword_keeps _).skip fun _ => .ite (fun _ => ?_) fun _ => peek_keeps.skip fun _ => .throw_bind
    refine (controlling_keeps sound).bind fun c => (expect_keeps _).skip fun _ => .pure ?_
    rintro ⟨⟨-, hb⟩, hc⟩
    obtain ⟨typed, ready, uses⟩ := hb.inside
    exact ⟨⟨hc.1, typed⟩, ⟨hc.2.ready, ready⟩,
      .node (List.forall_mem_singleton.mpr hc.2.uses) (List.forall_mem_singleton.mpr uses)⟩
  case h_4 => exact next_keeps.skip fun _ => inBlock_keeps (forStatement_keeps sound)
  case h_5 => exact loopJump_keeps _ _ fun inLoop => ⟨trivial, inLoop, .leaf nofun rfl⟩
  case h_6 => exact loopJump_keeps _ _ fun inLoop => ⟨trivial, inLoop, .leaf nofun rfl⟩
  case h_7 => exact next_keeps.skip fun _ => returnStatement_keeps sound _
  case h_8 | h_9 | h_10 | h_11 => exact .throw
  case h_12 =>
    exact next_keeps.skip fun _ => (inBlock_keeps (blockItems_keeps sound)).bind fun body =>
      .pure fun pre => .block pre.2
  case h_13 => exact next_keeps.skip fun _ => .pure fun _ => ⟨trivial, trivial, .leaf nofun rfl⟩
  case h_14 =>
    exact (expression_keeps sound).bind fun e => (expect_keeps _).skip fun _ =>
      .pure fun pre => .expr pre.2

/-! ### Levels of nesting -/

theorem refused_sound : Productions.refused.Sound where
  assignment := loc_keeps.skip fun _ => .throw
  conditional := loc_keeps.skip fun _ => .throw
  cast := loc_keeps.skip fun _ => .throw
  unary := loc_keeps.skip fun _ => .throw
  declarator _ _ := loc_keeps.skip fun _ => .throw
  suffixes _ := loc_keeps.skip fun _ => .throw
  parenthesised _ := nofun
  staticInit _ _ := loc_keeps.skip fun _ => .throw
  localInit _ _ := loc_keeps.skip fun _ => .throw
  statement := loc_keeps.skip fun _ => .throw

/-- The initialiser of a local variable, of which only the stores matter. -/
theorem localInit_keeps (sound : g.Sound) {ty : CType} (h : H → ty.Declared) (offset : Nat) :
    Keeps σ.course H (initializer g .automatic g.localInit ty offset) fun r =>
      r.1.IsStored σ.tokens ∧ ty.Completes r.1 ∧ ∀ s ∈ r.2, s.Parsed σ := by
  have inner {G : Prop} {ty : CType} (hG : G → ty.Declared) (offset : Nat) :=
    (sound.localInit (σ := σ) hG offset).post fun r _ post =>
      (⟨post.1.object, post.2.1, fun s member => ⟨post.2.2 s member, fun _ => trivial⟩⟩ :
        r.1.IsObject ∧ ty.Completes r.1 ∧ ∀ s ∈ r.2, s.Parsed σ ∧ (r.1.Sized → True))
  have read := initializer_keeps sound automatic_yields inner h offset
  refine initializer_stored (read.post fun r _ post => ?_) h
  exact ⟨post.2.1, fun s member => (post.2.2 s member).1⟩

/-- The initialiser of a static object. -/
theorem staticInit_keeps (sound : g.Sound) {ty : CType} (h : H → ty.Declared) (offset : Nat) :
    Keeps σ.course H (initializer g .static g.staticInit ty offset) fun r =>
      r.1.IsStored σ.tokens ∧ ty.Completes r.1 ∧
        ∀ i ∈ r.2, i.Parsed σ.tokens σ.strings ∧ (r.1.Sized → i.Within offset (offset + r.1.size)) := by
  have inner {G : Prop} {ty : CType} (hG : G → ty.Declared) (offset : Nat) :=
    (sound.staticInit (σ := σ) hG offset).post fun r _ post =>
      (⟨post.1.object, post.2⟩ : r.1.IsObject ∧ ty.Completes r.1 ∧
        ∀ i ∈ r.2, i.Parsed σ.tokens σ.strings ∧ (r.1.Sized → i.Within offset (offset + r.1.size)))
  have read := initializer_keeps sound static_yields inner h offset
  exact initializer_stored (read.post fun _ _ post => post.2) h

theorem productions_sound (n : Nat) : (productions n).Sound := by
  induction n with
  | zero => exact refused_sound
  | succ n ih =>
      exact {
        assignment := assignment_keeps ih
        conditional := conditional_keeps ih
        cast := cast_keeps ih
        unary := unary_keeps ih
        declarator := fun h abstract => declarator_keeps ih h abstract
        suffixes := fun h => suffixes_keeps ih h
        parenthesised := suffixes_parenthesised
        staticInit := fun h offset => staticInit_keeps ih h offset
        localInit := fun h offset => localInit_keeps ih h offset
        statement := statement_keeps ih }

end Parser
end LiveC

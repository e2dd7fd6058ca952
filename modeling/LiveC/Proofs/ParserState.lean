import LiveC.Parser.Specifiers
import LiveC.Proofs.Readiness
import LiveC.Proofs.UnitNames

/-!
Valid states of the parser, and the elementary steps that keep them: consuming tokens,
looking up and declaring names, and reading declaration specifiers.
-/

namespace LiveC

/-- Character constants are signed bytes. -/
def TokenKind.IsByte : TokenKind → Prop
  | .char v => -128 ≤ v ∧ v < 128
  | _ => True

namespace CType

/-- What a declarator makes of a declared base type. -/
def Declared (t : CType) : Prop := t.WellFormed ∧ t.Bounded

/-- The type of a declared object, with the length that an initialiser may give it. -/
def IsObject (t : CType) : Prop := t.WellFormed ∧ t.ObjectBounded

theorem Declared.object {t : CType} (h : t.Declared) : t.IsObject := ⟨h.1, h.2.object⟩

end CType

/-- How many elements of an array a token initialises at most. -/
def TokenKind.elements : TokenKind → Nat
  | .str bytes => bytes.length + 1
  | _ => 1

/-- How many elements of an array tokens initialise at most, the zero behind a string apart: each of
them takes a token or a byte of a string. -/
def initialisers : List Token → Nat
  | [] => 0
  | t :: tokens => t.kind.elements + initialisers tokens

/-- The type of an object that is laid out. A declarator bounds it, or it is an array that is as
long as its initialiser. -/
def CType.IsStored (tokens : List Token) (t : CType) : Prop :=
  t.WellFormed ∧ (t.Bounded ∨ t.Completed (initialisers tokens + 1))

theorem CType.Declared.stored {t : CType} (h : t.Declared) (tokens : List Token) :
    t.IsStored tokens := ⟨h.1, .inl h.2⟩

theorem CType.IsStored.object {t : CType} {tokens : List Token} (h : t.IsStored tokens) :
    t.IsObject := ⟨h.1, h.2.elim Bounded.object Completed.objectBounded⟩

def Binding.Declared : Binding → Prop
  | .typedef t => t.Declared
  | _ => True

theorem mem_of_lookup {κ α : Type} [BEq κ] [LawfulBEq κ] {entries : List (κ × α)} {name : κ} {a : α}
    (h : entries.lookup name = some a) : (name, a) ∈ entries := by
  obtain ⟨before, after, rfl, -⟩ := List.lookup_eq_some_iff.mp h
  exact List.mem_append_right _ (.head _)

theorem not_mem_of_lookup {κ α : Type} [BEq κ] [LawfulBEq κ] {entries : List (κ × α)} {name : κ}
    (h : entries.lookup name = none) : name ∉ entries.map Prod.fst := by
  intro member
  obtain ⟨entry, listed, rfl⟩ := List.mem_map.mp member
  simpa using List.lookup_eq_none_iff.mp h entry listed

theorem lookup_of_mem {κ α : Type} [BEq κ] [LawfulBEq κ] {entries : List (κ × α)}
    (distinct : (entries.map Prod.fst).Nodup) {name : κ} {a : α} (h : (name, a) ∈ entries) :
    entries.lookup name = some a := by
  induction entries with
  | nil => cases h
  | cons first rest ih =>
      rw [List.map_cons, List.nodup_cons] at distinct
      rw [List.lookup_cons]
      rcases List.mem_cons.mp h with rfl | member
      · rw [beq_self_eq_true]
      · have other : name ≠ first.1 := fun e => distinct.1 (e ▸ List.mem_map_of_mem member)
        rw [beq_false_of_ne other]
        exact ih distinct.2 member

/-- Every name is declared with a declared type. -/
def ScopeStack.Declared (s : ScopeStack) : Prop :=
  ∀ scope ∈ s.file :: s.blocks, ∀ b ∈ scope, b.2.Declared

namespace ScopeStack.Declared

variable {s : ScopeStack}

theorem openBlock (h : s.Declared) : s.openBlock.Declared := by
  obtain ⟨file, blocks⟩ := List.forall_mem_cons.mp h
  exact List.forall_mem_cons.mpr ⟨file, List.forall_mem_cons.mpr ⟨nofun, blocks⟩⟩

theorem closeBlock (h : s.Declared) : s.closeBlock.Declared := by
  obtain ⟨file, blocks⟩ := List.forall_mem_cons.mp h
  exact List.forall_mem_cons.mpr ⟨file, fun scope member => blocks scope (List.mem_of_mem_tail member)⟩

theorem closeAll (h : s.Declared) : s.closeAll.Declared :=
  List.forall_mem_cons.mpr ⟨(List.forall_mem_cons.mp h).1, nofun⟩

theorem bindFile {b : Binding} (h : s.Declared) (declared : b.Declared) (name : String) :
    (s.bindFile name b).Declared := by
  obtain ⟨file, blocks⟩ := List.forall_mem_cons.mp h
  exact List.forall_mem_cons.mpr ⟨List.forall_mem_cons.mpr ⟨declared, file⟩, blocks⟩

theorem bind {b : Binding} (h : s.Declared) (declared : b.Declared) (name : String) :
    (s.bind name b).Declared := by
  obtain ⟨file, blocks⟩ := List.forall_mem_cons.mp h
  unfold ScopeStack.bind
  split
  case h_1 => exact h.bindFile declared name
  case h_2 scope outer opened =>
    rw [opened] at blocks
    obtain ⟨inner, others⟩ := List.forall_mem_cons.mp blocks
    exact List.forall_mem_cons.mpr ⟨file, List.forall_mem_cons.mpr
      ⟨List.forall_mem_cons.mpr ⟨declared, inner⟩, others⟩⟩

theorem find? {b : Binding} {name : String} (h : s.Declared) (found : s.find? name = some b) :
    b.Declared := by
  obtain ⟨scope, member, lookup⟩ := List.exists_of_findSome?_eq_some found
  refine h scope ?_ _ (mem_of_lookup lookup)
  rwa [List.mem_append, List.mem_singleton, or_comm, ← List.mem_cons] at member

end ScopeStack.Declared

/-- A name is an identifier of the source. -/
def IsWord (tokens : List Token) (name : String) : Prop := ∃ t ∈ tokens, t.kind = .ident name

theorem IsWord.isPlain {tokens : List Token} {name : String} (h : IsWord tokens name)
    (words : ∀ t ∈ tokens, t.kind.IsPlain) : IsPlain name := by
  obtain ⟨t, member, kind⟩ := h
  have word := words t member
  rwa [kind] at word

/-- A function has its name from the source, unlike a static local variable. -/
def IsSpelled (tokens : List Token) (name : String) (isFunction : Bool) : Prop :=
  isFunction = true → IsWord tokens name

theorem isSpelled_of_variable {tokens : List Token} {name : String} {isFunction : Bool}
    (h : isFunction = false) : IsSpelled tokens name isFunction :=
  fun isTrue => nomatch h.symm.trans isTrue

theorem CType.isFunction_of_complete {t : CType} (h : t.isComplete = true) : t.isFunction = false := by
  cases t with
  | function => cases h
  | void | int | double | pointer | array => rfl

/-- The canonical words of a type, provided that characters are bytes. -/
def canonical (tokens : List Token) (t : IntType) (v : Word) : Prop :=
  (∀ t ∈ tokens, t.kind.IsByte) → t.wrap v = v

/-! ### What the statements of a function need -/

namespace Stmt

variable (strings locals : Nat)

mutual

/-- Expressions are ready, initialisers refer to variables of the function, and jumps leave a
loop. -/
def Ready (inLoop : Prop) : Stmt → Prop
  | expr e => e.Ready strings
  | init id _ stores => id < locals ∧ ∀ s ∈ stores, s.value.Ready strings
  | block body => AllReady inLoop body
  | ite c t f => c.Ready strings ∧ Ready inLoop t ∧ OptionalReady inLoop f
  | .while c body | doWhile body c => c.Ready strings ∧ Ready True body
  | .for start c step body =>
      OptionalReady inLoop start ∧ (∀ e ∈ c, e.Ready strings) ∧ (∀ e ∈ step, e.Ready strings) ∧
        Ready True body
  | .break | .continue => inLoop
  | .return value => ∀ e ∈ value, e.Ready strings
  | empty => True

def AllReady (inLoop : Prop) : List Stmt → Prop
  | [] => True
  | s :: rest => Ready inLoop s ∧ AllReady inLoop rest

def OptionalReady (inLoop : Prop) : Option Stmt → Prop
  | some s => Ready inLoop s
  | none => True

end

variable {strings locals} in
theorem allReady_iff {inLoop : Prop} {body : List Stmt} :
    AllReady strings locals inLoop body ↔ ∀ s ∈ body, s.Ready strings locals inLoop := by
  induction body with
  | nil => exact ⟨fun _ => nofun, fun _ => trivial⟩
  | cons s body ih => rw [AllReady, ih, List.forall_mem_cons]

end Stmt

namespace Function

/-- The function is declared by a name with a parameter list behind it. -/
def WritesParameters (tokens : List Token) (f : Function) : Prop :=
  ∀ before t after, tokens = before ++ t :: after → t.kind = .ident f.name → t.loc = f.loc →
    after.head?.map Token.kind = some (.punct .lparen)

theorem writesParameters_iff {tokens : List Token} {f : Function} :
    f.WritesParameters tokens ↔ ∀ i : Fin tokens.length,
      tokens[i].kind = .ident f.name → tokens[i].loc = f.loc →
        (tokens[i.val + 1]?).map Token.kind = some (.punct .lparen) := by
  constructor
  · intro written i kind loc
    have split : tokens = tokens.take i ++ tokens[i] :: tokens.drop (i + 1) := by
      rw [Fin.getElem_fin, List.getElem_cons_drop, List.take_append_drop]
    simpa [List.head?_drop] using written _ _ _ split kind loc
  · rintro written before t after rfl kind loc
    have next := written ⟨before.length, by simp⟩ (by simpa using kind) (by simpa using loc)
    rw [List.getElem?_append_right (Nat.le_succ _)] at next
    simpa [List.head?_eq_getElem?] using next

instance {tokens : List Token} {f : Function} : Decidable (f.WritesParameters tokens) :=
  decidable_of_iff _ writesParameters_iff.symm

/-- The parameters are the first variables and fit into registers. -/
def Passable (f : Function) : Prop :=
  Expr.fitsRegisters f.signature.params = true ∧
    f.signature.params <+: f.locals.map LocalVar.ty

structure Parsed (tokens : List Token) (strings : Nat) (f : Function) : Prop where
  typed : f.WellTyped (canonical tokens)
  ready : Stmt.AllReady strings f.locals.length False f.body
  passable : f.WritesParameters tokens → f.Passable
  params : ∀ t ∈ f.signature.params, t.Bounded
  locals : ∀ v ∈ f.locals, v.ty.IsStored tokens

end Function

/-- Only an initialiser makes a static object larger than its declarator allows. -/
structure GlobalVar.Parsed (tokens : List Token) (strings : Nat) (g : GlobalVar) : Prop where
  typed : g.WellTyped (canonical tokens)
  strings : ∀ items ∈ g.init, ∀ i ∈ items, ∀ id addend, i.value = .address (.str id) addend →
    id < strings
  stored : g.ty.IsStored tokens
  declared : g.init = none → g.ty.Bounded

/-- What holds of the definitions of a unit that is parsed from tokens and has so many string
literals in the end. -/
structure TranslationUnit.Parsed (tokens : List Token) (strings : Nat) (u : TranslationUnit) :
    Prop where
  functions : ∀ f ∈ u.functions, f.Parsed tokens strings
  globals : ∀ g ∈ u.globals, g.Parsed tokens strings

/-- Where the parser is: the tokens of the source, the number of string literals of the whole
unit, the variables of the whole function, its return type, and how many loops are open. -/
structure FunctionScope where
  tokens : List Token
  strings : Nat
  locals : List LocalVar
  ret : CType
  depth : Nat

namespace ParserState

/-- The return type of the current function. -/
def returnType (s : ParserState) : CType := (s.current.map Prod.snd).getD (.int .int)

structure Valid (σ : FunctionScope) (s : ParserState) : Prop where
  rest : s.rest <:+ σ.tokens
  names : s.scopes.Declared
  symbols : ∀ e ∈ s.unit.symbols.entries, e.2.ty.IsObject
  locals : ∀ v ∈ s.locals, v.ty.IsStored σ.tokens
  returns : s.returnType.Declared
  depth : s.loopDepth = σ.depth
  unit : s.unit.Parsed σ.tokens σ.strings

end ParserState

namespace FunctionScope

def context (σ : FunctionScope) : TypingContext := .ofLocals (canonical σ.tokens) σ.locals

/-- Inside of one more loop. -/
def inside (σ : FunctionScope) : FunctionScope := { σ with depth := σ.depth + 1 }

theorem context_closed (σ : FunctionScope) : σ.context.Closed :=
  fun t v _ => IntType.wrap_wrap t v

/-- Inside of a function, variables and string literals are only added. -/
def course (σ : FunctionScope) : Parser.Course where
  le s t := s.locals <+: t.locals ∧ t.current = s.current ∧
    s.unit.strings.length ≤ t.unit.strings.length
  refl s := ⟨List.prefix_refl _, rfl, Nat.le_refl _⟩
  trans h k := ⟨h.1.trans k.1, k.2.1.trans h.2.1, Nat.le_trans h.2.2 k.2.2⟩
  within t := t.locals <+: σ.locals ∧ t.returnType = σ.ret ∧ t.unit.strings.length ≤ σ.strings
  within_of_le h k := ⟨h.1.trans k.1, by rw [← k.2.1, ParserState.returnType, ← h.2.1]; rfl,
    Nat.le_trans h.2.2 k.2.2⟩
  valid := ParserState.Valid σ

end FunctionScope

/-- The value of a static initialiser and the bytes that it takes. -/
def InitValue.width : InitValue → Nat
  | int _ size => size
  | float _ | address .. => 8
  | bytes bs => bs.length

/-- An initialiser that stores between two offsets. -/
def InitItem.Within (start stop : Nat) (i : InitItem) : Prop :=
  start ≤ i.offset ∧ i.offset + i.value.width ≤ stop

/-- What the initialiser of a variable stores lies in the variable. -/
def GlobalVar.Contained (g : GlobalVar) : Prop :=
  g.ty.size < Word.modulus - 1 → ∀ items ∈ g.init, ∀ i ∈ items, i.Within 0 g.ty.size

/-- The statements of a function use names as what they are. -/
def Function.Uses (kinds : String → Bool → Prop) (f : Function) : Prop :=
  ∀ s ∈ f.body, s.Throughout (Expr.Uses kinds)

theorem Function.Uses.mono {kinds kinds' : String → Bool → Prop} {f : Function} (h : f.Uses kinds)
    (more : ∀ name isFunction, kinds name isFunction → kinds' name isFunction) : f.Uses kinds' := by
  refine fun s member => (h s member).mono fun e uses => Expr.Everywhere.mono (fun e node => ?_) uses
  cases e with
  | global | call => exact more _ _ node
  | _ => trivial

/-- The definitions of a unit have names of their own. Those of static local variables are
numbered; the numbers of variables that are being declared are still free. -/
structure TranslationUnit.Recorded (declaring : List Nat) (u : TranslationUnit)
    (current : Option (String × CType)) (statics : Nat) : Prop where
  functions : ∀ f ∈ u.functions, IsPlain f.name ∧ u.symbols.definition? f.name = some true
  functionNames : (u.functions.map (·.name)).Nodup
  current : ∀ c ∈ current, (IsPlain c.1 ∧ u.symbols.definition? c.1 = some true) ∧
    c.1 ∉ u.functions.map (·.name)
  globals : ∀ g ∈ u.globals, IsPlain g.name ∧ u.symbols.definition? g.name = some false ∨
    g.isStatic = true ∧ ∃ n, IsNumbered n g.name ∧ n ≤ statics ∧ n ∉ declaring
  globalNames : (u.globals.map (·.name)).Nodup
  bounded : ∀ n ∈ declaring, n ≤ statics
  reserved : declaring.Nodup
  contained : ∀ g ∈ u.globals, g.Contained
  uses : ∀ f ∈ u.functions, f.Uses u.symbols.Declares

/-- Functions are declared and used under names of the source. -/
structure TranslationUnit.Spelled (tokens : List Token) (u : TranslationUnit) : Prop where
  symbols : ∀ e ∈ u.symbols.entries, IsSpelled tokens e.1 e.2.ty.isFunction
  uses : ∀ f ∈ u.functions, f.Uses (IsSpelled tokens)

/-- Where the parser is, if definitions are tracked too: the numbers of the static local
variables whose declarations are being read, and what names are declared as behind the whole
function. -/
structure ParserScope extends FunctionScope where
  tracked : Prop
  declaring : List Nat
  kinds : String → Bool → Prop

/-- Definitions are not tracked. -/
def FunctionScope.untracked (σ : FunctionScope) : ParserScope := ⟨σ, False, [], fun _ _ => True⟩

/-- A valid state, in which definitions are recorded. -/
structure ParserState.Tracked (σ : ParserScope) (s : ParserState) : Prop
    extends s.Valid σ.toFunctionScope where
  recorded : σ.tracked → s.unit.Recorded σ.declaring s.current s.staticLocals
  spelled : σ.tracked → s.unit.Spelled σ.tokens

namespace ParserScope

/-- Inside of one more loop. -/
def inside (σ : ParserScope) : ParserScope :=
  { σ with toFunctionScope := σ.toFunctionScope.inside }

/-- In the declaration of the static local variable of a number. -/
def reserving (σ : ParserScope) (n : Nat) : ParserScope := { σ with declaring := n :: σ.declaring }

/-- Inside of a function, no plain names are defined either. -/
def course (σ : ParserScope) : Parser.Course where
  le s t := σ.toFunctionScope.course.le s t ∧ s.unit.Leads t.unit
  refl s := ⟨σ.toFunctionScope.course.refl s, .refl _⟩
  trans h k := ⟨σ.toFunctionScope.course.trans h.1 k.1, h.2.trans k.2⟩
  within t := σ.toFunctionScope.course.within t ∧
    ∀ name isFunction, t.unit.symbols.Declares name isFunction →
      (σ.tracked → IsSpelled σ.tokens name isFunction) → σ.kinds name isFunction
  within_of_le h k := ⟨σ.toFunctionScope.course.within_of_le h.1 k.1,
    fun name isFunction declares => k.2 name isFunction (h.2.declares declares)⟩
  valid := ParserState.Tracked σ

end ParserScope

/-- An expression that the parser hands on. -/
def Expr.Parsed (σ : ParserScope) (e : Expr) : Prop :=
  e.WellTyped σ.context ∧ e.Prepared σ.strings σ.kinds

/-- A condition that the parser hands on. -/
def Expr.ParsedCondition (σ : ParserScope) (e : Expr) : Prop :=
  e.Controls σ.context ∧ e.Prepared σ.strings σ.kinds

/-- A statement that the parser hands on. -/
def Stmt.Parsed (σ : ParserScope) (s : Stmt) : Prop :=
  s.WellTyped σ.context σ.ret ∧ s.Ready σ.strings σ.locals.length (0 < σ.depth) ∧
    s.Throughout (Expr.Uses σ.kinds)

namespace Parser

open ParserState

variable {σ : ParserScope} {H : Prop} {α : Type}

/-! ### Changes of the state -/

/-- A change that concerns neither variables nor string literals. -/
theorem modify_keeps {f : ParserState → ParserState}
    (same : ∀ s, (f s).locals = s.locals ∧ (f s).current = s.current ∧ (f s).unit = s.unit)
    (valid : ∀ s, H → Tracked σ s → Tracked σ (f s)) :
    Keeps σ.course H (modify f) fun _ => True := by
  refine .modify (fun s => ?_) fun s _ => valid s
  obtain ⟨locals, current, unit⟩ := same s
  exact ⟨⟨locals ▸ List.prefix_refl _, current, Nat.le_of_eq (by rw [unit])⟩, unit ▸ .refl _⟩

theorem setRest_valid {s : ParserState} (h : Tracked σ s) {rest : List Token}
    (suffix : rest <:+ σ.tokens) : Tracked σ { s with rest } :=
  ⟨⟨suffix, h.names, h.symbols, h.locals, h.returns, h.depth, h.unit⟩, h.recorded, h.spelled⟩

theorem warn_keeps (loc : Location) (w : SemanticWarning) :
    Keeps σ.course H (warn loc w) fun _ => True :=
  modify_keeps (fun _ => ⟨rfl, rfl, rfl⟩) fun _ _ h =>
    ⟨⟨h.rest, h.names, h.symbols, h.locals, h.returns, h.depth, h.unit⟩, h.recorded, h.spelled⟩

theorem typed_keeps {t : Typing α} {Q : α → Prop} (h : H → t.Yields Q) :
    Keeps σ.course H (typed t) Q := by
  intro s
  unfold typed
  cases ht : t.run s.warnings with
  | ok r =>
      refine ⟨σ.course.refl s, fun _ pre valid => ⟨?_, h pre _ _ _ ht⟩⟩
      exact ⟨⟨valid.rest, valid.names, valid.symbols, valid.locals, valid.returns, valid.depth,
        valid.unit⟩, valid.recorded, valid.spelled⟩
  | error f => exact ⟨σ.course.refl s, fun _ _ valid => valid⟩

/-! ### Tokens -/

/-- A token of the source, or the end of input. -/
def OfSource (σ : ParserScope) (t : Token) : Prop := t ∈ σ.tokens ∨ t.kind = .eof

theorem OfSource.isWord {t : Token} {name : String} (h : OfSource σ t) (kind : t.kind = .ident name) :
    IsWord σ.tokens name := by
  rcases h with member | eof
  · exact ⟨t, member, kind⟩
  · cases kind.symm.trans eof

theorem ofSource_head {ts : List Token} (h : ts <:+ σ.tokens) (loc : Location) :
    OfSource σ (ts.head?.getD ⟨.eof, loc⟩) := by
  cases ts with
  | nil => exact .inr rfl
  | cons t ts => exact .inl (h.subset (.head _))

theorem peek_keeps : Keeps σ.course H peek (OfSource σ) :=
  Keeps.get.bind fun s => .pure fun ⟨_, _, valid⟩ => ofSource_head valid.rest s.endLoc

theorem peekSecond_keeps : Keeps σ.course H peekSecond (OfSource σ) :=
  Keeps.get.bind fun s => .pure fun ⟨_, _, valid⟩ =>
    ofSource_head ((List.tail_suffix _).trans valid.rest) s.endLoc

theorem next_keeps : Keeps σ.course H next (OfSource σ) := by
  refine peek_keeps.bind fun t => ?_
  refine .skip (modify_keeps (fun _ => ⟨rfl, rfl, rfl⟩) fun s _ h => ?_) fun _ => .pure And.right
  exact setRest_valid h ((List.tail_suffix _).trans h.rest)

theorem loc_keeps : Keeps σ.course H loc fun _ => True :=
  peek_keeps.skip fun _ => .done

theorem atEnd_keeps : Keeps σ.course H atEnd fun _ => True :=
  Keeps.get.skip fun _ => .done

theorem check_keeps (p : Punct) : Keeps σ.course H (check p) fun _ => True :=
  peek_keeps.skip fun _ => .done

theorem eat_keeps (p : Punct) : Keeps σ.course H (eat p) fun _ => True :=
  (check_keeps p).skip fun _ => .ite
    (fun _ => next_keeps.skip fun _ => .done) fun _ => .done

theorem eatKeyword_keeps (kw : Keyword) : Keeps σ.course H (eatKeyword kw) fun _ => True :=
  peek_keeps.skip fun _ => .ite
    (fun _ => next_keeps.skip fun _ => .done) fun _ => .done

theorem expect_keeps (p : Punct) : Keeps σ.course H (expect p) fun _ => True :=
  (eat_keeps p).skip fun _ => .ite (fun _ => .done) fun _ =>
    peek_keeps.skip fun _ => .throw

/-! ### Names -/

theorem find?_keeps (name : String) : Keeps σ.course H (find? name) fun b? =>
    ∀ b ∈ b?, b.Declared :=
  Keeps.get.bind fun _ => .pure fun ⟨_, _, valid⟩ _ found => valid.names.find? found

theorem findSymbol?_keeps (name : String) : Keeps σ.course H (findSymbol? name) fun symbol? =>
    ∀ symbol ∈ symbol?, symbol.ty.IsObject ∧ σ.kinds name symbol.ty.isFunction :=
  Keeps.get.bind fun _ => .pure fun ⟨_, within, valid⟩ symbol found =>
    ⟨valid.symbols _ (mem_of_lookup found), within.2 name _ (fun _ => ⟨symbol, found, rfl⟩)
      fun tracked => (valid.spelled tracked).symbols _ (mem_of_lookup found)⟩

theorem bind_keeps {b : Binding} (name : String) (h : H → b.Declared) :
    Keeps σ.course H (bind name b) fun _ => True :=
  modify_keeps (fun _ => ⟨rfl, rfl, rfl⟩) fun _ pre valid => ⟨⟨valid.rest,
    valid.names.bind (h pre) name, valid.symbols, valid.locals, valid.returns, valid.depth,
    valid.unit⟩, valid.recorded, valid.spelled⟩

theorem bindFile_keeps {b : Binding} (name : String) (h : H → b.Declared) :
    Keeps σ.course H (bindFile name b) fun _ => True :=
  modify_keeps (fun _ => ⟨rfl, rfl, rfl⟩) fun _ pre valid => ⟨⟨valid.rest,
    valid.names.bindFile (h pre) name, valid.symbols, valid.locals, valid.returns, valid.depth,
    valid.unit⟩, valid.recorded, valid.spelled⟩

theorem forall_mem_insert {table : SymbolTable} {P : String × GlobalSymbol → Prop}
    (h : ∀ e ∈ table.entries, P e) {name : String} {symbol : GlobalSymbol} (own : P (name, symbol)) :
    ∀ e ∈ (table.insert name symbol).entries, P e := by
  intro e member
  unfold SymbolTable.insert at member
  split at member
  · obtain ⟨e', member', rfl⟩ := List.mem_map.mp member
    split
    · exact own
    · exact h e' member'
  · obtain member | rfl := (List.mem_append.trans (or_congr_right List.mem_singleton)).mp member
    · exact h e member
    · exact own

/-- Nothing is defined by a symbol, other than a name that is already, or one with a dot. -/
theorem recorded_insert {u : TranslationUnit} {current : Option (String × CType)}
    {declaring : List Nat} {statics : Nat} {symbol : GlobalSymbol} {name : String}
    (h : u.Recorded declaring current statics)
    (leads : u.symbols.Leads (u.symbols.insert name symbol)) :
    TranslationUnit.Recorded declaring { u with symbols := u.symbols.insert name symbol } current
      statics where
  functions f member := by
    obtain ⟨plain, defined⟩ := h.functions f member
    exact ⟨plain, (leads.defined plain).trans defined⟩
  functionNames := h.functionNames
  current c member := by
    obtain ⟨⟨plain, defined⟩, fresh⟩ := h.current c member
    exact ⟨⟨plain, (leads.defined plain).trans defined⟩, fresh⟩
  globals g member := by
    obtain ⟨plain, defined⟩ | numbered := h.globals g member
    · exact .inl ⟨plain, (leads.defined plain).trans defined⟩
    · exact .inr numbered
  globalNames := h.globalNames
  bounded := h.bounded
  reserved := h.reserved
  contained := h.contained
  uses f member := (h.uses f member).mono fun _ _ => leads.declares

/-- Declares a symbol without defining it. -/
theorem setSymbol_ends {s : ParserState} {symbol : GlobalSymbol} {name : String}
    (h : H → symbol.ty.IsObject) (word : H → IsSpelled σ.tokens name symbol.ty.isFunction)
    (leads : s.unit.symbols.Leads (s.unit.symbols.insert name symbol)) :
    Ends σ.course H (fun _ => σ.kinds name symbol.ty.isFunction) s
      (setSymbol name symbol s) := by
  refine ⟨⟨σ.toFunctionScope.course.refl s, leads, rfl⟩, fun within pre valid => ⟨⟨⟨valid.rest,
    valid.names, forall_mem_insert valid.symbols (h pre), valid.locals, valid.returns,
    valid.depth, ⟨valid.unit.functions, valid.unit.globals⟩⟩, fun tracked => ?_, fun tracked => ?_⟩, ?_⟩⟩
  · exact recorded_insert (valid.recorded tracked) leads
  · have spelled := valid.spelled tracked
    exact ⟨forall_mem_insert spelled.symbols (word pre), spelled.uses⟩
  · refine within.2 name _ (fun _ => ⟨symbol, ?_, rfl⟩) fun _ => word pre
    exact (SymbolTable.find?_insert ..).trans (if_pos rfl)

/-- What is behind a look at the symbol of a name. -/
theorem findSymbol?_bind {β : Type} (name : String) (f : Option GlobalSymbol → Parser β)
    (s : ParserState) : (findSymbol? name >>= f) s = f (s.unit.symbols.find? name) s := rfl

theorem isTypedef_keeps (t : Token) : Keeps σ.course H (isTypedef t) fun _ => True := by
  unfold isTypedef
  split
  · exact (find?_keeps _).skip fun _ => .done
  · exact .done

/-! ### Balanced parentheses and recovery -/

theorem behindClose?_suffix {depth : Nat} {ts rest : List Token}
    (h : behindClose? depth ts = some rest) : rest <:+ ts := by
  induction ts generalizing depth with
  | nil => cases h
  | cons t ts ih =>
      unfold behindClose? at h
      split at h
      case h_1 | h_2 | h_4 => exact (ih h).trans (List.suffix_cons t ts)
      case h_3 =>
        cases h
        exact List.suffix_cons t _

theorem behindError_suffix (inBlock : Bool) (depth : Nat) (ts : List Token) :
    behindError inBlock depth ts <:+ ts := by
  fun_induction behindError inBlock depth ts with
  | case1 | case3 => exact List.suffix_rfl
  | case4 | case5 | case7 => exact List.suffix_cons _ _
  | case2 _ _ _ _ ih | case6 _ _ _ _ _ ih | case8 _ _ _ _ _ _ _ ih =>
      exact ih.trans (List.suffix_cons _ _)

theorem get_bind {α : Type} (f : ParserState → Parser α) (s : ParserState) :
    (get >>= f) s = f s s := rfl

theorem set_bind {α : Type} (f : PUnit → Parser α) (s t : ParserState) :
    (set t >>= f) s = f ⟨⟩ t := rfl

theorem skipToClose_keeps (e : SyntaxError) : Keeps σ.course H (skipToClose e) fun _ => True := by
  intro s
  cases found : behindClose? 1 s.rest with
  | some rest =>
      have run : skipToClose e s = .ok () { s with rest } := by
        refine (get_bind _ s).trans ?_
        rw [found]
        rfl
      rw [run]
      refine ⟨σ.course.refl s, fun _ _ valid => ⟨?_, trivial⟩⟩
      exact setRest_valid valid ((behindClose?_suffix found).trans valid.rest)
  | none =>
      have run : skipToClose e s = .error (.form s.endLoc e) { s with rest := [] } := by
        refine (get_bind _ s).trans ?_
        rw [found]
        rfl
      rw [run]
      exact ⟨σ.course.refl s, fun _ _ valid => setRest_valid valid (List.nil_suffix)⟩

theorem recover_keeps (inBlock : Bool) (e : SourceFault) :
    Keeps σ.course H (recover inBlock e) fun _ => True :=
  modify_keeps (fun _ => ⟨rfl, rfl, rfl⟩) fun s _ valid =>
    ⟨⟨(behindError_suffix inBlock 0 s.rest).trans valid.rest, valid.names, valid.symbols,
      valid.locals, valid.returns, valid.depth, valid.unit⟩, valid.recorded, valid.spelled⟩

/-! ### Declaration specifiers -/

theorem startsType_keeps (t : Token) : Keeps σ.course H (startsType t) fun _ => True := by
  unfold startsType
  split
  · exact .done
  · exact isTypedef_keeps t

theorem startsDeclaration_keeps (t : Token) :
    Keeps σ.course H (startsDeclaration t) fun _ => True := by
  unfold startsDeclaration
  split
  · exact .done
  · exact isTypedef_keeps t

theorem skipAttribute_keeps : Keeps σ.course H skipAttribute fun _ => True :=
  (expect_keeps _).skip fun _ => skipToClose_keeps _

theorem skipAttributes_keeps : Keeps σ.course H skipAttributes fun _ => True := by
  refine (Keeps.iterate (I := fun _ => True) (fun _ => ?_) ()).pre fun h => ⟨h, trivial⟩
  refine .skip (.or (eatKeyword_keeps _) (eatKeyword_keeps _)) fun _ => .ite (fun _ => ?_) fun _ => .done
  exact skipAttribute_keeps.skip fun _ => .done

/-- The type that specifiers refer to by name is one that was declared. -/
def Specifiers.Valid (s : Specifiers) : Prop := ∀ t ∈ s.named, t.Declared

theorem specifier_keeps (s : Specifiers) :
    Keeps σ.course (H ∧ Specifiers.Valid s) (specifier s) fun r => Specifiers.Valid r.value := by
  unfold specifier
  refine peek_keeps.skip fun t => ?_
  split
  · refine (find?_keeps _).bind fun b => ?_
    split
    · refine .ite (fun _ => next_keeps.skip fun _ => .pure ?_) fun _ => .pure ?_
      · rintro ⟨_, found⟩ t ⟨⟩
        exact found _ rfl
      · exact fun pre => pre.1.2
    · exact .pure fun pre => pre.1.2
  · split
    · exact .pure And.right
    · exact .throw
    · exact .guard fun _ => next_keeps.skip fun _ => .pure And.right
    · exact next_keeps.skip fun _ => skipAttribute_keeps.skip fun _ => .pure And.right
    · exact next_keeps.skip fun _ => .pure And.right
    · exact next_keeps.skip fun _ => .pure And.right
    · exact next_keeps.skip fun _ => .pure And.right
  · exact .pure And.right

theorem declared_combine? {ws : List TypeWord} {t : CType} (h : TypeWord.combine? ws = some t) :
    t.Declared := by
  simp only [TypeWord.combine?] at h
  repeat' split at h
  all_goals cases h <;> exact ⟨trivial, trivial⟩

theorem specifiedType_keeps (s : Specifiers) (start : Location) :
    Keeps σ.course (Specifiers.Valid s) (specifiedType s start) CType.Declared := by
  unfold specifiedType
  split
  case h_1 t named => exact .ite (fun _ => .pure fun pre => pre t named) fun _ => .throw
  case h_2 =>
    refine .ite (fun _ => (warn_keeps _ _).skip fun _ => ?_) fun _ => ?_ <;>
    · split
      case h_1 t words => exact .pure fun _ => declared_combine? words
      case h_2 => exact .throw

theorem declSpecifiers_keeps : Keeps σ.course H declSpecifiers fun spec => spec.ty.Declared := by
  unfold declSpecifiers
  refine loc_keeps.skip fun start => ?_
  refine .bind ((Keeps.iterate specifier_keeps {}).pre fun h => ⟨h, nofun⟩) fun s => ?_
  refine .ite (fun _ => peek_keeps.skip fun _ => .throw_bind) fun _ => ?_
  exact .bind ((specifiedType_keeps s start).pre And.right) fun t => .pure And.right

end Parser
end LiveC

import LiveC.Parser.Statement

/-!
Properties of parsers that hold of every production up to the level of statements, because they
hold of the elementary steps and of what is put together from parsers that have them.
-/

namespace LiveC

/-- The productions below the level of statements have a property. -/
structure Productions.Each (P : {α : Type} → Parser α → Prop) (g : Productions) : Prop where
  assignment : P g.assignment
  conditional : P g.conditional
  cast : P g.cast
  unary : P g.unary
  declarator (base : CType) (abstract : Bool) : P (g.declarator base abstract)
  suffixes (base : CType) : P (g.suffixes base)
  staticInit (ty : CType) (offset : Nat) : P (g.staticInit ty offset)
  localInit (ty : CType) (offset : Nat) : P (g.localInit ty offset)

theorem Productions.Each.mono {P Q : {α : Type} → Parser α → Prop} {g : Productions}
    (each : g.Each P) (le : ∀ {α : Type} {p : Parser α}, P p → Q p) : g.Each Q where
  assignment := le each.assignment
  conditional := le each.conditional
  cast := le each.cast
  unary := le each.unary
  declarator base abstract := le (each.declarator base abstract)
  suffixes base := le (each.suffixes base)
  staticInit ty offset := le (each.staticInit ty offset)
  localInit ty offset := le (each.localInit ty offset)

namespace Parser

/-- A property that the elementary steps of the grammar have, and what is put together from
parsers that have it. A look at the state is such a step where nothing is made of the scopes. -/
structure Closed (P : {α : Type} → Parser α → Prop) : Prop where
  pure {α : Type} (a : α) : P (Pure.pure a : Parser α)
  throw {α : Type} (e : SourceFault) : P (MonadExcept.throw e : Parser α)
  bind {α β : Type} {p : Parser α} {f : α → Parser β} : P p → (∀ a, P (f a)) → P (p >>= f)
  iterate {β : Type} {step : β → Parser (ForInStep β)} :
    (∀ b, P (step b)) → ∀ b, P (iterate step b)
  look {β : Type} {f : ParserState → Parser β} :
    (∀ s scopes, f { s with scopes } = f s) → (∀ s, P (f s)) → P (MonadState.get >>= f)
  next : P next
  skipToClose (e : SyntaxError) : P (skipToClose e)
  warn (loc : Location) (w : SemanticWarning) : P (warn loc w)
  typed {α : Type} (t : Typing α) : P (typed t)
  addString (bytes : List UInt8) : P (addString bytes)
  find? (name : String) : P (find? name)
  identifier (name : String) (loc : Location) : P (identifier name loc)
  nestedDeclarator {g : Productions} : (∀ p, P (expect p)) → (∀ base, P (g.suffixes base)) →
    (∀ base abstract, P (g.declarator base abstract)) →
      ∀ base abstract, P (nestedDeclarator g base abstract)

variable {P : {α : Type} → Parser α → Prop} {α β : Type} {g : Productions}

namespace Closed

theorem ite (_ : Closed P) {c : Prop} [Decidable c] {p q : Parser α} (hp : c → P p)
    (hq : ¬c → P q) : P (if c then p else q) := by
  split
  case isTrue hc => exact hp hc
  case isFalse hc => exact hq hc

theorem throw_bind (C : Closed P) {f : α → Parser β} (e : SourceFault) :
    P ((MonadExcept.throw e : Parser α) >>= f) := C.throw e

/-- What is behind a test that refuses. -/
theorem guard (C : Closed P) {c : Prop} [Decidable c] {loc : Location} {e : SemanticError}
    {k : Parser β} {f : α → Parser β} (h : ¬c → P k) :
    P (if c then refuse loc e >>= f else k) :=
  C.ite (fun _ => C.throw_bind _) h

theorem or (C : Closed P) {p q : Parser Bool} (hp : P p) (hq : P q) : P (p <||> q) := by
  refine C.bind hp fun first => ?_
  cases first with
  | true => exact C.pure true
  | false => exact hq

end Closed

variable (C : Closed P)
include C

/-! ### Tokens -/

theorem peek_closed : P peek := C.look (fun _ _ => rfl) fun _ => C.pure _

theorem peekSecond_closed : P peekSecond := C.look (fun _ _ => rfl) fun _ => C.pure _

theorem loc_closed : P loc := C.bind (peek_closed C) fun _ => C.pure _

theorem atEnd_closed : P atEnd := C.look (fun _ _ => rfl) fun _ => C.pure _

theorem check_closed (p : Punct) : P (check p) := C.bind (peek_closed C) fun _ => C.pure _

theorem eat_closed (p : Punct) : P (eat p) :=
  C.bind (check_closed C p) fun _ =>
    C.ite (fun _ => C.bind C.next fun _ => C.pure _) fun _ => C.pure _

theorem eatKeyword_closed (kw : Keyword) : P (eatKeyword kw) :=
  C.bind (peek_closed C) fun _ =>
    C.ite (fun _ => C.bind C.next fun _ => C.pure _) fun _ => C.pure _

theorem expect_closed (p : Punct) : P (expect p) :=
  C.bind (eat_closed C p) fun _ =>
    C.ite (fun _ => C.pure _) fun _ => C.bind (peek_closed C) fun _ => C.throw _

theorem peekPunct?_closed : P peekPunct? := by
  refine C.bind (peek_closed C) fun t => ?_
  split <;> exact C.pure _

/-! ### Typing steps and names -/

theorem isTypedef_closed (t : Token) : P (isTypedef t) := by
  unfold isTypedef
  split
  · exact C.bind (C.find? _) fun _ => C.pure _
  · exact C.pure _

theorem startsType_closed (t : Token) : P (startsType t) := by
  unfold startsType
  split
  · exact C.pure _
  · exact isTypedef_closed C t

theorem startsDeclaration_closed (t : Token) : P (startsDeclaration t) := by
  unfold startsDeclaration
  split
  · exact C.pure _
  · exact isTypedef_closed C t

/-! ### Declaration specifiers -/

theorem skipAttribute_closed : P skipAttribute :=
  C.bind (expect_closed C _) fun _ => C.skipToClose _

theorem skipAttributes_closed : P skipAttributes := by
  refine C.iterate (fun _ => ?_) ()
  refine C.bind (C.or (eatKeyword_closed C _) (eatKeyword_closed C _)) fun _ =>
    C.ite (fun _ => ?_) fun _ => C.pure _
  exact C.bind (skipAttribute_closed C) fun _ => C.pure _

theorem specifier_closed (s : Specifiers) : P (specifier s) := by
  unfold specifier
  refine C.bind (peek_closed C) fun t => ?_
  have passed (r : Specifiers) : P (do
      let _ ← next
      return ForInStep.yield r) := C.bind C.next fun _ => C.pure _
  split
  · refine C.bind (C.find? _) fun b => ?_
    split
    · exact C.ite (fun _ => passed _) fun _ => C.pure _
    · exact C.pure _
  · split
    · exact C.pure _
    · exact C.throw _
    · exact C.guard fun _ => passed _
    · exact C.bind C.next fun _ => C.bind (skipAttribute_closed C) fun _ => C.pure _
    · exact passed _
    · exact passed _
    · exact passed _
  · exact C.pure _

theorem specifiedType_closed (s : Specifiers) (start : Location) :
    P (specifiedType s start) := by
  unfold specifiedType
  split
  · exact C.ite (fun _ => C.pure _) fun _ => C.throw _
  · refine C.ite (fun _ => C.bind (C.warn _ _) fun _ => ?_) fun _ => ?_ <;>
    · split
      · exact C.pure _
      · exact C.throw _

theorem declSpecifiers_closed : P declSpecifiers := by
  refine C.bind (loc_closed C) fun start =>
    C.bind (C.iterate (specifier_closed C) {}) fun s => ?_
  refine C.ite (fun _ => C.bind (peek_closed C) fun _ => C.throw_bind _) fun _ => ?_
  exact C.bind (specifiedType_closed C s start) fun _ => C.pure _


/-! ### Expressions -/

theorem bounded_closed (e : Expr) : P (bounded e) := C.ite (fun _ => C.throw _) fun _ => C.pure _


theorem atTypeName_closed : P atTypeName :=
  C.bind (check_closed C _) fun _ => C.ite
    (fun _ => C.bind (peekSecond_closed C) fun t => startsType_closed C t) fun _ => C.pure _

theorem adjacentStrings_closed (bytes : List UInt8) : P (adjacentStrings bytes) := by
  refine C.iterate (fun _ => ?_) bytes
  refine C.bind (peek_closed C) fun t => ?_
  split
  · exact C.bind C.next fun _ => C.pure _
  · exact C.pure _

theorem pointerQualifiers_closed : P pointerQualifiers := by
  refine C.iterate (fun _ => ?_) ()
  have keyword := eatKeyword_closed C
  refine C.bind (C.or (keyword _) (C.or (keyword _) (C.or (keyword _) (keyword _)))) fun _ => ?_
  exact C.ite (fun _ => C.pure _) fun _ => C.pure _

theorem pointers_closed (base : CType) : P (pointers base) := by
  refine C.iterate (fun ty => ?_) base
  refine C.bind (eat_closed C _) fun _ => C.ite (fun _ => ?_) fun _ => C.pure _
  exact C.bind (pointerQualifiers_closed C) fun _ =>
    C.bind (skipAttributes_closed C) fun _ => C.pure _

theorem atNestedDeclarator_closed : P atNestedDeclarator := by
  refine C.bind (check_closed C _) fun _ =>
    C.ite (fun _ => C.bind (peekSecond_closed C) fun t => ?_) fun _ => C.pure _
  split
  · exact C.pure _
  · exact C.pure _
  · exact C.bind (isTypedef_closed C t) fun _ => C.pure _
  · exact C.pure _

theorem ofDeclarator_closed (d : Declarator) (loc : Location) :
    P (Param.ofDeclarator d loc) := by
  unfold Param.ofDeclarator
  dsimp only
  split
  case h_1 | h_2 | h_4 => exact C.pure _
  case h_3 => exact C.throw _

theorem peekIsString_closed : P peekIsString := C.bind (peek_closed C) fun _ => C.pure _

theorem stringForArray_closed (element : CType) : P (stringForArray element) := by
  refine C.bind (check_closed C _) fun _ => C.bind (peekSecond_closed C) fun _ =>
    C.bind (peekIsString_closed C) fun _ => ?_
  have behind (braced : Bool) : P (do
      let bytes ← adjacentStrings []
      if braced then expect .rbrace
      return some bytes) :=
    C.bind (adjacentStrings_closed C []) fun _ =>
      C.ite (fun _ => C.bind (expect_closed C _) fun _ => C.pure _) fun _ => C.pure _
  refine C.ite (fun _ => ?_) fun _ => C.pure _
  exact C.ite (fun _ => C.bind C.next fun _ => behind _) fun _ => behind _

theorem elements_closed {ι : Type} {element : Nat → Parser (List ι)} (h : ∀ i, P (element i))
    (length : Option Nat) : P (elements element length) := by
  refine C.iterate (fun r => ?_) (0, [])
  refine C.bind (check_closed C _) fun _ => C.ite (fun _ => C.pure _) fun _ => ?_
  refine C.ite (fun _ => C.bind (loc_closed C) fun _ => C.throw_bind _) fun _ => ?_
  exact C.bind (h r.1) fun _ => C.bind (eat_closed C _) fun _ =>
    C.ite (fun _ => C.pure _) fun _ => C.pure _

section Each

variable (each : g.Each P)
include each

theorem expression_closed : P (expression g) := by
  refine C.bind each.assignment fun e => C.iterate (fun l => ?_) e
  refine C.bind (check_closed C _) fun _ => C.ite (fun _ => ?_) fun _ => C.pure _
  refine C.bind C.next fun t => C.bind each.assignment fun r => ?_
  exact C.bind (bounded_closed C _) fun _ => C.pure _

theorem binary_closed (n : Nat) : P (binary g n) := by
  induction n with
  | zero => exact C.bind each.cast fun e => bounded_closed C e
  | succ n ih =>
      refine C.bind ih fun e => C.iterate (fun l => ?_) e
      refine C.bind (peekPunct?_closed C) fun p => ?_
      split
      case h_1 op _ =>
        refine C.ite (fun _ => ?_) fun _ => C.pure _
        refine C.bind C.next fun t => C.bind ih fun r => C.bind (C.typed _) fun e => ?_
        exact C.bind (bounded_closed C e) fun _ => C.pure _
      case h_2 => exact C.pure _

theorem conditional_closed : P (conditional g) := by
  refine C.bind (binary_closed C each _) fun c => C.bind (check_closed C _) fun _ =>
    C.ite (fun _ => ?_) fun _ => C.pure _
  refine C.bind C.next fun t => C.bind (expression_closed C each) fun yes => ?_
  exact C.bind (expect_closed C _) fun _ => C.bind each.conditional fun no => C.typed _

theorem assignment_closed : P (assignment g) := by
  refine C.bind (conditional_closed C each) fun target => C.bind (peekPunct?_closed C) fun p => ?_
  split
  case h_1 => exact C.pure _
  case h_2 op? _ =>
    refine C.bind C.next fun t => C.bind (C.typed _) fun _ => C.bind each.assignment fun value => ?_
    cases op? with
    | none => exact C.typed _
    | some op => exact C.typed _

theorem typeName_closed : P (typeName g) := by
  refine C.bind (loc_closed C) fun start => C.bind (declSpecifiers_closed C) fun spec => ?_
  refine C.guard fun _ => C.bind (each.declarator _ true) fun d => ?_
  split
  · exact C.throw _
  · exact C.pure _

theorem sizeofOperand_closed (loc : Location) : P (sizeofOperand g loc) := by
  refine C.bind (atTypeName_closed C) fun _ => C.ite (fun _ => ?_) fun _ => ?_
  · refine C.bind C.next fun _ => C.bind (typeName_closed C each) fun ty => ?_
    exact C.bind (expect_closed C _) fun _ => C.typed _
  · exact C.bind each.unary fun e => C.typed _

theorem arguments_closed : P (arguments g) := by
  refine C.bind (eat_closed C _) fun _ => C.ite (fun _ => C.pure _) fun _ =>
    C.iterate (fun args => ?_) []
  refine C.bind (loc_closed C) fun loc => C.bind each.assignment fun e =>
    C.bind (eat_closed C _) fun _ => ?_
  exact C.ite (fun _ => C.pure _) fun _ => C.bind (expect_closed C _) fun _ => C.pure _

theorem call_closed (callee : Expr) (loc : Location) : P (call g callee loc) :=
  C.bind (C.typed _) fun _ => C.bind (arguments_closed C each) fun _ => C.typed _

theorem primary_closed : P (primary g) := by
  refine C.bind C.next fun t => ?_
  dsimp only
  split
  case h_1 => exact C.ite (fun _ => C.bind (C.warn _ _) fun _ => C.pure _) fun _ => C.pure _
  case h_2 | h_3 => exact C.pure _
  case h_4 =>
    exact C.bind (adjacentStrings_closed C _) fun _ => C.bind (C.addString _) fun _ => C.pure _
  case h_5 =>
    exact C.bind (expression_closed C each) fun e => C.bind (expect_closed C _) fun _ => C.pure _
  case h_6 => exact C.identifier _ _
  case h_7 => exact C.throw _

theorem postfixed_closed : P (postfixed g) := by
  refine C.bind (primary_closed C each) fun e => C.iterate (fun e => ?_) e
  refine C.bind (peek_closed C) fun t => ?_
  split
  case h_1 =>
    refine C.bind C.next fun _ => C.bind (expression_closed C each) fun index => ?_
    exact C.bind (expect_closed C _) fun _ => C.bind (C.typed _) fun _ => C.pure _
  case h_2 => exact C.bind C.next fun _ => C.bind (call_closed C each _ _) fun _ => C.pure _
  case h_3 | h_4 => exact C.bind C.next fun _ => C.bind (C.typed _) fun _ => C.pure _
  case h_5 | h_6 => exact C.throw _
  case h_7 => exact C.pure _

theorem unary_closed : P (unary g) := by
  refine C.bind (peek_closed C) fun t => ?_
  have operator {operand : Parser Expr} (f : Expr → Location → Typing Expr) (h : P operand) :
      P (do
        let _ ← next
        typed (f (← operand) t.loc)) :=
    C.bind C.next fun _ => C.bind h fun _ => C.typed _
  dsimp only
  split
  case h_1 => exact C.bind C.next fun _ => sizeofOperand_closed C each t.loc
  case h_2 | h_3 => exact operator _ each.unary
  case h_4 | h_5 | h_6 | h_7 | h_8 | h_9 => exact operator _ each.cast
  case h_10 => exact postfixed_closed C each

theorem cast_closed : P (cast g) := by
  refine C.bind (atTypeName_closed C) fun _ => C.ite (fun _ => ?_) fun _ => unary_closed C each
  refine C.bind C.next fun _ => C.bind (typeName_closed C each) fun ty => ?_
  exact C.bind (expect_closed C _) fun _ => C.bind each.cast fun e => C.typed _

/-! ### Declarators -/

theorem parameter_closed (l : ParamList) : P (parameter g l) := by
  refine C.bind (eat_closed C _) fun _ => C.ite (fun _ => ?_) fun _ => ?_
  · exact C.bind (expect_closed C _) fun _ => C.pure _
  · refine C.bind (peek_closed C) fun t => C.bind (startsType_closed C t) fun _ =>
      C.ite (fun _ => ?_) fun _ => C.throw_bind _
    refine C.bind (declSpecifiers_closed C) fun spec => C.bind (each.declarator _ true) fun d => ?_
    refine C.bind (ofDeclarator_closed C d t.loc) fun p => C.bind (eat_closed C _) fun _ => ?_
    exact C.ite (fun _ => C.pure _) fun _ => C.bind (expect_closed C _) fun _ => C.pure _

theorem parameterList_closed : P (parameterList g) := by
  refine C.bind (eat_closed C _) fun _ => C.ite (fun _ => C.pure _) fun _ => ?_
  refine C.bind (peek_closed C) fun _ => C.bind (peekSecond_closed C) fun _ => C.ite (fun _ => ?_)
    fun _ => C.iterate (parameter_closed C each) {}
  exact C.bind C.next fun _ => C.bind C.next fun _ => C.pure _

theorem arrayLength_closed (loc : Location) : P (arrayLength g loc) := by
  refine C.bind (eat_closed C _) fun _ => C.ite (fun _ => C.pure _) fun _ => ?_
  refine C.bind (conditional_closed C each) fun e => C.bind (C.typed _) fun length => ?_
  exact C.bind (expect_closed C _) fun _ => C.guard fun _ => C.pure _

theorem suffixes_closed (base : CType) : P (suffixes g base) := by
  refine C.bind (loc_closed C) fun loc => C.bind (eat_closed C _) fun _ =>
    C.ite (fun _ => ?_) fun _ => ?_
  · refine C.bind (arrayLength_closed C each loc) fun length =>
      C.bind (each.suffixes base) fun r => ?_
    exact C.guard fun _ => C.guard fun _ => C.pure _
  · refine C.bind (eat_closed C _) fun _ => C.ite (fun _ => ?_) fun _ => C.pure _
    refine C.bind (parameterList_closed C each) fun l => C.bind (each.suffixes base) fun r => ?_
    exact C.guard fun _ => C.pure _

theorem declarator_closed (base : CType) (abstract : Bool) : P (declarator g base abstract) := by
  refine C.bind (pointers_closed C base) fun ty => C.bind (skipAttributes_closed C) fun _ => ?_
  refine C.bind (atNestedDeclarator_closed C) fun _ => C.ite
    (fun _ => C.nestedDeclarator (expect_closed C) each.suffixes each.declarator ty abstract)
    fun _ => C.bind (peek_closed C) fun t => ?_
  have behind (name : Option (String × Location)) : P (do
      let read ← g.suffixes ty
      return (⟨name, read.1, read.2⟩ : Declarator)) := C.bind (each.suffixes ty) fun _ => C.pure _
  dsimp only
  split
  · exact C.bind C.next fun _ => behind _
  · exact C.ite (fun _ => behind _) fun _ => C.throw_bind _

/-! ### Initialisers -/

theorem initializer_closed {ι : Type} {form : InitForm ι}
    {nested : CType → Nat → Parser (CType × List ι)} (inner : ∀ ty offset, P (nested ty offset))
    (ty : CType) (offset : Nat) : P (initializer g form nested ty offset) := by
  unfold initializer
  refine C.bind (loc_closed C) fun loc => ?_
  split
  case h_1 element length =>
    refine C.bind (stringForArray_closed C element) fun bytes => ?_
    split
    case h_1 => exact C.pure _
    case h_2 =>
      refine C.bind (eat_closed C _) fun _ => C.ite (fun _ => ?_) fun _ => C.throw_bind _
      refine C.bind (elements_closed C (fun i => C.bind (inner _ _) fun _ => C.pure _) length)
        fun r => ?_
      exact C.bind (expect_closed C _) fun _ => C.pure _
  case h_2 =>
    refine C.bind (eat_closed C _) fun _ => C.bind each.assignment fun e =>
      C.ite (fun _ => ?_) fun _ => C.bind (C.typed _) fun _ => C.pure _
    exact C.bind (eat_closed C _) fun _ => C.bind (expect_closed C _) fun _ =>
      C.bind (C.typed _) fun _ => C.pure _

end Each

/-! ### Levels of nesting -/

theorem refused_each : Productions.refused.Each P where
  assignment := C.bind (loc_closed C) fun _ => C.throw _
  conditional := C.bind (loc_closed C) fun _ => C.throw _
  cast := C.bind (loc_closed C) fun _ => C.throw _
  unary := C.bind (loc_closed C) fun _ => C.throw _
  declarator _ _ := C.bind (loc_closed C) fun _ => C.throw _
  suffixes _ := C.bind (loc_closed C) fun _ => C.throw _
  staticInit _ _ := C.bind (loc_closed C) fun _ => C.throw _
  localInit _ _ := C.bind (loc_closed C) fun _ => C.throw _

theorem productions_each (n : Nat) : (productions n).Each P := by
  induction n with
  | zero => exact refused_each C
  | succ n ih =>
      exact {
        assignment := assignment_closed C ih
        conditional := conditional_closed C ih
        cast := cast_closed C ih
        unary := unary_closed C ih
        declarator := declarator_closed C ih
        suffixes := suffixes_closed C ih
        staticInit := initializer_closed C ih ih.staticInit
        localInit := initializer_closed C ih ih.localInit }

end Parser

/-!
### Statements

What stands in a block may have a weaker property than a statement, which is restored where the
block is left.
-/

/-- The productions have a property, and their declarations in blocks have another. -/
structure Productions.Blocks (P Q : {α : Type} → Parser α → Prop) (g : Productions) : Prop where
  each : g.Each P
  declares (spec : DeclSpec) : Q (Parser.blockDeclarator g spec)
  statement : P g.statement

namespace Parser

/-- A property of statements and one of what stands in a block. -/
structure ClosedBlocks (P Q : {α : Type} → Parser α → Prop) : Prop where
  statements : Closed P
  items : Closed Q
  weaken {α : Type} {p : Parser α} : P p → Q p
  tryCatch {α : Type} {p : Parser α} {handler : SourceFault → Parser α} :
    Q p → (∀ e, Q (handler e)) → Q (tryCatch p handler)
  recover (e : SourceFault) : Q (recover true e)
  inBlock {α : Type} {p : Parser α} : Q p → P (inBlock p)
  loopBody {g : Productions} : P g.statement → P (loopBody g)

variable {P Q : {α : Type} → Parser α → Prop} {g : Productions}

/-- One more declarator in a block. -/
def blockDeclaratorStep (g : Productions) (spec : DeclSpec) (stmts : List Stmt) :
    Parser (ForInStep (List Stmt)) := do
  let stmts := stmts ++ (← blockDeclarator g spec)
  if ← eat .comma then return .yield stmts
  else
    expect .semicolon
    return .done stmts

/-- An item of a block. -/
def item (g : Productions) : Parser (List Stmt) := do
  if ← startsDeclaration (← peek) then blockDeclaration g else return [← g.statement]

/-- One more item of a block. -/
def blockStep (g : Productions) (stmts : List Stmt) : Parser (ForInStep (List Stmt)) := do
  if ← check .rbrace then return .done stmts
  else
    if ← atEnd then fail (← loc) .expectedBraceAtEnd
    return .yield (stmts ++ (← blockItem g))

section Items

variable (B : ClosedBlocks P Q) (blocks : g.Blocks P Q)
include B blocks

theorem blockDeclaratorStep_closed (spec : DeclSpec) (stmts : List Stmt) :
    Q (blockDeclaratorStep g spec stmts) :=
  have C := B.items
  C.bind (blocks.declares spec) fun _ => C.bind (eat_closed C _) fun _ =>
    C.ite (fun _ => C.pure _) fun _ => C.bind (expect_closed C _) fun _ => C.pure _

theorem blockDeclaration_closed : Q (blockDeclaration g) :=
  have C := B.items
  C.bind (declSpecifiers_closed C) fun spec => C.bind (eat_closed C _) fun _ =>
    C.ite (fun _ => C.pure _) fun _ => C.iterate (blockDeclaratorStep_closed B blocks spec) []

theorem item_closed : Q (item g) := by
  have C := B.items
  refine C.bind (peek_closed C) fun t => C.bind (startsDeclaration_closed C t) fun _ => ?_
  exact C.ite (fun _ => blockDeclaration_closed B blocks) fun _ =>
    C.bind (B.weaken blocks.statement) fun _ => C.pure _

theorem blockItem_closed : Q (blockItem g) :=
  have C := B.items
  show Q (tryCatch (item g) _) from
    B.tryCatch (item_closed B blocks) fun e => C.bind (B.recover e) fun _ => C.pure _

theorem blockStep_closed (stmts : List Stmt) : Q (blockStep g stmts) := by
  have C := B.items
  refine C.bind (check_closed C _) fun _ => C.ite (fun _ => C.pure _) fun _ => ?_
  refine C.bind (atEnd_closed C) fun _ =>
    C.ite (fun _ => C.bind (loc_closed C) fun _ => C.throw_bind _) fun _ => ?_
  exact C.bind (blockItem_closed B blocks) fun _ => C.pure _

theorem blockItems_closed : Q (blockItems g) :=
  have C := B.items
  C.bind (C.iterate (blockStep_closed B blocks) []) fun _ =>
    C.bind (expect_closed C _) fun _ => C.pure _

theorem forStatement_closed : Q (forStatement g) := by
  have C := B.items
  have expression : Q (expression g) := B.weaken (expression_closed B.statements blocks.each)
  have loopBody : Q (loopBody g) := B.weaken (B.loopBody blocks.statement)
  -- What is behind each of the three clauses, the last one first.
  have body (start : Option Stmt) (c step : Option Expr) : Q (do
      expect .rparen
      return Stmt.for start c step (← Parser.loopBody g)) :=
    C.bind (expect_closed C _) fun _ => C.bind loopBody fun _ => C.pure _
  have step (start : Option Stmt) (c : Option Expr) : Q (do
      expect .semicolon
      let step ← if ← check .rparen then pure none else some <$> Parser.expression g
      expect .rparen
      return Stmt.for start c step (← Parser.loopBody g)) := by
    refine C.bind (expect_closed C _) fun _ => C.bind (check_closed C _) fun _ =>
      C.ite (fun _ => body start c none) fun _ => ?_
    exact C.bind (C.bind expression fun _ => C.pure _) fun _ => body _ _ _
  have condition (start : Option Stmt) : Q (do
      let c ← if ← check .semicolon then pure none
        else some <$> typed (← Parser.expression g).condition
      expect .semicolon
      let step ← if ← check .rparen then pure none else some <$> Parser.expression g
      expect .rparen
      return Stmt.for start c step (← Parser.loopBody g)) := by
    refine C.bind (check_closed C _) fun _ => C.ite (fun _ => step start none) fun _ => ?_
    refine C.bind expression fun e => ?_
    exact C.bind (C.bind (C.typed _) fun _ => C.pure _) fun _ => step _ _
  refine C.bind (expect_closed C _) fun _ => C.bind (eat_closed C _) fun _ =>
    C.bind (peek_closed C) fun t => C.bind (startsDeclaration_closed C t) fun _ =>
    C.ite (fun _ => condition none) fun _ => C.ite (fun _ => ?_) fun _ => ?_
  · exact C.bind (blockDeclaration_closed B blocks) fun _ => condition _
  · exact C.bind expression fun e => C.bind (expect_closed C _) fun _ => condition _

end Items

/-! ### Statements -/

section Statements

variable (C : Closed P)
include C

theorem controlling_closed (each : g.Each P) : P (controlling g) := by
  refine C.bind (expect_closed C _) fun _ => C.bind (expression_closed C each) fun e => ?_
  exact C.bind (C.typed _) fun c => C.bind (expect_closed C _) fun _ => C.pure _

theorem loopJump_closed (kw : Keyword) (s : Stmt) (loc : Location) : P (loopJump kw s loc) :=
  C.bind C.next fun _ => C.look (fun _ _ => rfl) fun _ => C.guard fun _ =>
    C.bind (expect_closed C _) fun _ => C.pure _

theorem returnStatement_closed (each : g.Each P) (loc : Location) :
    P (returnStatement g loc) := by
  have warned (w : SemanticWarning) (s : Stmt) : P (do
      warn loc w
      return s) := C.bind (C.warn _ _) fun _ => C.pure _
  refine C.look (fun _ _ => rfl) fun s => ?_
  dsimp only
  refine C.bind (eat_closed C _) fun _ => C.ite (fun _ => ?_) fun _ => ?_
  · exact C.ite (fun _ => warned _ _) fun _ => C.pure _
  · refine C.bind (expression_closed C each) fun e => C.bind (expect_closed C _) fun _ =>
      C.ite (fun _ => ?_) fun _ => C.bind (C.typed _) fun _ => C.pure _
    exact C.ite (fun _ => warned _ _) fun _ => C.pure _

end Statements

section

variable (B : ClosedBlocks P Q)
include B

theorem statement_closed (blocks : g.Blocks P Q) : P (statement g) := by
  have C := B.statements
  have each := blocks.each
  refine C.bind (peek_closed C) fun t => ?_
  dsimp only
  split
  case h_1 =>
    refine C.bind C.next fun _ => C.bind (controlling_closed C each) fun c =>
      C.bind blocks.statement fun _ => C.bind (eatKeyword_closed C _) fun _ =>
      C.ite (fun _ => ?_) fun _ => C.pure _
    exact C.bind (C.bind blocks.statement fun _ => C.pure _) fun _ => C.pure _
  case h_2 =>
    exact C.bind C.next fun _ => C.bind (controlling_closed C each) fun c =>
      C.bind (B.loopBody blocks.statement) fun _ => C.pure _
  case h_3 =>
    refine C.bind C.next fun _ => C.bind (B.loopBody blocks.statement) fun body =>
      C.bind (eatKeyword_closed C _) fun _ => C.ite (fun _ => ?_) fun _ =>
      C.bind (peek_closed C) fun _ => C.throw_bind _
    exact C.bind (controlling_closed C each) fun c => C.bind (expect_closed C _) fun _ => C.pure _
  case h_4 => exact C.bind C.next fun _ => B.inBlock (forStatement_closed B blocks)
  case h_5 | h_6 => exact loopJump_closed C _ _ _
  case h_7 => exact C.bind C.next fun _ => returnStatement_closed C each _
  case h_8 | h_9 | h_10 | h_11 => exact C.throw _
  case h_12 =>
    exact C.bind C.next fun _ => C.bind (B.inBlock (blockItems_closed B blocks)) fun _ => C.pure _
  case h_13 => exact C.bind C.next fun _ => C.pure _
  case h_14 =>
    exact C.bind (expression_closed C each) fun e => C.bind (expect_closed C _) fun _ => C.pure _

/-- Statements have the property at each level of nesting. -/
theorem productions_blocks
    (declares : ∀ n, (productions n).Each P → ∀ spec, Q (blockDeclarator (productions n) spec))
    (n : Nat) : (productions n).Blocks P Q := by
  have each (n : Nat) : (productions n).Each P := productions_each B.statements n
  refine ⟨each n, declares n (each n), ?_⟩
  induction n with
  | zero => exact B.statements.bind (loc_closed B.statements) fun _ => B.statements.throw _
  | succ n ih => exact statement_closed B ⟨each n, declares n (each n), ih⟩

end

end Parser
end LiveC

import LiveC.Parser.Initializer

/-!
Statements and the declarations among them.
-/

namespace LiveC.Parser

/-! ### Declarations in blocks -/

/-- Declares a static local variable: a symbol of the unit under a name of its own. -/
def staticLocal (g : Productions) (spec : DeclSpec) (name : String) (ty : CType)
    (loc : Location) : Parser Unit := do
  let s ← get
  let owner := (s.current.map Prod.fst).getD ""
  let number := s.staticLocals + 1
  set { s with staticLocals := number }
  let symbol := s!"{owner}.{name}.{number}"
  let (ty, init) ←
    if ← eat .assign then
      let (ty, items) ← g.staticInit ty 0
      pure (ty, some items)
    else pure (ty, none)
  if !ty.isComplete then refuse loc (.unknownSize name)
  setSymbol symbol ⟨ty, true, true⟩
  let object : GlobalVar := ⟨symbol, ty, true, spec.isConst && !ty.isPointer, init, loc⟩
  modify fun s => { s with unit := { s.unit with globals := s.unit.globals ++ [object] } }
  bind name (.global symbol)

/-- Declares a local variable. It is in scope behind its initialiser. -/
def localVariable (g : Productions) (name : String) (ty : CType) (loc : Location) :
    Parser (List Stmt) := do
  if ty.isVoid then refuse loc (.voidVariable name)
  let id := (← get).locals.length
  let (ty, stmts) ←
    if ← eat .assign then
      let (ty, stores) ← g.localInit ty 0
      pure (ty, [Stmt.init id ty.isArray stores])
    else pure (ty, [])
  if !ty.isComplete then refuse loc (.unknownSize name)
  modify fun s => { s with locals := s.locals ++ [⟨name, ty⟩] }
  bind name (.local id)
  return stmts

/-- Declares one name in a block. -/
def blockDeclarator (g : Productions) (spec : DeclSpec) : Parser (List Stmt) := do
  let d ← g.declarator spec.ty false
  skipAttributes
  match d.name with
  | none => fail (← loc) (.expectedIdentifier (← peek).kind)
  | some (name, loc) =>
    if spec.storage = some .typedef then
      bind name (.typedef d.ty)
      return []
    else if d.ty.isFunction then
      declareFunction name d.ty false loc
      bind name (.global name)
      return []
    else match spec.storage with
      | some .external =>
        if (← findSymbol? name).isNone then setSymbol name ⟨d.ty, false, false⟩
        bind name (.global name)
        return []
      | some .static =>
        staticLocal g spec name d.ty loc
        return []
      | _ => localVariable g name d.ty loc

/-- A declaration in a block, and the statements that initialise its variables. -/
def blockDeclaration (g : Productions) : Parser (List Stmt) := do
  let spec ← declSpecifiers
  if ← eat .semicolon then return []
  else iterate (fun stmts => do
    let stmts := stmts ++ (← blockDeclarator g spec)
    if ← eat .comma then return .yield stmts
    else
      expect .semicolon
      return .done stmts) []

/-! ### Statements -/

/-- One declaration or statement of a block. An error in it is recorded and skipped. -/
def blockItem (g : Productions) : Parser (List Stmt) := do
  let t ← peek
  let item : Parser (List Stmt) := do
    if ← startsDeclaration t then blockDeclaration g else return [← g.statement]
  tryCatch item fun e => do
    recover true e
    return []

/-- The items of a block up to its closing brace. -/
def blockItems (g : Productions) : Parser (List Stmt) := do
  let stmts ← iterate (fun stmts => do
    if ← check .rbrace then return .done stmts
    else
      if ← atEnd then fail (← loc) .expectedBraceAtEnd
      return .yield (stmts ++ (← blockItem g))) []
  expect .rbrace
  return stmts

/-- A parenthesised controlling expression. -/
def controlling (g : Productions) : Parser Expr := do
  expect .lparen
  let c ← typed (← expression g).condition
  expect .rparen
  return c

def loopBody (g : Productions) : Parser Stmt :=
  between (fun s => { s with loopDepth := s.loopDepth + 1 })
    (fun s => { s with loopDepth := s.loopDepth - 1 }) g.statement

/-- A `for` statement behind its keyword. -/
def forStatement (g : Productions) : Parser Stmt := do
  expect .lparen
  let start ←
    if ← eat .semicolon then pure none
    else if ← startsDeclaration (← peek) then pure (some (Stmt.block (← blockDeclaration g)))
    else
      let e ← expression g
      expect .semicolon
      pure (some (Stmt.expr e))
  let c ← if ← check .semicolon then pure none else some <$> typed (← expression g).condition
  expect .semicolon
  let step ← if ← check .rparen then pure none else some <$> expression g
  expect .rparen
  return .for start c step (← loopBody g)

/-- A jump out of a loop or to its next round. -/
def loopJump (kw : Keyword) (stmt : Stmt) (loc : Location) : Parser Stmt := do
  let _ ← next
  if (← get).loopDepth = 0 then refuse loc (.notInLoop kw)
  expect .semicolon
  return stmt

/-- A `return` statement behind its keyword. -/
def returnStatement (g : Productions) (loc : Location) : Parser Stmt := do
  let ret := ((← get).current.map Prod.snd).getD (.int .int)
  if ← eat .semicolon then
    if !ret.isVoid then warn loc .missingReturnValue
    return .return none
  else
    let value ← expression g
    expect .semicolon
    if ret.isVoid then
      if !value.ty.isVoid then warn loc .unexpectedReturnValue
      return .return (some value)
    else return .return (some (← typed (value.assignConvert ret loc)))

def statement (g : Productions) : Parser Stmt := do
  let t ← peek
  let loc := t.loc
  match t.kind with
  | .keyword .ifKw =>
    let _ ← next
    let c ← controlling g
    let yes ← g.statement
    let no ← if ← eatKeyword .elseKw then some <$> g.statement else pure none
    return .ite c yes no
  | .keyword .whileKw =>
    let _ ← next
    let c ← controlling g
    return .while c (← loopBody g)
  | .keyword .doKw =>
    let _ ← next
    let body ← loopBody g
    unless ← eatKeyword .whileKw do
      let t ← peek
      fail t.loc (.expectedWhile t.kind)
    let c ← controlling g
    expect .semicolon
    return .doWhile body c
  | .keyword .forKw =>
    let _ ← next
    inBlock (forStatement g)
  | .keyword .breakKw => loopJump .breakKw .break loc
  | .keyword .continueKw => loopJump .continueKw .continue loc
  | .keyword .returnKw =>
    let _ ← next
    returnStatement g loc
  | .keyword .switchKw => refuse loc (.unsupportedStatement .switchKw)
  | .keyword .gotoKw => refuse loc (.unsupportedStatement .gotoKw)
  | .keyword .caseKw => refuse loc (.unsupportedStatement .caseKw)
  | .keyword .defaultKw => refuse loc (.unsupportedStatement .defaultKw)
  | .punct .lbrace =>
    let _ ← next
    return .block (← inBlock (blockItems g))
  | .punct .semicolon =>
    let _ ← next
    return .empty
  | _ =>
    let e ← expression g
    expect .semicolon
    return .expr e

/-! ### Levels of nesting -/

/-- The productions with a number of levels of nesting left. -/
def productions : Nat → Productions
  | 0 => .refused
  | n + 1 =>
    let g := productions n
    { assignment := assignment g
      conditional := conditional g
      cast := cast g
      unary := unary g
      declarator := declarator g
      suffixes := suffixes g
      staticInit := initializer g .static g.staticInit
      localInit := initializer g .automatic g.localInit
      statement := statement g }

end LiveC.Parser

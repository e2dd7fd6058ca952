import LiveC.Parser.Statement

/-!
Declarations and function definitions at file scope, and the parser of a whole source.
-/

namespace LiveC

/-- How deep productions may nest. -/
def maxNesting : Nat := 128

namespace Parser

/-- Declares a variable at file scope and reads its initialiser. -/
def fileVariable (g : Productions) (spec : DeclSpec) (name : String) (ty : CType)
    (loc : Location) : Parser Unit := do
  if ty.isVoid then refuse loc (.voidVariable name)
  let old ← findSymbol? name
  if old.any (·.ty.isFunction) then refuse loc (.differentKind name)
  if spec.storage == some .external && !(← check .assign) then
    if old.isNone then setSymbol name ⟨ty, false, false⟩
  else
    let (ty, init) ←
      if ← eat .assign then
        let (ty, items) ← g.staticInit ty 0
        pure (ty, some items)
      else pure (ty, none)
    if !ty.isComplete then refuse loc (.unknownSize name)
    let defined := old.any (·.defined)
    let initialized := (← get).unit.globals.any fun v => v.name == name && v.init.isSome
    if defined && init.isSome && initialized then refuse loc (.redefinition name)
    /- A further definition without an initialiser changes nothing. -/
    if !(defined && init.isNone) then
      let isStatic := spec.storage == some .static || old.any (·.isStatic)
      let object : GlobalVar := ⟨name, ty, isStatic, spec.isConst && !ty.isPointer, init, loc⟩
      setSymbol name ⟨ty, true, isStatic⟩
      modify fun s =>
        let others := if defined then s.unit.globals.filter (·.name != name) else s.unit.globals
        { s with unit := { s.unit with globals := others ++ [object] } }
  bindFile name (.global name)

/-- Declares one name at file scope. -/
def fileDeclaration (g : Productions) (spec : DeclSpec) (d : Declarator) : Parser Unit := do
  match d.name with
  | none => fail (← loc) (.expectedIdentifier (← peek).kind)
  | some (name, loc) =>
    if spec.storage = some .typedef then bindFile name (.typedef d.ty)
    else if d.ty.isFunction then
      declareFunction name d.ty (spec.storage == some .static) loc
      bindFile name (.global name)
    else fileVariable g spec name d.ty loc

/-- Makes the parameters the first locals of a function. -/
def bindParameters : List Param → Parser Unit
  | [] => return
  | p :: ps => do
    match p.name with
    | none => refuse p.loc .unnamedParameter
    | some name =>
      let id := (← get).locals.length
      modify fun s => { s with locals := s.locals ++ [⟨name, p.ty⟩] }
      bind name (.local id)
      bindParameters ps

/-- A function definition behind its declarator. -/
def functionDefinition (g : Productions) (spec : DeclSpec) (d : Declarator)
    (signature : Signature) : Parser Unit := do
  match d.name with
  | none => fail (← loc) (.expectedIdentifier (← peek).kind)
  | some (name, loc) =>
    if spec.storage = some .typedef then fail loc .typedefFunction
    if signature.variadic then refuse loc (.variadicDefinition name)
    let params := d.params.getD []
    if !Expr.fitsRegisters (params.map Param.ty) then refuse loc (.tooManyParameters name)
    if (← findSymbol? name).any (·.defined) then refuse loc (.redefinition name)
    let isStatic := spec.storage == some .static
    declareFunction name d.ty isStatic loc
    let isStatic := isStatic || (← findSymbol? name).any (·.isStatic)
    setSymbol name ⟨d.ty, true, isStatic⟩
    bindFile name (.global name)
    modify fun s =>
      { s with locals := [], current := some (name, signature.ret), scopes := s.scopes.openBlock }
    bindParameters params
    expect .lbrace
    let body ← blockItems g
    modify fun s =>
      { s with
        scopes := s.scopes.closeBlock
        current := none
        locals := []
        unit := { s.unit with
          functions := s.unit.functions ++ [⟨name, signature, s.locals, body, isStatic, loc⟩] } }

/-- A declaration at file scope or a function definition. Only the first declarator can
have a body. -/
def externalDeclaration (g : Productions) : Parser Unit := do
  if ← eat .semicolon then return
  let spec ← declSpecifiers
  if ← eat .semicolon then return
  let _ ← iterate (fun first => do
    let d ← g.declarator spec.ty false
    skipAttributes
    let body ← check .lbrace
    match d.ty.signature? with
    | some signature =>
      if first && body then
        functionDefinition g spec d signature
        return .done false
    | none => pure ()
    fileDeclaration g spec d
    if ← eat .comma then return .yield false
    else
      expect .semicolon
      return .done false) true

/-- Leaves the function and the blocks that an error is in. -/
def leaveFunction : Parser Unit :=
  modify fun s =>
    { s with scopes := s.scopes.closeAll, locals := [], current := none, loopDepth := 0 }

/-- All declarations of a source. An error in one is recorded and skipped. -/
def translationUnit (g : Productions) : Parser Unit :=
  iterate (fun () => do
    if ← atEnd then return .done ()
    else
      tryCatch (externalDeclaration g) fun e => do
        leaveFunction
        recover false e
      return .yield ()) ()

end Parser

/-- A parsed source with its warnings. -/
structure Parsed where
  unit : TranslationUnit
  warnings : List SemanticNotice

/-- Parses a token list, of which the end of input is the last. -/
def parseTokens (tokens : List Token) : Except (List SourceFault) Parsed :=
  let rest := tokens.takeWhile (·.kind != .eof)
  let endLoc := ((tokens.find? (·.kind == .eof)).map Token.loc).getD
    ((rest.getLast?.map Token.loc).getD .start)
  let g := Parser.productions maxNesting
  let s := match Parser.translationUnit g { rest, endLoc } with
    | .ok _ s => s
    | .error e s => { s with errors := s.errors ++ [e] }
  if s.errors.isEmpty then .ok ⟨s.unit, s.warnings⟩ else .error s.errors

end LiveC

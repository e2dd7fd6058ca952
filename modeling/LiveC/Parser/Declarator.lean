import LiveC.Parser.Expression

/-!
Declarators, read inside out: a parenthesised declarator is skipped at first, the suffixes
behind it are applied to the base type, and the skipped part to the outcome.
-/

namespace LiveC.Parser

/-- Qualifiers and attributes behind a star. -/
def pointerQualifiers : Parser Unit :=
  iterate (fun () => do
    if ← eatKeyword .constKw <||> eatKeyword .volatileKw <||> eatKeyword .restrictKw
        <||> eatKeyword .restrictGnuKw then
      return .yield ()
    else return .done ()) ()

/-- Applies the stars in front of a declarator. -/
def pointers (base : CType) : Parser CType :=
  iterate (fun ty => do
    if ← eat .star then
      pointerQualifiers
      skipAttributes
      return .yield (.pointer ty)
    else return .done ty) base

/-- Whether the parenthesis at the front opens a declarator, and not a parameter list. -/
def atNestedDeclarator : Parser Bool := do
  if ← check .lparen then
    let t ← peekSecond
    match t.kind with
    | .punct .star | .punct .lparen => return true
    | .ident _ => return !(← isTypedef t)
    | _ => return false
  else return false

/-- The parameter that a declarator and its type declare: arrays and functions become
pointers. -/
def Param.ofDeclarator (d : Declarator) (loc : Location) : Parser Param :=
  let name := d.name.map Prod.fst
  match d.ty with
  | .array element _ => return ⟨name, .pointer element, loc⟩
  | .function .. => return ⟨name, .pointer d.ty, loc⟩
  | .void => refuse loc .voidParameter
  | ty => return ⟨name, ty, loc⟩

/-- What a parameter list says. -/
structure ParamList where
  params : List Param := []
  variadic : Bool := false
  unspecified : Bool := false

/-- Reads one parameter or the ellipsis. -/
def parameter (g : Productions) (l : ParamList) : Parser (ForInStep ParamList) := do
  if ← eat .ellipsis then
    expect .rparen
    return .done { l with variadic := true }
  else
    let t ← peek
    unless ← startsType t do
      fail t.loc (.expectedParameter t.kind)
    let spec ← declSpecifiers
    let d ← g.declarator spec.ty true
    let l := { l with params := l.params ++ [← Param.ofDeclarator d t.loc] }
    if ← eat .comma then return .yield l
    else
      expect .rparen
      return .done l

/-- Reads a parameter list behind its opening parenthesis. -/
def parameterList (g : Productions) : Parser ParamList := do
  if ← eat .rparen then return { unspecified := true }
  else if (← peek).kind == .keyword .voidKw && (← peekSecond).kind == .punct .rparen then
    let _ ← next
    let _ ← next
    return {}
  else iterate (parameter g) {}

/-- The length of an array behind its opening bracket; none if it is left open. -/
def arrayLength (g : Productions) (loc : Location) : Parser (Option Nat) := do
  if ← eat .rbracket then return none
  else
    let length ← typed ((← conditional g).constantInt)
    expect .rbracket
    if length.toInt ≤ 0 then refuse loc .arraySizeNotPositive
    return some length.toNat

/-- Array and function suffixes, applied to a base type from the right. -/
def suffixes (g : Productions) (base : CType) : Parser (CType × Option (List Param)) := do
  let loc ← loc
  if ← eat .lbracket then
    let length ← arrayLength g loc
    let (element, _) ← g.suffixes base
    if !element.isComplete then refuse loc .incompleteElement
    let ty : CType := .array element length
    if ty.checkedSize.all (· > CType.maxObjectSize) then refuse loc (.arrayTooLarge ty)
    return (ty, none)
  else if ← eat .lparen then
    let l ← parameterList g
    let (ret, _) ← g.suffixes base
    if ret.isArray || ret.isFunction then refuse loc (.invalidReturnType ret)
    return (.function ret (l.params.map Param.ty) l.variadic l.unspecified, some l.params)
  else return (base, none)

/-- A parenthesised declarator and the suffixes behind it. -/
def nestedDeclarator (g : Productions) (base : CType) (abstract : Bool) :
    Parser Declarator := do
  let _ ← next
  let inside := (← get).rest
  skipToClose .unbalancedDeclarator
  let (outer, _) ← g.suffixes base
  let behind := (← get).rest
  modify fun s => { s with rest := inside }
  let d ← g.declarator outer abstract
  expect .rparen
  modify fun s => { s with rest := behind }
  return d

def declarator (g : Productions) (base : CType) (abstract : Bool) : Parser Declarator := do
  let ty ← pointers base
  skipAttributes
  if ← atNestedDeclarator then nestedDeclarator g ty abstract
  else
    let t ← peek
    let name ← match t.kind with
      | .ident name => do
        let _ ← next
        pure (some (name, t.loc))
      | kind => if abstract then pure none else fail t.loc (.expectedIdentifier kind)
    let (ty, params) ← g.suffixes ty
    return ⟨name, ty, params⟩

end LiveC.Parser

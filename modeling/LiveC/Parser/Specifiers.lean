import LiveC.Parser.Basic

/-!
Declaration specifiers: storage classes, qualifiers and type words in any order. The type
depends only on how often each type word occurs (`TypeWord.combine?`).
-/

namespace LiveC

inductive Storage where
  | typedef | external | static
  deriving DecidableEq, Repr

/-- A word of which the name of a basic type is made. -/
inductive TypeWord where
  | void | char | short | int | long | signed | unsigned | double | bool
  deriving DecidableEq, Repr

/-- The type that type words name together; `none` if they do not combine. -/
def TypeWord.combine? (ws : List TypeWord) : Option CType :=
  let n (w : TypeWord) : Nat := ws.count w
  let has (w : TypeWord) : Bool := n w > 0
  let signed := !has .unsigned
  if has .signed && has .unsigned then none
  else if has .void then
    if ws.length > n .void then none else some .void
  else if has .double then
    if ws.length > n .double + n .long || n .long > 1 then none else some .double
  else if has .bool then some (.int .uchar)
  else if has .char then
    if has .short || has .int || has .long then none else some (.int ⟨.w8, signed⟩)
  else if has .short then
    if has .long then none else some (.int ⟨.w16, signed⟩)
  else if has .long then
    if n .long > 2 then none else some (.int ⟨.w64, signed⟩)
  else some (.int ⟨.w32, signed⟩)

/-- What a keyword contributes to declaration specifiers. -/
inductive Specifier where
  | storage (s : Storage)
  | const
  /-- Accepted without effect. -/
  | ignored
  | word (w : TypeWord)
  | attribute
  | refused (e : SemanticError)

def Specifier.ofKeyword? : Keyword → Option Specifier
  | .typedefKw => some (.storage .typedef)
  | .externKw => some (.storage .external)
  | .staticKw => some (.storage .static)
  | .constKw => some .const
  | .inlineKw | .inlineGnuKw | .registerKw | .autoKw | .volatileKw | .restrictKw
  | .restrictGnuKw => some .ignored
  | .voidKw => some (.word .void)
  | .charKw => some (.word .char)
  | .shortKw => some (.word .short)
  | .intKw => some (.word .int)
  | .longKw => some (.word .long)
  | .signedKw => some (.word .signed)
  | .unsignedKw => some (.word .unsigned)
  | .doubleKw => some (.word .double)
  | .boolKw => some (.word .bool)
  | .attributeKw | .declspecKw => some .attribute
  | .floatKw => some (.refused .floatType)
  | .structKw => some (.refused (.unsupportedType .structKw))
  | .unionKw => some (.refused (.unsupportedType .unionKw))
  | .enumKw => some (.refused (.unsupportedType .enumKw))
  | _ => none

/-- Keywords that start a type, and so a parameter or a type name. -/
def Keyword.startsType : Keyword → Bool
  | .typedefKw | .externKw | .staticKw | .inlineKw | .inlineGnuKw | .registerKw
  | .autoKw => false
  | kw => (Specifier.ofKeyword? kw).isSome

/-- Keywords that start a declaration. -/
def Keyword.startsDeclaration (kw : Keyword) : Bool := (Specifier.ofKeyword? kw).isSome

/-- The specifiers read so far. -/
structure Specifiers where
  storage : Option Storage := none
  isConst : Bool := false
  words : List TypeWord := []
  named : Option CType := none
  /-- Whether there is any specifier. -/
  any : Bool := false

/-- Specifiers put together. -/
structure DeclSpec where
  ty : CType
  storage : Option Storage
  isConst : Bool
  deriving Repr

namespace Parser

/-- Whether a token starts a type. -/
def startsType (t : Token) : Parser Bool :=
  match t.kind with
  | .keyword kw => return kw.startsType
  | _ => isTypedef t

/-- Whether a token starts a declaration. -/
def startsDeclaration (t : Token) : Parser Bool :=
  match t.kind with
  | .keyword kw => return kw.startsDeclaration
  | _ => isTypedef t

/-- Skips the parenthesised text behind an attribute's keyword. -/
def skipAttribute : Parser Unit := do
  expect .lparen
  skipToClose .unterminatedAttribute

/-- Skips any number of attributes. -/
def skipAttributes : Parser Unit :=
  iterate (fun () => do
    if ← eatKeyword .attributeKw <||> eatKeyword .declspecKw then
      skipAttribute
      return .yield ()
    else return .done ()) ()

/-- Reads one more specifier, if there is one. -/
def specifier (s : Specifiers) : Parser (ForInStep Specifiers) := do
  let t ← peek
  match t.kind with
  | .ident name =>
    match ← find? name with
    | some (.typedef ty) =>
      if s.words.isEmpty && s.named.isNone then
        let _ ← next
        return .yield { s with named := some ty, any := true }
      else return .done s
    | _ => return .done s
  | .keyword kw =>
    match Specifier.ofKeyword? kw with
    | none => return .done s
    | some (.refused e) => refuse t.loc e
    | some (.storage c) =>
      if s.storage.isSome then refuse t.loc .multipleStorageClasses
      let _ ← next
      return .yield { s with storage := some c, any := true }
    | some .attribute =>
      let _ ← next
      skipAttribute
      return .yield { s with any := true }
    | some .const =>
      let _ ← next
      return .yield { s with isConst := true, any := true }
    | some .ignored =>
      let _ ← next
      return .yield { s with any := true }
    | some (.word w) =>
      let _ ← next
      return .yield { s with words := s.words ++ [w], any := true }
  | _ => return .done s

/-- The type that specifiers name; without any type word it is `int`. -/
def specifiedType (s : Specifiers) (start : Location) : Parser CType := do
  match s.named with
  | some ty => if s.words.isEmpty then return ty else refuse start .invalidSpecifiers
  | none =>
    if s.words.isEmpty then warn start .missingSpecifier
    match TypeWord.combine? s.words with
    | some ty => return ty
    | none => refuse start .invalidSpecifiers

/-- Reads declaration specifiers. -/
def declSpecifiers : Parser DeclSpec := do
  let start ← loc
  let s ← iterate specifier {}
  if !s.any then fail start (.expectedSpecifiers (← peek).kind)
  return ⟨← specifiedType s start, s.storage, s.isConst⟩

end Parser

end LiveC

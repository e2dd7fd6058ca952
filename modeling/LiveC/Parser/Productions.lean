import LiveC.Parser.Specifiers

/-!
The productions that open a new level of nesting. Each level of the grammar is written
over the productions one level deeper, so the limit on nesting bounds the recursion.
-/

namespace LiveC

/-- A parameter of a function declarator. -/
structure Param where
  name : Option String
  ty : CType
  loc : Location
  deriving Repr

/-- A declarator applied to a base type. -/
structure Declarator where
  /-- The declared name; a type name has none. -/
  name : Option (String × Location)
  ty : CType
  /-- The parameters, if a parameter list follows the name directly. -/
  params : Option (List Param)
  deriving Repr

/-- The productions that may nest. -/
structure Productions where
  assignment : Parser Expr
  conditional : Parser Expr
  cast : Parser Expr
  unary : Parser Expr
  /-- Applies a declarator to a base type; without a name only if that is allowed. -/
  declarator : CType → Bool → Parser Declarator
  /-- Applies array and function suffixes to a base type. -/
  suffixes : CType → Parser (CType × Option (List Param))
  /-- Reads the initialiser of an object of static duration at an offset. -/
  staticInit : CType → Nat → Parser (CType × List InitItem)
  /-- Reads the initialiser of a local object at an offset. -/
  localInit : CType → Nat → Parser (CType × List InitStore)
  statement : Parser Stmt

/-- Every production fails where no further level is allowed. -/
def Productions.refused : Productions :=
  let fail {α : Type} : Parser α := do Parser.fail (← Parser.loc) .nestedTooDeeply
  { assignment := fail
    conditional := fail
    cast := fail
    unary := fail
    declarator := fun _ _ => fail
    suffixes := fun _ => fail
    staticInit := fun _ _ => fail
    localInit := fun _ _ => fail
    statement := fail }

end LiveC

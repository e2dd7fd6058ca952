import LiveC.CType.Basic
import LiveC.Program.Expr
import LiveC.Token.Basic
import LiveC.Diagnostic

/-!
What can be wrong with the meaning of a source, what it is warned about, and the monad in
which expressions are typed: the first error ends it, warnings are collected.
-/

namespace LiveC

/-- The most arguments of one call that general registers hold. -/
def maxIntArgs : Nat := 6

/-- The most arguments of one call that vector registers hold. -/
def maxDoubleArgs : Nat := 8

/-- The cause of an error of meaning. -/
inductive SemanticError where
  | multipleStorageClasses
  | floatType
  | unsupportedType (kw : Keyword)
  | invalidSpecifiers
  | arraySizeNotPositive
  | incompleteElement
  | arrayTooLarge (ty : CType)
  | invalidReturnType (ty : CType)
  | voidParameter
  | storageInTypeName
  | differentKind (name : String)
  | conflictingTypes (name : String)
  | voidVariable (name : String)
  | unknownSize (name : String)
  | redefinition (name : String)
  | variadicDefinition (name : String)
  | tooManyParameters (name : String)
  | unnamedParameter
  | bracesExpected
  | excessElements
  | notConstant
  | notInLoop (kw : Keyword)
  | unsupportedStatement (kw : Keyword)
  | incompatible (source target : CType)
  | scalarRequired (ty : CType)
  | integerConstantExpected
  | notAssignable
  | incompatibleArms (l r : CType)
  | invalidOperands (op : BinaryOp) (l r : CType)
  | incompletePointee
  | incompatiblePointers (l r : CType)
  | invalidComparison (l r : CType)
  | invalidCast (source target : CType)
  | addressOfRvalue
  | voidDereference
  | pointerRequired (ty : CType)
  | invalidUnary (op : Punct) (ty : CType)
  | incompleteSizeof (ty : CType)
  | notSteppable (increment : Bool) (ty : CType)
  | notSubscriptable
  | invalidSubscript (ty : CType)
  | memberAccess
  | notCallable (ty : CType)
  | argumentCount (name : String) (expected given : Nat)
  | notPassable (ty : CType)
  | tooManyArguments
  | unknownSymbol (name : String)
  | undeclared (name : String)
  deriving DecidableEq, Repr

def SemanticError.message : SemanticError → String
  | multipleStorageClasses => "multiple storage classes in declaration specifiers"
  | floatType => "'float' is not supported; use 'double'"
  | unsupportedType kw => s!"'{kw.spelling}' types are not supported"
  | invalidSpecifiers => "invalid combination of type specifiers"
  | arraySizeNotPositive => "array size must be positive"
  | incompleteElement => "array has incomplete element type"
  | arrayTooLarge ty =>
    s!"array of type '{ty.render}' is too large (limit {CType.maxObjectSize} bytes)"
  | invalidReturnType ty => s!"function cannot return '{ty.render}'"
  | voidParameter => "parameter has type 'void'"
  | storageInTypeName => "storage class in type name"
  | differentKind name => s!"'{name}' redeclared as a different kind of symbol"
  | conflictingTypes name => s!"conflicting types for '{name}'"
  | voidVariable name => s!"variable '{name}' has type 'void'"
  | unknownSize name => s!"storage size of '{name}' is not known"
  | redefinition name => s!"redefinition of '{name}'"
  | variadicDefinition name => s!"variadic function definition '{name}' is not supported"
  | tooManyParameters name =>
    s!"'{name}' takes more than {maxIntArgs} integer or {maxDoubleArgs} floating parameters"
  | unnamedParameter => "parameter name omitted"
  | bracesExpected => "array initializer must be a brace-enclosed list"
  | excessElements => "excess elements in array initializer"
  | notConstant => "initializer element is not a compile-time constant"
  | notInLoop kw => s!"'{kw.spelling}' statement not in loop"
  | unsupportedStatement kw => s!"'{kw.spelling}' statements are not supported"
  | incompatible source target =>
    s!"incompatible types converting '{source.render}' to '{target.render}'"
  | scalarRequired ty => s!"used type '{ty.render}' where a scalar is required"
  | integerConstantExpected => "expected an integer constant expression"
  | notAssignable => "expression is not assignable"
  | incompatibleArms l r => s!"incompatible operand types ('{l.render}' and '{r.render}')"
  | invalidOperands op l r =>
    s!"invalid operands to binary {op.symbol} ('{l.render}' and '{r.render}')"
  | incompletePointee => "arithmetic on a pointer to an incomplete type"
  | incompatiblePointers l r =>
    s!"'{l.render}' and '{r.render}' are not pointers to compatible types"
  | invalidComparison l r =>
    s!"invalid operands to comparison ('{l.render}' and '{r.render}')"
  | invalidCast source target => s!"cannot cast '{source.render}' to '{target.render}'"
  | addressOfRvalue => "cannot take the address of an rvalue"
  | voidDereference => "dereferencing a 'void *' pointer"
  | pointerRequired ty => s!"indirection requires a pointer operand ('{ty.render}' invalid)"
  | invalidUnary op ty => s!"invalid argument type '{ty.render}' to unary '{op.spelling}'"
  | incompleteSizeof ty =>
    s!"invalid application of 'sizeof' to incomplete type '{ty.render}'"
  | notSteppable true ty => s!"cannot increment value of type '{ty.render}'"
  | notSteppable false ty => s!"cannot decrement value of type '{ty.render}'"
  | notSubscriptable => "subscripted value is not an array or pointer"
  | invalidSubscript ty => s!"subscript of '{ty.render}'"
  | memberAccess => "member access is not supported"
  | notCallable ty => s!"called object type '{ty.render}' is not a function"
  | argumentCount name expected given =>
    let amount := if given < expected then "few" else "many"
    s!"too {amount} arguments to '{name}' (expected {expected}, got {given})"
  | notPassable ty => s!"cannot pass '{ty.render}' as an argument"
  | tooManyArguments =>
    s!"call passes more than {maxIntArgs} integer or {maxDoubleArgs} floating arguments"
  | unknownSymbol name => s!"unknown symbol '{name}'"
  | undeclared name => s!"use of undeclared identifier '{name}'"

/-- The cause of a warning about the meaning of a source. -/
inductive SemanticWarning where
  | missingSpecifier
  | incompatiblePointers (source target : CType)
  | pointerFromInteger
  | integerFromPointer
  | missingReturnValue
  | unexpectedReturnValue
  | divisionByZero
  | pointerIntegerComparison
  | implicitFunction (name : String)
  | constantTooLarge
  deriving DecidableEq, Repr

def SemanticWarning.message : SemanticWarning → String
  | missingSpecifier => "type specifier missing, defaults to 'int'"
  | incompatiblePointers source target =>
    s!"incompatible pointer types converting '{source.render}' to '{target.render}'"
  | pointerFromInteger => "conversion makes pointer from integer without a cast"
  | integerFromPointer => "conversion makes integer from pointer without a cast"
  | missingReturnValue => "non-void function should return a value"
  | unexpectedReturnValue => "void function should not return a value"
  | divisionByZero => "division by zero"
  | pointerIntegerComparison => "comparison between pointer and integer"
  | implicitFunction name => s!"implicit declaration of function '{name}'"
  | constantTooLarge => "integer constant is so large that it is unsigned"

/-- An error of meaning at its place. -/
structure SemanticFault where
  loc : Location
  error : SemanticError
  deriving DecidableEq, Repr

def SemanticFault.diagnostic (f : SemanticFault) : Diagnostic :=
  ⟨.compile, .error, f.error.message, some f.loc⟩

/-- A warning at its place. -/
structure SemanticNotice where
  loc : Location
  warning : SemanticWarning
  deriving DecidableEq, Repr

def SemanticNotice.diagnostic (n : SemanticNotice) : Diagnostic :=
  ⟨.compile, .warning, n.warning.message, some n.loc⟩

/-- Typing of an expression: an error, or a result behind the warnings so far. -/
abbrev Typing := StateT (List SemanticNotice) (Except SemanticFault)

namespace Typing

def fail {α : Type} (loc : Location) (e : SemanticError) : Typing α := throw ⟨loc, e⟩

def warn (loc : Location) (w : SemanticWarning) : Typing Unit :=
  modify fun ws => ws ++ [⟨loc, w⟩]

end Typing

end LiveC

import LiveC.Program.Expr

/-!
Statements, functions, global variables and the unit that holds them.
-/

namespace LiveC

/-- A scalar stored at an offset into a local variable that is initialised. -/
structure InitStore where
  offset : Nat
  value : Expr
  deriving Repr

inductive Stmt where
  | expr (e : Expr)
  /-- Initialises a local variable, which is zeroed first if it is an array. -/
  | init (id : Nat) (zero : Bool) (stores : List InitStore)
  | block (body : List Stmt)
  | ite (c : Expr) (t : Stmt) (f : Option Stmt)
  | while (c : Expr) (body : Stmt)
  | doWhile (body : Stmt) (c : Expr)
  | for (start : Option Stmt) (c step : Option Expr) (body : Stmt)
  | break
  | continue
  | return (value : Option Expr)
  | empty
  deriving Repr, Inhabited

structure LocalVar where
  name : String
  ty : CType
  deriving DecidableEq, Repr

/-- A function definition. The first locals are its parameters. -/
structure Function where
  name : String
  signature : Signature
  locals : List LocalVar
  body : List Stmt
  isStatic : Bool
  loc : Location
  deriving Repr

/-- Where a constant address points. -/
inductive AddressTarget where
  | symbol (name : String)
  | str (id : Nat)
  deriving DecidableEq, Repr

/-- A value that a global initialiser stores. -/
inductive InitValue where
  | int (value : Word) (size : Nat)
  | float (value : Double)
  | bytes (bs : List UInt8)
  | address (target : AddressTarget) (addend : Int)
  deriving DecidableEq, Repr

structure InitItem where
  offset : Nat
  value : InitValue
  deriving DecidableEq, Repr

/-- A global variable or a static local one. Without initialiser it is zero-filled. -/
structure GlobalVar where
  name : String
  ty : CType
  isStatic : Bool
  isConst : Bool
  init : Option (List InitItem)
  loc : Location
  deriving DecidableEq, Repr

/-- What a file-scope name stands for. -/
structure GlobalSymbol where
  ty : CType
  /-- Defined in this unit, as opposed to provided by the host. -/
  defined : Bool
  isStatic : Bool
  deriving DecidableEq, Repr

/-- The names of a unit with their symbols, in the order in which they were first declared. -/
structure SymbolTable where
  entries : List (String × GlobalSymbol) := []
  deriving DecidableEq, Repr

namespace SymbolTable

def find? (t : SymbolTable) (name : String) : Option GlobalSymbol := t.entries.lookup name

def contains (t : SymbolTable) (name : String) : Bool := (t.find? name).isSome

/-- Sets the symbol of a name, in place if it is there. -/
def insert (t : SymbolTable) (name : String) (s : GlobalSymbol) : SymbolTable :=
  if t.contains name then
    ⟨t.entries.map fun e => if e.1 == name then (name, s) else e⟩
  else ⟨t.entries ++ [(name, s)]⟩

end SymbolTable

/-- A parsed source. -/
structure TranslationUnit where
  functions : List Function := []
  globals : List GlobalVar := []
  /-- The string literals, each with its terminating zero. -/
  strings : List (List UInt8) := []
  symbols : SymbolTable := {}
  deriving Repr

end LiveC

import LiveC.CType.Basic

/-!
Relocatable objects: sections of bytes with relocations, and the symbols that they define.
A relocation refers to a section of its object or to a symbol by name.
-/

namespace LiveC

/-- What a section holds, which decides where it is loaded and how it may be used. -/
inductive SectionKind where
  | text | data | readOnly
  /-- Zero-filled data, of which only the size is kept. -/
  | zero
  deriving DecidableEq, Repr, Inhabited

namespace SectionKind

def all : List SectionKind := [text, data, readOnly, zero]

def name : SectionKind → String
  | text => ".text"
  | data => ".data"
  | readOnly => ".rodata"
  | zero => ".bss"

end SectionKind

/-- How a relocation fills its field, from the address `S` of the target, the addend `A` and
the address `P` of the field. -/
inductive RelocKind where
  /-- Eight bytes, `S + A`. -/
  | abs64
  /-- Four bytes without sign, `S + A`. -/
  | abs32
  /-- Four bytes with sign, `S + A - P`. -/
  | pc32
  /-- As `pc32`, for a branch, which reaches other objects through a stub. -/
  | branch32
  deriving DecidableEq, Repr

namespace RelocKind

/-- The bytes of the field. -/
def width : RelocKind → Nat
  | abs64 => 8
  | _ => 4

def name : RelocKind → String
  | abs64 => "abs64"
  | abs32 => "abs32"
  | pc32 => "pc32"
  | branch32 => "branch32"

/-- Whether the value is a distance from the field. -/
def isRelative : RelocKind → Bool
  | pc32 | branch32 => true
  | _ => false

end RelocKind

inductive SymbolKind where
  | function | data
  deriving DecidableEq, Repr

def SymbolKind.name : SymbolKind → String
  | function => "function"
  | data => "data"

inductive RelocTarget where
  /-- The start of a section of the object, by number. -/
  | sectionStart (id : Nat)
  /-- A symbol, by name. -/
  | symbol (name : String)
  deriving DecidableEq, Repr

def RelocTarget.render : RelocTarget → String
  | sectionStart id => s!"section #{id}"
  | symbol name => name

structure Relocation where
  /-- Where the field starts in its section. -/
  offset : Nat
  kind : RelocKind
  target : RelocTarget
  addend : Int
  /-- What the code takes the target for, if it is known. -/
  expected : Option SymbolKind := none
  deriving DecidableEq, Repr

/-- How a machine word stands for an argument or a result. -/
inductive ValueKind where
  | int (t : IntType)
  | ptr
  | f64
  deriving DecidableEq, Repr

namespace ValueKind

def name : ValueKind → String
  | int t => (if t.signed then "i" else "u") ++ toString t.width.bits
  | ptr => "ptr"
  | f64 => "f64"

def isFloat : ValueKind → Bool
  | f64 => true
  | _ => false

/-- The kind of the values of a scalar type. -/
def ofType? : CType → Option ValueKind
  | .int t => some (.int t)
  | .pointer _ => some .ptr
  | .double => some .f64
  | _ => none

end ValueKind

/-- The arguments and the result of a function; without result it is `void`. -/
structure CallShape where
  params : List ValueKind := []
  ret : Option ValueKind := none
  variadic : Bool := false
  deriving DecidableEq, Repr

namespace CallShape

def ofSignature (s : Signature) : CallShape where
  params := s.params.filterMap ValueKind.ofType?
  ret := ValueKind.ofType? s.ret
  variadic := s.variadic

def render (s : CallShape) : String :=
  let params := s.params.map ValueKind.name ++ (if s.variadic then ["..."] else [])
  let ret := (s.ret.map ValueKind.name).getD "void"
  "(" ++ ", ".intercalate params ++ ") -> " ++ ret

end CallShape

/-- A symbol that an object defines. -/
structure ObjectSymbol where
  name : String
  kind : SymbolKind
  /-- The number of its section. -/
  sectionId : Nat
  offset : Nat
  size : Nat
  /-- Whether other objects and callers see it. -/
  isGlobal : Bool
  shape : Option CallShape := none
  deriving DecidableEq, Repr

structure Section where
  name : String
  kind : SectionKind
  /-- The contents; a zero-filled section has none. -/
  data : List UInt8
  size : Nat
  align : Nat
  relocations : List Relocation := []
  deriving DecidableEq, Repr

namespace Section

/-- A section of bytes under the name of its kind. -/
def ofBytes (kind : SectionKind) (data : List UInt8) (align : Nat)
    (relocations : List Relocation := []) : Section :=
  { name := kind.name, kind, data, size := data.length, align, relocations }

/-- A zero-filled section. -/
def zeroed (size align : Nat) : Section :=
  { name := SectionKind.zero.name, kind := .zero, data := [], size, align }

end Section

structure Object where
  sections : List Section := []
  symbols : List ObjectSymbol := []
  deriving DecidableEq, Repr

namespace Object

/-- The global symbol of a name. -/
def global? (o : Object) (name : String) : Option ObjectSymbol :=
  o.symbols.find? fun s => s.isGlobal && s.name == name

/-- All relocations, section by section. -/
def relocations (o : Object) : List Relocation := o.sections.flatMap Section.relocations

/-- The names that relocations use, each as often as it is used. -/
def usedNames (o : Object) : List String :=
  o.relocations.filterMap fun r => match r.target with
    | .symbol name => some name
    | .sectionStart _ => none

/-- The names that are used but not defined, in the order of first use. -/
def undefinedNames (o : Object) : List String :=
  (o.usedNames.filter fun name => (o.global? name).isNone).foldl
    (fun names name => if names.contains name then names else names ++ [name]) []

end Object

end LiveC

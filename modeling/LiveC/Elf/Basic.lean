import LiveC.Word

/-!
Relocatable ELF files for x86-64, as far as objects need them: sections with their bodies,
among them the symbol table, relocations and string tables.
-/

namespace LiveC.Elf

/-- An entry of a symbol table. -/
structure Symbol where
  name : List UInt8
  binding : Nat
  type : Nat
  other : Nat
  /-- The number of its section, zero for an undefined symbol. -/
  sectionId : Nat
  value : Nat
  size : Nat
  deriving DecidableEq, Repr

/-- An entry of a relocation table. -/
structure Rela where
  offset : Nat
  type : Nat
  /-- The number of the symbol. -/
  symbol : Nat
  addend : Int
  deriving DecidableEq, Repr

/-- What a section consists of. -/
inductive Body where
  | null
  | bytes (bs : List UInt8)
  | symbols (entries : List Symbol)
  | strings (table : List UInt8)
  | relas (entries : List Rela)
  /-- Zero bytes, which the file does not hold. -/
  | zeros (size : Nat)
  deriving DecidableEq, Repr

namespace Body

/-- The number by which a header tells what its section is. -/
def type : Body → Nat
  | null => 0
  | bytes _ => 1
  | symbols _ => 2
  | strings _ => 3
  | relas _ => 4
  | zeros _ => 8

/-- The size of an entry of a symbol table or of a relocation table. -/
def entrySize : Body → Nat
  | symbols _ | relas _ => 24
  | _ => 0

def size : Body → Nat
  | null => 0
  | bytes bs => bs.length
  | symbols es => 24 * es.length
  | strings t => t.length
  | relas es => 24 * es.length
  | zeros n => n

end Body

structure Section where
  name : List UInt8
  flags : Nat
  align : Nat
  link : Nat
  info : Nat
  body : Body
  deriving DecidableEq, Repr

/-- A file; its last section names the sections. -/
structure File where
  type : Nat
  machine : Nat
  sections : List Section
  deriving DecidableEq, Repr

/-- The entries of the symbol table. -/
def File.symbols (f : File) : List Symbol :=
  f.sections.flatMap fun s => match s.body with
    | .symbols es => es
    | _ => []

/-! ### Kinds of files, sections and symbols -/

def relocatableFile : Nat := 1
def machineX86_64 : Nat := 62

def flagWrite : Nat := 1
def flagAlloc : Nat := 2
def flagExecute : Nat := 4
/-- The `info` field of a section holds the number of a section. -/
def flagInfoLink : Nat := 64

def bindingLocal : Nat := 0
def bindingGlobal : Nat := 1

def typeNone : Nat := 0
def typeObject : Nat := 1
def typeFunction : Nat := 2
def typeSection : Nat := 3

/-- Visible to all parts of a program, but not outside it. -/
def visibilityHidden : Nat := 2

/-! ### String tables

A zero byte, then strings with a zero byte behind each. A string that ends another one is found
inside it and takes no place of its own. -/

/-- The strings that a table for the given ones holds: each once, without those that end
another. -/
def kept (names : List (List UInt8)) : List (List UInt8) :=
  let distinct := names.eraseDups
  distinct.filter fun n => !distinct.any fun m => m != n && n.isSuffixOf m

/-- The bytes of a table for strings. -/
def stringTable (names : List (List UInt8)) : List UInt8 :=
  0 :: (kept (names.filter (!·.isEmpty))).flatMap (· ++ [0])

/-- Where a string starts among strings that are written one behind the other from an
offset on. -/
def findString (name : List UInt8) (offset : Nat) : List (List UInt8) → Nat
  | [] => 0
  | k :: rest =>
    if name.isSuffixOf k then offset + (k.length - name.length)
    else findString name (offset + k.length + 1) rest

/-- The offset of a string in the table for strings that it belongs to. -/
def stringOffset (names : List (List UInt8)) (name : List UInt8) : Nat :=
  if name.isEmpty then 0 else findString name 1 (kept (names.filter (!·.isEmpty)))

/-- The string at an offset of a table. -/
def stringAt (table : List UInt8) (offset : Nat) : List UInt8 :=
  (table.drop offset).takeWhile (· != 0)

end LiveC.Elf

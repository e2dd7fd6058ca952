import LiveC.Object.Validate
import LiveC.Program.Unit

/-!
The data of a unit. Variables without initialiser are zero-filled, constants without
addresses are read-only as are string literals, all others are data. Addresses are left
zero and listed.
-/

namespace LiveC

/-- The kinds of data in the order of their sections. -/
inductive DataKind where
  | data | readOnly | zero
  deriving DecidableEq, Repr

namespace DataKind

def all : List DataKind := [data, readOnly, zero]

def sectionKind : DataKind → SectionKind
  | data => .data
  | readOnly => .readOnly
  | zero => .zero

end DataKind

/-- A section of data under construction. -/
structure DataBuffer where
  /-- The contents, the last byte first. -/
  reversed : List UInt8 := []
  size : Nat := 0
  align : Nat := 1

namespace DataBuffer

/-- Where an object of an alignment is put. -/
def nextOffset (b : DataBuffer) (align : Nat) : Nat := alignUp b.size (max 1 align)

/-- Sets bytes aside for an object, which has no contents. -/
def reserve (b : DataBuffer) (size align : Nat) : DataBuffer :=
  { b with size := b.nextOffset align + size, align := max b.align (max 1 align) }

/-- Puts the contents of an object behind what is there. -/
def append (b : DataBuffer) (contents : List UInt8) (align : Nat) : DataBuffer :=
  let gap := b.nextOffset align - b.size
  { b.reserve contents.length align with
    reversed := contents.reverseAux (List.replicate gap 0 ++ b.reversed) }

end DataBuffer

namespace InitValue

/-- The bytes that a value stores; an address is filled in by the linker. -/
def stored : InitValue → List UInt8
  | int v size => Word.toBytes v (min size 8)
  | float v => Word.toBytes v.bits 8
  | .bytes bs => bs
  | address .. => []

def isAddress : InitValue → Bool
  | address .. => true
  | _ => false

end InitValue

namespace GlobalVar

/-- The kind of data that a variable is. -/
def dataKind (g : GlobalVar) : DataKind :=
  match g.init with
  | none => .zero
  | some items => if g.isConst && !items.any (·.value.isAddress) then .readOnly else .data

/-- The contents of a variable. -/
def contents (g : GlobalVar) : List UInt8 :=
  ((g.init.getD []).foldl (fun a i => Binary.writeAt a i.offset i.value.stored)
    (Array.replicate g.ty.size 0)).toList

end GlobalVar

/-- An address in the data of a unit. -/
structure DataAddress where
  kind : DataKind
  offset : Nat
  target : AddressTarget
  addend : Int

/-- The data of a unit with the places of its variables and string literals. -/
structure DataLayout where
  data : DataBuffer := {}
  readOnly : DataBuffer := {}
  zero : DataBuffer := {}
  places : List (String × DataKind × Nat) := []
  /-- The offset of each string literal in the read-only data. -/
  strings : List Nat := []
  addresses : List DataAddress := []

namespace DataLayout

def buffer (d : DataLayout) : DataKind → DataBuffer
  | .data => d.data
  | .readOnly => d.readOnly
  | .zero => d.zero

def setBuffer (d : DataLayout) (kind : DataKind) (b : DataBuffer) : DataLayout :=
  match kind with
  | .data => { d with data := b }
  | .readOnly => { d with readOnly := b }
  | .zero => { d with zero := b }

def addGlobal (d : DataLayout) (g : GlobalVar) : DataLayout :=
  let kind := g.dataKind
  let b := d.buffer kind
  let offset := b.nextOffset g.ty.align
  let addresses := (g.init.getD []).filterMap fun i => match i.value with
    | .address target addend => some ⟨kind, offset + i.offset, target, addend⟩
    | _ => none
  let filled := if kind = .zero then b.reserve g.ty.size g.ty.align
    else b.append g.contents g.ty.align
  { d.setBuffer kind filled with
    places := d.places ++ [(g.name, kind, offset)], addresses := d.addresses ++ addresses }

def addString (d : DataLayout) (bs : List UInt8) : DataLayout :=
  { d with readOnly := d.readOnly.append bs 1, strings := d.strings ++ [d.readOnly.nextOffset 1] }

/-- Lays out the variables, and behind them the string literals. -/
def ofUnit (u : TranslationUnit) : DataLayout :=
  u.strings.foldl addString (u.globals.foldl addGlobal {})

/-- The kinds of data that there are. -/
def kinds (d : DataLayout) : List DataKind := DataKind.all.filter fun k => 0 < (d.buffer k).size

/-- The number of the section of a kind; the code is section 0. -/
def sectionId (d : DataLayout) (kind : DataKind) : Nat :=
  match d.kinds.findIdx? (· == kind) with
  | some i => i + 1
  | none => 0

end DataLayout

end LiveC

import LiveC.Elf.Basic
import LiveC.Word

/-!
Reading files: the section headers, and the bodies of the sections that they describe.
-/

namespace LiveC.Elf

open Binary (Reader number)

/-- What a section header says. -/
structure SectionHeader where
  nameOffset : Nat
  type : Nat
  flags : Nat
  start : Nat
  size : Nat
  link : Nat
  info : Nat
  align : Nat
  deriving DecidableEq, Repr

/-- The part of a file from an offset on. -/
def slice? (file : List UInt8) (start size : Nat) : Option (List UInt8) :=
  let part := (file.drop start).take size
  if part.length = size then some part else none

/-- The fields of a file header that matter: type, machine, where the section headers
start, how many there are, and which names the sections. -/
def readHeader : Reader (Nat × Nat × Nat × Nat × Nat) := do
  let _ ← Binary.take 16
  let type ← number 2
  let machine ← number 2
  let _ ← Binary.take 20
  let start ← number 8
  let _ ← Binary.take 12
  let count ← number 2
  let names ← number 2
  return (type, machine, start, count, names)

def readSectionHeader : Reader SectionHeader := do
  let nameOffset ← number 4
  let type ← number 4
  let flags ← number 8
  let _ ← number 8
  let start ← number 8
  let size ← number 8
  let link ← number 4
  let info ← number 4
  let align ← number 8
  let _ ← number 8
  return { nameOffset, type, flags, start, size, link, info, align }

/-- An entry of a symbol table, over the table of names. -/
def readSymbol (names : List UInt8) : Reader Symbol := do
  let name ← number 4
  let info ← number 1
  let other ← number 1
  let sectionId ← number 2
  let value ← number 8
  let size ← number 8
  return { name := stringAt names name, binding := info / 16, type := info % 16, other,
           sectionId, value, size }

def readRela : Reader Rela := do
  let offset ← number 8
  let type ← number 4
  let symbol ← number 4
  let addend ← number 8
  return { offset, type, symbol, addend := (BitVec.ofNat 64 addend).toInt }

/-- Reads so many entries. -/
def readMany {α : Type} (entry : Reader α) : Nat → Reader (List α)
  | 0 => return []
  | n + 1 => do
    let a ← entry
    return a :: (← readMany entry n)

/-- The body that a header describes. -/
def readBody? (file : List UInt8) (headers : List SectionHeader) (h : SectionHeader) :
    Option Body := do
  match h.type with
  | 0 => return .null
  | 1 => return .bytes (← slice? file h.start h.size)
  | 2 =>
    let names ← headers[h.link]?
    let table ← slice? file names.start names.size
    let part ← slice? file h.start h.size
    let (entries, _) ← (readMany (readSymbol table) (h.size / 24)).run part
    return .symbols entries
  | 3 => return .strings (← slice? file h.start h.size)
  | 4 =>
    let part ← slice? file h.start h.size
    let (entries, _) ← (readMany readRela (h.size / 24)).run part
    return .relas entries
  | 8 => return .zeros h.size
  | _ => none

/-- The file that bytes hold. -/
def read? (file : List UInt8) : Option File := do
  let ((type, machine, start, count, names), _) ← readHeader.run file
  let (headers, _) ← (readMany readSectionHeader count).run (file.drop start)
  let namesHeader ← headers[names]?
  let table ← slice? file namesHeader.start namesHeader.size
  let sections ← headers.mapM fun h => do
    return { name := stringAt table h.nameOffset, flags := h.flags, align := h.align,
             link := h.link, info := h.info, body := ← readBody? file headers h }
  return { type, machine, sections }

end LiveC.Elf

import LiveC.Elf.Basic

/-!
The bytes of a file: a header, the bodies of the sections and the section headers. The
contents come first, then the symbols and their names, relocations, and the names of the
sections.
-/

namespace LiveC.Elf

open Binary (little)

/-- The signature of a file: 64-bit words, least significant byte first, version 1. -/
def signature : List UInt8 := [0x7F, 0x45, 0x4C, 0x46, 2, 1, 1] ++ List.replicate 9 0

def headerSize : Nat := 64

def sectionHeaderSize : Nat := 64

def header (f : File) (sectionHeaders : Nat) : List UInt8 :=
  signature ++ little 2 f.type ++ little 2 f.machine ++ little 4 1 ++ little 8 0 ++ little 8 0 ++
    little 8 sectionHeaders ++ little 4 0 ++ little 2 headerSize ++ little 2 0 ++ little 2 0 ++
    little 2 sectionHeaderSize ++ little 2 f.sections.length ++ little 2 (f.sections.length - 1)

def Symbol.bytes (names : List (List UInt8)) (s : Symbol) : List UInt8 :=
  little 4 (stringOffset names s.name) ++ little 1 (s.binding * 16 + s.type) ++
    little 1 s.other ++ little 2 s.sectionId ++ little 8 s.value ++ little 8 s.size

def Rela.bytes (r : Rela) : List UInt8 :=
  little 8 r.offset ++ little 4 r.type ++ little 4 r.symbol ++
    little 8 (BitVec.ofInt 64 r.addend).toNat

/-- What the file holds of a body. -/
def Body.contents : Body → List UInt8
  | null | zeros _ => []
  | bytes bs => bs
  | symbols es => es.flatMap (Symbol.bytes (es.map Symbol.name))
  | strings t => t
  | relas es => es.flatMap Rela.bytes

/-- The place of a body in the order of the file. -/
def Body.rank : Body → Nat
  | symbols _ => 1
  | strings _ => 2
  | relas _ => 3
  | _ => 0

/-- The numbers of the sections in the order in which their bodies are written; the names of
the sections come last. -/
def writtenOrder (f : File) : List Nat :=
  let last := f.sections.length - 1
  let rank (s : Section) (i : Nat) : Nat := if i = last then 4 else s.body.rank
  (List.range 5).flatMap fun r =>
    (f.sections.zipIdx.filter fun (s, i) => rank s i = r).map Prod.snd

/-- How many bytes lie between a position and the next multiple of an alignment. -/
def padding (pos align : Nat) : Nat := (max 1 align - pos % max 1 align) % max 1 align

/-- Writes bodies from a position on, each at a multiple of its alignment, also if there is
nothing to write. Gives the bytes, and where each section starts. -/
def writeBodies (f : File) (pos : Nat) : List Nat → List UInt8 × List (Nat × Nat)
  | [] => ([], [])
  | i :: rest =>
    match f.sections[i]? with
    | none => writeBodies f pos rest
    | some s =>
      let contents := s.body.contents
      let gap := padding pos s.align
      let (bytes, starts) := writeBodies f (pos + gap + contents.length) rest
      (List.replicate gap 0 ++ contents ++ bytes, (i, pos + gap) :: starts)

/-- The header of a section that starts at an offset of the file. -/
def Section.header (names : List (List UInt8)) (s : Section) (start : Nat) : List UInt8 :=
  little 4 (stringOffset names s.name) ++ little 4 s.body.type ++ little 8 s.flags ++
    little 8 0 ++ little 8 start ++ little 8 s.body.size ++ little 4 s.link ++ little 4 s.info ++
    little 8 s.align ++ little 8 s.body.entrySize

def File.bytes (f : File) : List UInt8 :=
  let (bodies, starts) := writeBodies f headerSize (writtenOrder f)
  let gap := padding (headerSize + bodies.length) 8
  let names := f.sections.map Section.name
  let headers := f.sections.zipIdx.flatMap fun (s, i) =>
    s.header names ((starts.lookup i).getD 0)
  header f (headerSize + bodies.length + gap) ++ bodies ++ List.replicate gap 0 ++ headers

end LiveC.Elf

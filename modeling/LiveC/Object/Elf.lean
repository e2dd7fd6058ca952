import LiveC.Object.Validate
import LiveC.Elf.Write

/-!
Objects as ELF files. Each section becomes a section, followed by its relocations if it has
any. The symbol table holds the symbols of the object, a symbol for each section and an
undefined one for each name that relocations refer to; local symbols come first.
-/

namespace LiveC

namespace Object

/-- What a symbol of the file stands for. -/
inductive ElfOrigin where
  | defined (s : ObjectSymbol)
  | sectionStart (id : Nat)
  | undefined (name : String)
  deriving DecidableEq

namespace ElfOrigin

def isLocal : ElfOrigin → Bool
  | defined s => !s.isGlobal
  | sectionStart _ => true
  | undefined _ => false

end ElfOrigin

/-- The symbol to which a relocation target refers. -/
def elfTarget (o : Object) : RelocTarget → ElfOrigin
  | .sectionStart id => .sectionStart id
  | .symbol name =>
    match o.global? name with
    | some s => .defined s
    | none => .undefined name

/-- Everything that has a symbol: what the object defines, and what its relocations refer to
beyond that in the order of first use. -/
def elfOrigins (o : Object) : List ElfOrigin :=
  let used := o.relocations.map fun r => o.elfTarget r.target
  o.symbols.map .defined ++ (used.filter fun u => match u with
    | .defined _ => false
    | _ => true).eraseDups

/-- The symbols in the order of the table, behind the null symbol. -/
def elfOrder (o : Object) : List ElfOrigin :=
  o.elfOrigins.filter ElfOrigin.isLocal ++ o.elfOrigins.filter (!·.isLocal)

/-- The number in the file of a section of the object. -/
def elfSectionId (o : Object) (id : Nat) : Nat :=
  1 + id + ((o.sections.take id).filter (!·.relocations.isEmpty)).length

/-- The number in the table of the symbol to which a relocation refers. -/
def elfSymbolId (o : Object) (t : RelocTarget) : Nat :=
  1 + o.elfOrder.findIdx (· == o.elfTarget t)

def elfSymbol (o : Object) : ElfOrigin → Elf.Symbol
  | .defined s =>
    { name := Text.utf8 s.name
      binding := if s.isGlobal then Elf.bindingGlobal else Elf.bindingLocal
      type := match s.kind with
        | .function => Elf.typeFunction
        | .data => Elf.typeObject
      other := if s.isGlobal then Elf.visibilityHidden else 0
      sectionId := o.elfSectionId s.sectionId, value := s.offset, size := s.size }
  | .sectionStart id =>
    { name := [], binding := Elf.bindingLocal, type := Elf.typeSection, other := 0,
      sectionId := o.elfSectionId id, value := 0, size := 0 }
  | .undefined name =>
    { name := Text.utf8 name, binding := Elf.bindingGlobal, type := Elf.typeNone, other := 0,
      sectionId := 0, value := 0, size := 0 }

def nullSymbol : Elf.Symbol :=
  { name := [], binding := 0, type := 0, other := 0, sectionId := 0, value := 0, size := 0 }

/-- The number by which a file names the way a field is filled. -/
def elfRelocType : RelocKind → Nat
  | .abs64 => 1
  | .pc32 => 2
  | .branch32 => 4
  | .abs32 => 10

def elfRela (o : Object) (r : Relocation) : Elf.Rela :=
  { offset := r.offset, type := elfRelocType r.kind, symbol := o.elfSymbolId r.target,
    addend := r.addend }

def elfFlags : SectionKind → Nat
  | .text => Elf.flagAlloc + Elf.flagExecute
  | .data | .zero => Elf.flagAlloc + Elf.flagWrite
  | .readOnly => Elf.flagAlloc

/-- The sections for a section of the object, over the number of the symbol table. -/
def elfSections (o : Object) (symtab : Nat) (id : Nat) (s : Section) : List Elf.Section :=
  let body := match s.kind with
    | .zero => Elf.Body.zeros s.size
    | _ => .bytes s.data
  let main : Elf.Section :=
    { name := Text.utf8 s.name, flags := elfFlags s.kind, align := s.align, link := 0, info := 0,
      body }
  if s.relocations.isEmpty then [main]
  else
    [main,
     { name := Text.utf8 (".rela" ++ s.name), flags := Elf.flagInfoLink, align := 8,
       link := symtab, info := o.elfSectionId id, body := .relas (s.relocations.map o.elfRela) }]

def nullSection : Elf.Section :=
  { name := [], flags := 0, align := 0, link := 0, info := 0, body := .null }

/-- The file of a well-formed object. -/
def elfFile (o : Object) : Elf.File :=
  let symtab := o.elfSectionId o.sections.length
  let symbols := nullSymbol :: o.elfOrder.map o.elfSymbol
  let locals := (o.elfOrder.filter ElfOrigin.isLocal).length + 1
  let sections := nullSection ::
    o.sections.zipIdx.flatMap (fun (s, id) => o.elfSections symtab id s) ++
    [{ name := Text.utf8 ".symtab", flags := 0, align := 8, link := symtab + 1, info := locals,
       body := .symbols symbols },
     { name := Text.utf8 ".strtab", flags := 0, align := 1, link := 0, info := 0,
       body := .strings (Elf.stringTable (symbols.map Elf.Symbol.name)) }]
  let nameSection := Text.utf8 ".shstrtab"
  let names := sections.map Elf.Section.name ++ [nameSection]
  { type := Elf.relocatableFile, machine := Elf.machineX86_64
    sections := sections ++
      [{ name := nameSection, flags := 0, align := 1, link := 0, info := 0,
         body := .strings (Elf.stringTable names) }] }

/-- The bytes of the file, unless the object is malformed. -/
def emit (o : Object) : Except ObjectFault (List UInt8) := do
  o.validate
  return o.elfFile.bytes

end Object

end LiveC

import LiveC.Link.Layout
import LiveC.Registry

/-!
Linking and loading. Linking gives every section of an object its place in memory, and
writes sections, stubs and relocated fields into blocks; loading seals the blocks, code
last. What an object defines itself comes before what the registry binds.
-/

namespace LiveC

/-- A global symbol at its address. -/
structure LoadedSymbol where
  name : String
  kind : SymbolKind
  address : Word
  size : Nat
  shape : Option CallShape
  deriving DecidableEq, Repr

/-- What linking did. -/
structure LinkStats where
  sections : Nat
  relocationsApplied : Nat
  externalsResolved : Nat
  stubs : Nat
  deriving DecidableEq, Repr

/-- An object in memory. -/
structure Image where
  regions : List Region
  symbols : List LoadedSymbol
  stats : LinkStats
  deriving DecidableEq, Repr

namespace Image

def symbol? (i : Image) (name : String) : Option LoadedSymbol :=
  i.symbols.find? (·.name == name)

/-- The block that an address is in. -/
def regionAt? (i : Image) (a : Word) : Option Region := i.regions.find? (·.contains a)

end Image

namespace RelocKind

/-- The numbers that a field can hold. -/
def fits (kind : RelocKind) (v : Int) : Bool :=
  match kind with
  | abs64 => Word.least ≤ v && v < Word.modulus
  | abs32 => 0 ≤ v && v < 0x100000000
  | pc32 | branch32 => -0x80000000 ≤ v && v < 0x80000000

end RelocKind

namespace Relocation

/-- The value of a field at an address: the target plus the addend, or its distance from the
field. -/
def value (r : Relocation) (target site : Word) : Int :=
  let value := (target.toNat : Int) + r.addend
  if r.kind.isRelative then value - site.toNat else value

/-- The contents of a field at an address. -/
def encode (r : Relocation) (target site : Word) : Except LinkError (List UInt8) :=
  let value := r.value target site
  if r.kind.fits value then .ok (Word.toBytes (BitVec.ofInt 64 value) r.kind.width)
  else .error (.overflow r.target r.kind value)

/-- Refuses a target of another kind than the code takes it for, if both are known. -/
def checkKind (r : Relocation) (found : Option SymbolKind) : Except LinkError Unit :=
  match r.expected, found with
  | some expected, some found =>
    if expected = found then .ok () else .error (.kindMismatch r.target expected found)
  | _, _ => .ok ()

end Relocation

namespace Link

/-- What linking an object works with. -/
structure Context where
  object : Object
  layout : ImageLayout
  /-- The starts of the blocks. -/
  bases : List Word
  /-- The symbols of the names that the object does not define. -/
  resolved : List (String × HostSymbol)

/-- Bytes that are written into a block, and what is wrong if they do not fit it. -/
structure Patch where
  block : Nat
  offset : Nat
  bytes : List UInt8
  fault : ObjectFault
  deriving DecidableEq, Repr

/-- Writes a patch, or finds its fault. -/
def patch (regions : List Region) (p : Patch) : Except LinkError (List Region) :=
  match regions[p.block]? with
  | none => .error (.malformed p.fault)
  | some r =>
    match r.write? (Binary.overwrite r.contents p.offset p.bytes) with
    | none => .error .memory
    | some written =>
      if p.offset + p.bytes.length ≤ r.size then .ok (regions.set p.block written)
      else .error (.malformed p.fault)

/-- Writes a patch that may not be known. -/
def write (regions : List Region) (p : Except LinkError Patch) : Except LinkError (List Region) :=
  p >>= patch regions

namespace Context

def base (c : Context) (block : Nat) : Word := c.bases[block]?.getD 0

def placeAddress (c : Context) (p : Placement) : Word :=
  c.base p.block + BitVec.ofNat 64 p.offset

def sectionAddress (c : Context) (id : Nat) : Word :=
  match c.layout.placements[id]? with
  | some p => c.placeAddress p
  | none => 0

/-- The address of a symbol of the object. -/
def symbolAddress (c : Context) (s : ObjectSymbol) : Word :=
  c.sectionAddress s.sectionId + BitVec.ofNat 64 s.offset

/-- The number of the block of code. -/
def codeBlock? (c : Context) : Option Nat := c.layout.blocks.findIdx? (·.1 = .text)

/-- Where a reference to a symbol of the host leads. A branch goes to the stub. -/
def hostTarget (c : Context) (kind : RelocKind) (name : String) (host : HostSymbol) :
    Except LinkError Word :=
  if kind = .branch32 then
    match c.codeBlock? with
    | none => .error (.malformed .codeMissing)
    | some code =>
      match c.layout.stubs.lookup name with
      | some offset => .ok (c.base code + BitVec.ofNat 64 offset)
      | none => .ok host.address
  else .ok host.address

/-- The address that a relocation refers to, and the kind of what is there if it is known. -/
def target (c : Context) (r : Relocation) : Except LinkError (Word × Option SymbolKind) :=
  match r.target with
  | .sectionStart id => .ok (c.sectionAddress id, none)
  | .symbol name =>
    match c.object.global? name with
    | some own => .ok (c.symbolAddress own, some own.kind)
    | none =>
      match c.resolved.lookup name with
      | none => .error (.undefined name [])
      | some host => do return (← c.hostTarget r.kind name host, some host.kind)

/-- The contents of sections, for blocks where zeros are already. -/
def copies (c : Context) : List (Except LinkError Patch) :=
  (c.layout.placements.filter (·.source.kind ≠ .zero)).map fun p =>
    .ok ⟨p.block, p.offset, p.source.data, .sectionMisfit p.source.name⟩

/-- The stub of a name in a block. -/
def stub (c : Context) (code : Nat) : String × Nat → Except LinkError Patch
  | (name, offset) =>
    match c.resolved.lookup name with
    | none => .error (.undefined name [])
    | some host => .ok ⟨code, offset, jumpStub host.address, .stubMisfit name⟩

/-- The stubs of all branch targets. -/
def stubs (c : Context) : List (Except LinkError Patch) :=
  match c.codeBlock? with
  | none => []
  | some code => c.layout.stubs.map (c.stub code)

/-- The field of a relocation in a section. -/
def field (c : Context) (p : Placement) (r : Relocation) : Except LinkError Patch := do
  let (target, found) ← c.target r
  r.checkKind found
  let bytes ← r.encode target (c.placeAddress p + BitVec.ofNat 64 r.offset)
  return ⟨p.block, p.offset + r.offset, bytes, .fieldMisfit r.offset p.source.name⟩

/-- All fields, section by section. -/
def fields (c : Context) : List (Except LinkError Patch) :=
  c.layout.placements.flatMap fun p => p.source.relocations.map (c.field p)

/-- All that is written, in its order. -/
def patches (c : Context) : List (Except LinkError Patch) := c.copies ++ c.stubs ++ c.fields

/-- Writes the contents of all blocks. -/
def fill (c : Context) (regions : List Region) : Except LinkError (List Region) :=
  c.patches.foldlM write regions

def loadedSymbols (c : Context) : List LoadedSymbol :=
  (c.object.symbols.filter (·.isGlobal)).map fun s =>
    { name := s.name, kind := s.kind, address := c.symbolAddress s, size := s.size,
      shape := s.shape }

def stats (c : Context) : LinkStats where
  sections := c.object.sections.length
  relocationsApplied := c.object.relocations.length
  externalsResolved := c.resolved.length
  stubs := c.layout.stubs.length

end Context

/-- Sets memory aside for one more block. -/
def allocateBlock {σ : Type} (allocate : σ → Nat → Option (Word × σ)) :
    List Region × σ → SectionKind × Nat → Except LinkError (List Region × σ)
  | (regions, space), (kind, size) =>
    match allocate space size with
    | none => .error .memory
    | some (base, space) => .ok (regions ++ [Region.allocated kind base size], space)

/-- Sets memory aside for blocks, one after the other. -/
def allocateBlocks {σ : Type} (allocate : σ → Nat → Option (Word × σ)) (space : σ)
    (blocks : List (SectionKind × Nat)) : Except LinkError (List Region × σ) :=
  blocks.foldlM (allocateBlock allocate) ([], space)

/-- Seals the block of a number to the permission of its kind. -/
def sealBlock (regions : List Region) (i : Nat) : Except LinkError (List Region) :=
  match regions[i]? with
  | none => .ok regions
  | some r =>
    match r.protect? (.ofKind r.kind) with
    | none => .error .memory
    | some r => .ok (regions.set i r)

end Link

/-- What is settled before any memory is set aside: the layout of an object, and the symbols
of the names that it does not define. -/
def Object.plan (o : Object) (r : Registry) :
    Except LinkError (ImageLayout × List (String × HostSymbol)) := do
  (o.validate).mapError LinkError.malformed
  match r.snapshot o.undefinedNames with
  | (_, name :: others) => .error (.undefined name others)
  | (resolved, []) => return (← o.layout, resolved)

open Link in
/-- Links an object into memory that is set aside block by block. All blocks are writable
still. -/
def Object.linkWith {σ : Type} (allocate : σ → Nat → Option (Word × σ)) (o : Object)
    (r : Registry) (space : σ) : Except LinkError (Image × σ) := do
  let (layout, resolved) ← o.plan r
  let (regions, space) ← allocateBlocks allocate space layout.blocks
  let c : Context := { object := o, layout, bases := regions.map Region.base, resolved }
  let regions ← c.fill regions
  return ({ regions, symbols := c.loadedSymbols, stats := c.stats }, space)

/-- Links an object into an address space. -/
def Object.link (o : Object) (r : Registry) (space : AddressSpace) :
    Except LinkError (Image × AddressSpace) := o.linkWith AddressSpace.allocate? r space

namespace Image

/-- The order in which blocks are sealed: code comes last. -/
def sealingOrder (regions : List Region) : List Region :=
  regions.filter (·.kind ≠ .text) ++ regions.filter (·.kind = .text)

/-- Seals all blocks. -/
def load (i : Image) : Except LinkError Image := do
  let regions := sealingOrder i.regions
  return { i with regions := ← (List.range regions.length).foldlM Link.sealBlock regions }

end Image

end LiveC

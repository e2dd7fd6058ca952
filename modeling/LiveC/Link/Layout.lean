import LiveC.Diagnostic
import LiveC.Link.Region
import LiveC.Machine.Encoding
import LiveC.Object.Validate

/-!
The layout of an object in memory: one block for each kind of section, the sections of a
kind one behind the other, and behind the code a jump stub for each branch target that the
object does not define. Also why an object cannot be linked.
-/

namespace LiveC

/-- Why an object cannot be linked. -/
inductive LinkError where
  | malformed (fault : ObjectFault)
  /-- Names that are bound nowhere, the first one and the others. -/
  | undefined (name : String) (others : List String)
  | alignment (sectionName : String) (align : Nat)
  /-- The memory for the object cannot be had. -/
  | memory
  | kindMismatch (target : RelocTarget) (expected found : SymbolKind)
  | overflow (target : RelocTarget) (kind : RelocKind) (value : Int)
  deriving DecidableEq, Repr

namespace LinkError

/-- A number in hexadecimal, a negative one as its complement in 128 bits. -/
def hexValue (v : Int) : String := "0x" ++ Text.hex (BitVec.ofInt 128 v).toNat

def message : LinkError → String
  | malformed fault => s!"malformed object: {fault.message}"
  | undefined name _ => s!"undefined symbol: {name}"
  | alignment name align =>
    s!"section {name} requires alignment {align}, larger than the page size"
  | memory => "memory operation failed"
  | kindMismatch target expected found =>
    s!"symbol {target.render} is referenced as {expected.name} but registered as {found.name}"
  | overflow target kind value =>
    s!"{kind.name} relocation against {target.render} overflows (value {hexValue value})"

/-- The reports of linking itself: one for each name that is bound nowhere. -/
def diagnostics : LinkError → List Diagnostic
  | undefined name others =>
    (name :: others).map fun n => ⟨.link, .error, s!"undefined symbol: {n}", none⟩
  | _ => []

end LinkError

/-- The place of a section: the number of its block, and the offset there. -/
structure Placement where
  /-- The number of the section. -/
  id : Nat
  source : Section
  block : Nat
  offset : Nat
  deriving DecidableEq, Repr

/-- Where everything goes. -/
structure ImageLayout where
  placements : List Placement := []
  /-- The offset of the stub of each name in the block of code. -/
  stubs : List (String × Nat) := []
  /-- The blocks with their sizes. -/
  blocks : List (SectionKind × Nat) := []
  deriving DecidableEq, Repr

/-- The place of the section of a number. -/
def ImageLayout.placementOf (l : ImageLayout) (id : Nat) : Except LinkError Placement :=
  match l.placements.find? (·.id = id) with
  | some p => .ok p
  | none => .error (.malformed (.unplaced id))

namespace Object

/-- An offset in the block of a kind, unless it is beyond all words. -/
def checkOffset (kind : SectionKind) (n : Nat) : Except LinkError Nat :=
  if n < Word.modulus then .ok n else .error (.malformed (.blockOverflow kind))

def alignOffset (kind : SectionKind) (n align : Nat) : Except LinkError Nat := do
  let _ ← checkOffset kind (n + (align - 1))
  return alignUp n align

/-- Places numbered sections into the block of a kind, from an offset on. Gives the end of the
last one too. -/
def placeSections (kind : SectionKind) (block offset : Nat) :
    List (Section × Nat) → Except LinkError (List Placement × Nat)
  | [] => .ok ([], offset)
  | (s, id) :: rest =>
    if pageSize < s.align then .error (.alignment s.name s.align)
    else do
      let start ← alignOffset kind offset s.align
      let stop ← checkOffset kind (start + s.size)
      let (placements, stop) ← placeSections kind block stop rest
      return (⟨id, s, block, start⟩ :: placements, stop)

/-- The names that branches reach through stubs, in the order of first use. -/
def stubNames (o : Object) : List String :=
  (o.relocations.filterMap fun r => match r.kind, r.target with
    | .branch32, .symbol name => if (o.global? name).isNone then some name else none
    | _, _ => none).eraseDups

/-- The names of the stubs in the block of a kind. -/
def stubNamesIn (o : Object) (kind : SectionKind) : List String :=
  if kind = .text then o.stubNames else []

/-- The places of stubs from an offset on, and the end of the last one. -/
def placeStubs (offset : Nat) : List String → Except LinkError (List (String × Nat) × Nat)
  | [] => .ok ([], offset)
  | name :: rest => do
    let stop ← checkOffset .text (offset + jumpStubSize)
    let (stubs, stop) ← placeStubs stop rest
    return ((name, offset) :: stubs, stop)

/-- The places of stubs behind code that ends at an offset. -/
def placeStubsBehind (offset : Nat) (names : List String) :
    Except LinkError (List (String × Nat) × Nat) :=
  if names.isEmpty then .ok ([], offset)
  else do
    let start ← alignOffset .text offset jumpStubSize
    placeStubs start names

/-- Adds the block of a kind, if anything belongs there. -/
def placeKind (o : Object) (l : ImageLayout) (kind : SectionKind) :
    Except LinkError ImageLayout := do
  let (placements, stop) ←
    placeSections kind l.blocks.length 0 (o.sections.zipIdx.filter (·.1.kind = kind))
  let (stubs, stop) ← placeStubsBehind stop (o.stubNamesIn kind)
  return { placements := l.placements ++ placements
           stubs := l.stubs ++ stubs
           blocks := if placements.isEmpty && stubs.isEmpty then l.blocks
             else l.blocks ++ [(kind, stop)] }

/-- The layout of an object, with its sections in their order. -/
def layout (o : Object) : Except LinkError ImageLayout := do
  let l ← SectionKind.all.foldlM o.placeKind {}
  let placements ← (List.range o.sections.length).mapM l.placementOf
  return { l with placements }

end Object

end LiveC

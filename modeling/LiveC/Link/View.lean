import LiveC.Link.Image

/-!
A view of an image in memory: the bytes that come from the sections, and the addresses found
in the fields that linking filled.
-/

namespace LiveC

structure ImageView where
  /-- The bytes of each block; none stands for a byte of a filled field. -/
  blocks : List (SectionKind × List (Option UInt8))
  /-- The fields of relocations, in the order of the object: where they are, and the address
  that each refers to. -/
  fields : List (SectionKind × Nat × RelocKind × Word)
  /-- The stubs in the block of code, and where they jump. -/
  stubs : List (Nat × Word)
  deriving DecidableEq, Repr

namespace Object

/-- The layout of an object that has been linked. -/
def linkedLayout (o : Object) : ImageLayout := o.layout.toOption.getD {}

/-- The relocations with the kinds of their blocks and the offsets of their fields there. -/
def placedRelocations (o : Object) : List (SectionKind × Nat × Relocation) :=
  o.linkedLayout.placements.flatMap fun p =>
    p.source.relocations.map fun r => (p.source.kind, p.offset + r.offset, r)

/-- The address of a stub stands behind its jump. -/
def stubFieldOffset : Nat := 6

/-- The offsets and sizes of the filled fields in the block of a kind. -/
def filledFields (o : Object) (kind : SectionKind) : List (Nat × Nat) :=
  let fields := (o.placedRelocations.filter (·.1 = kind)).map fun (_, offset, r) =>
    (offset, r.kind.width)
  let stubs := o.linkedLayout.stubs.map fun (_, offset) => (offset + stubFieldOffset, 8)
  if kind = .text then fields ++ stubs else fields

end Object

/-- The address that a filled field refers to, in the contents of a block at an address. -/
def Relocation.targetIn (r : Relocation) (contents : List UInt8) (base : Word) (offset : Nat) :
    Word :=
  let field := Word.ofBytes ((contents.drop offset).take r.kind.width)
  if r.kind.isRelative then
    BitVec.ofInt 64 ((field.setWidth 32).toInt - r.addend + base.toNat + offset)
  else BitVec.ofInt 64 ((field.toNat : Int) - r.addend)

/-- Bytes without those of fields. -/
def withoutFields (fields : List (Nat × Nat)) (contents : List UInt8) : List (Option UInt8) :=
  let hide (a : Array (Option UInt8)) (i : Nat) : Array (Option UInt8) := a.setIfInBounds i none
  (fields.foldl (fun a (start, size) => (List.range' start size).foldl hide a)
    (contents.map some).toArray).toList

/-- What an image of an object holds, over a reader of its blocks. -/
def Image.view (i : Image) (o : Object) (read : Region → List UInt8) : ImageView :=
  let contents := i.regions.map fun r => (r, read r)
  let find (kind : SectionKind) : Option (Region × List UInt8) :=
    contents.find? fun c => c.1.kind = kind
  { blocks := contents.map fun (r, bs) => (r.kind, withoutFields (o.filledFields r.kind) bs)
    fields := o.placedRelocations.filterMap fun (kind, offset, r) =>
      (find kind).map fun (block, bs) => (kind, offset, r.kind, r.targetIn bs block.base offset)
    stubs := o.linkedLayout.stubs.filterMap fun (_, offset) => (find .text).map fun (_, bs) =>
      (offset, Word.ofBytes ((bs.drop (offset + Object.stubFieldOffset)).take 8)) }

end LiveC

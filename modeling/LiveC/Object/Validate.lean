import LiveC.Object.Basic
import LiveC.Text.Bytes

/-!
Well-formed objects. `Object.validate` finds the first of the faults that would lead a
reader of the object out of its sections.
-/

namespace LiveC

/-- What makes an object malformed. Validation finds the first faults; the others would only
show when an object is laid out or its blocks are filled. -/
inductive ObjectFault where
  | alignment (name : String) (align : Nat)
  | extent (kind : SectionKind) (name : String) (size : Nat)
  | zeroFilledBytes (name : String)
  | zeroFilledRelocations (name : String)
  | sizeMismatch (name : String) (size bytes : Nat)
  | relocationOutside (kind : RelocKind) (offset : Nat) (name : String) (index : Nat)
  | targetMissing (name : String) (target : Nat)
  | symbolSectionMissing (symbol : String) (id : Nat)
  | symbolExtent (symbol sectionName : String)
  | functionOutsideText (symbol : String)
  | definedTwice (symbol : String)
  | blockOverflow (kind : SectionKind)
  | unplaced (index : Nat)
  | sectionMisfit (name : String)
  | stubMisfit (name : String)
  | codeMissing
  | fieldMisfit (offset : Nat) (name : String)
  deriving DecidableEq, Repr

namespace Object

/-- The largest size of all sections of one kind together. -/
def maxExtent : Nat := 0x3FFFFFFFFFFFFFFF

end Object

def ObjectFault.message : ObjectFault → String
  | alignment name align => s!"section {name} has invalid alignment {align}"
  | extent kind name size =>
    s!"{kind.name} sections exceed {Object.maxExtent} bytes at {name} (size {size})"
  | zeroFilledBytes name => s!"zero-filled section {name} carries bytes"
  | zeroFilledRelocations name => s!"zero-filled section {name} carries relocations"
  | sizeMismatch name size bytes => s!"section {name} size {size} does not match its {bytes} bytes"
  | relocationOutside kind offset name index =>
    s!"{kind.name} relocation at 0x{Text.hex offset} lies outside section {name} (#{index})"
  | targetMissing name target => s!"relocation in {name} targets missing section #{target}"
  | symbolSectionMissing symbol id => s!"symbol {symbol} lives in missing section #{id}"
  | symbolExtent symbol name => s!"symbol {symbol} extends past the end of {name}"
  | functionOutsideText symbol => s!"function {symbol} is not defined in a code section"
  | definedTwice symbol => s!"symbol {symbol} is defined twice"
  | blockOverflow kind => s!"{kind.name} sections overflow the address space"
  | unplaced index => s!"section #{index} was not placed"
  | sectionMisfit name => s!"section {name} does not fit its block"
  | stubMisfit name => s!"stub for {name} does not fit the code block"
  | codeMissing => "branch relocation without a code block"
  | fieldMisfit offset name => s!"relocation at 0x{Text.hex offset} outside {name}"

/-- The least multiple of an alignment that is not below a number. -/
def alignUp (n align : Nat) : Nat := (n + align - 1) / align * align

namespace Object

/-- Whether a number is one of the words with a single bit. -/
def isPowerOfTwo (n : Nat) : Bool := (List.range 64).any fun i => n == 1 <<< i

/-- Where a section ends that is put behind an extent of its kind. -/
def sectionEnd (extent : Nat) (s : Section) : Nat := alignUp extent s.align + s.size

/-- Where the sections of each kind end so far. -/
abbrev Extents := SectionKind → Nat

def Extents.empty : Extents := fun _ => 0

def Extents.add (x : Extents) (s : Section) : Extents :=
  fun k => if k = s.kind then sectionEnd (x k) s else x k

def checkRelocation (o : Object) (index : Nat) (s : Section) (r : Relocation) :
    Except ObjectFault Unit := do
  if s.data.length < r.offset + r.kind.width then
    throw (.relocationOutside r.kind r.offset s.name index)
  if let .sectionStart id := r.target then
    if o.sections.length ≤ id then throw (.targetMissing s.name id)

/-- Checks a section that is put behind the extents. -/
def checkSection (o : Object) (x : Extents) (index : Nat) (s : Section) :
    Except ObjectFault Unit := do
  if !isPowerOfTwo s.align then throw (.alignment s.name s.align)
  if maxExtent < sectionEnd (x s.kind) s then throw (.extent s.kind s.name s.size)
  match s.kind with
  | .zero =>
    if !s.data.isEmpty then throw (.zeroFilledBytes s.name)
    if !s.relocations.isEmpty then throw (.zeroFilledRelocations s.name)
  | _ => if s.size ≠ s.data.length then throw (.sizeMismatch s.name s.size s.data.length)
  s.relocations.forM (checkRelocation o index s)

/-- Checks sections from a number on, behind the extents. -/
def checkSections (o : Object) (x : Extents) (index : Nat) : List Section → Except ObjectFault Unit
  | [] => return ()
  | s :: rest => do
    checkSection o x index s
    checkSections o (x.add s) (index + 1) rest

def checkSymbol (o : Object) (s : ObjectSymbol) : Except ObjectFault Unit := do
  let some place := o.sections[s.sectionId]? | throw (.symbolSectionMissing s.name s.sectionId)
  if place.size < s.offset + s.size then throw (.symbolExtent s.name place.name)
  if s.kind = .function && place.kind ≠ .text then throw (.functionOutsideText s.name)

/-- The names of global symbols. -/
def globalNames (o : Object) : List String := (o.symbols.filter (·.isGlobal)).map (·.name)

/-- The least of the names that occur more than once. -/
def duplicate? (names : List String) : Option String :=
  let twice := names.filter fun n => 1 < names.count n
  twice.foldl (fun least n => match least with
    | none => some n
    | some l => some (if n < l then n else l)) none

/-- The first fault of an object. -/
def validate (o : Object) : Except ObjectFault Unit := do
  checkSections o .empty 0 o.sections
  o.symbols.forM (checkSymbol o)
  match duplicate? o.globalNames with
  | some name => throw (.definedTwice name)
  | none => return ()

end Object

end LiveC

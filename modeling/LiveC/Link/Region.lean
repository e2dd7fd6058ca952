import LiveC.Object.Basic

/-!
Blocks of memory for loaded sections. A block is writable until it is sealed, once, to the
permission of its kind; no permission allows both writing and execution.
-/

namespace LiveC

/-- What may be done with memory, besides reading it. -/
inductive Permission where
  | readWrite | readOnly | readExecute
  deriving DecidableEq, Repr

namespace Permission

/-- The permission of loaded sections of a kind. -/
def ofKind : SectionKind → Permission
  | .text => readExecute
  | .data | .zero => readWrite
  | .readOnly => readOnly

def isWritable : Permission → Bool
  | readWrite => true
  | _ => false

def isExecutable : Permission → Bool
  | readExecute => true
  | _ => false

def render : Permission → String
  | readWrite => "rw-"
  | readOnly => "r--"
  | readExecute => "r-x"

end Permission

def pageSize : Nat := 4096

/-- A block of memory that holds the sections of one kind. -/
structure Region where
  kind : SectionKind
  base : Word
  size : Nat
  /-- The bytes at the start; behind them all bytes are zero. -/
  contents : List UInt8
  /-- The final permission, once the block is sealed. -/
  seal? : Option Permission := none
  deriving DecidableEq, Repr

namespace Region

def isSealed (r : Region) : Bool := r.seal?.isSome

def permission (r : Region) : Permission := r.seal?.getD .readWrite

/-- The pages set aside for a block; even an empty one takes one. -/
def pagesFor (size : Nat) : Nat := (max size 1 + pageSize - 1) / pageSize

def pages (r : Region) : Nat := pagesFor r.size

def isEmpty (r : Region) : Bool := r.size == 0

/-- Whether an address is one of a byte of the block. -/
def contains (r : Region) (a : Word) : Bool :=
  r.base.toNat ≤ a.toNat && a.toNat < r.base.toNat + r.size

/-- A block of memory that is set aside, all zeros. The zeros of zero-filled data are not
listed. -/
def allocated (kind : SectionKind) (base : Word) (size : Nat) : Region :=
  { kind, base, size, contents := if kind = .zero then [] else List.replicate size 0 }

/-- Replaces the contents of a block that is not sealed. -/
def write? (r : Region) (contents : List UInt8) : Option Region :=
  if r.isSealed then none else some { r with contents }

/-- Gives the block its final permission, once. -/
def protect? (r : Region) (p : Permission) : Option Region :=
  if r.isSealed then none else some { r with seal? := some p }

end Region

/-- Where new blocks of memory are put. -/
structure AddressSpace where
  next : Nat := 0x7F0000000000
  deriving DecidableEq, Repr

namespace AddressSpace

/-- The end of the addresses that blocks may take. -/
def limit : Nat := 0x800000000000

/-- The start of a new block of whole pages, behind a page that belongs to no block. -/
def allocate? (s : AddressSpace) (size : Nat) : Option (Word × AddressSpace) :=
  let base := s.next + pageSize
  let stop := base + Region.pagesFor size * pageSize
  if stop ≤ limit then some (BitVec.ofNat 64 base, ⟨stop⟩) else none

end AddressSpace

end LiveC

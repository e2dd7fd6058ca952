/-!
Stack frames. A frame hands out slots downwards from the frame pointer; a slot that would
take the frame beyond its limit is refused and changes nothing.
-/

namespace LiveC

/-- The slots of a frame. -/
structure Frame where
  /-- The offset of each slot from the frame pointer, in the order of allocation. -/
  slots : List Int := []
  /-- How many bytes below the frame pointer are taken. -/
  used : Nat := 0
  deriving DecidableEq, Repr

namespace Frame

/-- The largest frame that displacements of 32 bits reach, in whole units of 16 bytes. -/
def maxSize : Nat := 0x7FFFFFF0

/-- Numbers of 32 bits bound sizes and alignments. -/
def numberLimit : Nat := 0x100000000

/-- Clears the bits of a number below an alignment that is a power of two. -/
def alignDown (n align : Nat) : Nat := n &&& (numberLimit - align)

/-- A new slot at the end of the frame, and its offset. -/
def allocate? (f : Frame) (size align : Nat) : Option (Int × Frame) :=
  let align := max align 1
  let size := max size 1
  let stop := f.used + size + (align - 1)
  if align < numberLimit ∧ stop < numberLimit ∧ alignDown stop align ≤ maxSize then
    let used := alignDown stop align
    some (-(used : Int), { slots := f.slots ++ [-(used : Int)], used })
  else none

def slot? (f : Frame) (i : Nat) : Option Int := f.slots[i]?

/-- The bytes that the stack pointer moves by: whole units of 16 bytes. -/
def size (f : Frame) : Nat := (f.used + 15) / 16 * 16

end Frame

end LiveC

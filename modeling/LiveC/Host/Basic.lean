import LiveC.Text.Bytes
import LiveC.Link.Image
import LiveC.Machine.Decoding
import LiveC.Machine.State

/-!
The host that loads and runs compiled code: one machine whose memory all images share, the code
that can be executed, and what programs have written to standard output. It waits in a buffer until
more comes than the buffer takes. Then the buffer goes out, and of what does not fit whole blocks go
out with it, so that less than a block waits again.
-/

namespace LiveC

/-! ### Standard output -/

structure Output where
  /-- The bytes that have gone out. -/
  written : Array UInt8 := #[]
  /-- The bytes that wait in the buffer. -/
  waiting : Array UInt8 := #[]
  /-- How many more bytes the buffer takes. There is none before the first write. -/
  room : Nat := 0

namespace Output

/-- The size of the buffer. -/
def blockSize : Nat := 4096

/-- All bytes in the order in which they were written. -/
def bytes (o : Output) : List UInt8 := o.written.toList ++ o.waiting.toList

def isEmpty (o : Output) : Bool := o.written.isEmpty && o.waiting.isEmpty

/-- One write. -/
def write (o : Output) (bs : List UInt8) : Output :=
  match o with
  | ⟨written, waiting, room⟩ =>
    if bs.length ≤ room then ⟨written, bs.foldl Array.push waiting, room - bs.length⟩
    else
      let rest := bs.drop room
      let direct := rest.length / blockSize * blockSize
      let kept := rest.drop direct
      { written := (bs.take room ++ rest.take direct).foldl Array.push (written ++ waiting)
        waiting := kept.toArray
        room := blockSize - kept.length }

/-- Buffering neither loses bytes nor changes their order. -/
theorem bytes_write (o : Output) (bs : List UInt8) : (o.write bs).bytes = o.bytes ++ bs := by
  cases o with
  | mk written waiting room =>
    simp only [write]
    split
    · simp [bytes]
    · have blocks := List.take_append_drop ((bs.drop room).length / blockSize * blockSize)
        (bs.drop room)
      simp only [bytes, List.foldl_push_eq_append', Array.toList_append, List.append_assoc, blocks,
        List.take_append_drop]

end Output

/-! ### Code and the host -/

/-- Code in memory. It is cut into instructions at every offset, since it never changes while
it can be executed. -/
structure CodeBlock where
  base : Word
  /-- The instruction that starts at each offset, with its size. -/
  instructions : Array (Option (Instruction Jump × Nat))

namespace CodeBlock

/-- No instruction has more bytes. -/
def maxInstructionSize : Nat := 15

/-- The instruction at each byte. -/
def cut : List UInt8 → List (Option (Instruction Jump × Nat))
  | [] => []
  | b :: rest =>
    let window := (b :: rest).take maxInstructionSize
    ((Instruction.decode? window).map fun (i, tail) => (i, window.length - tail.length)) :: cut rest

def ofBytes (base : Word) (bs : List UInt8) : CodeBlock := ⟨base, (cut bs).toArray⟩

/-- The instruction at an address, and the address behind it. -/
def fetch? (c : CodeBlock) (ip : Word) : Option (Instruction Jump × Word) :=
  match c.instructions[(ip - c.base).toNat]? with
  | some (some (i, size)) => some (i, ip + BitVec.ofNat 64 size)
  | _ => none

end CodeBlock

/-- A host; `σ` is what its functions keep. -/
structure Host (σ : Type) where
  state : σ
  machine : Machine := .blank
  /-- The address of the next instruction. -/
  ip : Word := 0
  space : AddressSpace := {}
  code : List CodeBlock := []
  /-- What was written to standard output. -/
  output : Output := {}

namespace Host

variable {σ : Type}

/-- The instruction at an address, and the address behind it. -/
def fetch? (h : Host σ) (ip : Word) : Option (Instruction Jump × Word) :=
  h.code.findSome? (·.fetch? ip)

/-- Changes memory. -/
def modifyMemory (f : Memory → Memory) : Host σ → Host σ
  | ⟨state, ⟨general, vector, flags, memory⟩, ip, space, code, output⟩ =>
    ⟨state, ⟨general, vector, flags, f memory⟩, ip, space, code, output⟩

/-- Writes bytes to standard output, at once. -/
def print (bs : List UInt8) : Host σ → Host σ
  | ⟨state, machine, ip, space, code, output⟩ =>
    ⟨state, machine, ip, space, code, output.write bs⟩

/-- Sets memory aside that holds zeros. -/
def allocate? (h : Host σ) (size : Nat) : Option (Word × Host σ) :=
  (h.space.allocate? size).map fun (base, space) => (base, { h with space })

/-- Puts an image in place. Its executable blocks become code. -/
def place (h : Host σ) (i : Image) : Host σ :=
  let code := (i.regions.filter (·.permission.isExecutable)).map fun r =>
    CodeBlock.ofBytes r.base r.contents
  let h := i.regions.foldl (fun h r => h.modifyMemory (·.writeBytes r.base r.contents)) h
  { h with code := code ++ h.code }

/-- Takes the code of an image away. -/
def remove (h : Host σ) (i : Image) : Host σ :=
  { h with code := h.code.filter fun c => !i.regions.any (·.base == c.base) }

/-- The bytes of a block at this moment. -/
def contents (h : Host σ) (r : Region) : List UInt8 :=
  h.machine.memory.readBytes r.base r.size

end Host

end LiveC

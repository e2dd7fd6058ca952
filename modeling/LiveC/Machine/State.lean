import LiveC.Word
import Std.Data.HashMap.Lemmas
import LiveC.Double
import LiveC.Machine.Instruction

/-!
The state that instructions work on: the registers, the results of the last comparison, and memory.
Memory has a byte at every address, zero where nothing was written. Numbers are stored with their
least significant byte first. The laws say what a read finds behind a write.
-/

namespace LiveC

/-! ### Memory -/

structure Memory where
  /-- The bytes that were written. -/
  written : Std.HashMap Word UInt8 := {}

instance : Inhabited Memory := ⟨{}⟩

namespace Memory

def read (m : Memory) (a : Word) : UInt8 := m.written.getD a 0

def write (m : Memory) (a : Word) (b : UInt8) : Memory := ⟨m.written.insert a b⟩

@[simp] theorem read_empty (a : Word) : ({} : Memory).read a = 0 := by
  simp [read]

theorem read_write (m : Memory) (a x : Word) (b : UInt8) :
    (m.write a b).read x = if x = a then b else m.read x := by
  simp only [read, write, Std.HashMap.getD_insert, beq_iff_eq]
  grind

/-- The bytes from an address on. -/
def readBytes (m : Memory) (a : Word) (n : Nat) : List UInt8 :=
  (List.range n).map fun i => m.read (a + BitVec.ofNat 64 i)

/-- Writes bytes from an address on. -/
def writeBytes (m : Memory) (a : Word) : List UInt8 → Memory
  | [] => m
  | b :: bs => (m.write a b).writeBytes (a + 1) bs

@[simp] theorem length_readBytes (m : Memory) (a : Word) (n : Nat) :
    (m.readBytes a n).length = n := by
  simp [readBytes]

/-- An address outside of what is written keeps its byte. -/
theorem read_writeBytes_of_outside {a x : Word} (m : Memory) (bs : List UInt8)
    (h : ∀ i < bs.length, x ≠ a + BitVec.ofNat 64 i) :
    (m.writeBytes a bs).read x = m.read x := by
  induction bs generalizing m a with
  | nil => rfl
  | cons b bs ih =>
    have first : x ≠ a := by simpa using h 0 (by simp)
    rw [writeBytes, ih, read_write, if_neg first]
    intro i hi
    have next := h (i + 1) (by simpa using hi)
    rwa [BitVec.ofNat_add, BitVec.add_comm _ (BitVec.ofNat 64 1), ← BitVec.add_assoc] at next

/-- The number of `n` bytes at an address, zero-extended to a word. -/
def load (m : Memory) (a : Word) (n : Nat) : Word := Word.ofBytes (m.readBytes a n)

/-- Stores the low `n` bytes of a word. -/
def store (m : Memory) (a : Word) (n : Nat) (v : Word) : Memory := m.writeBytes a (v.toBytes n)

/-- Sets `n` bytes from an address on. -/
def fill (m : Memory) (a : Word) (b : UInt8) : Nat → Memory
  | 0 => m
  | n + 1 => (m.write a b).fill (a + 1) b n

/-- The bytes in front of the first zero, of at most `n`. -/
def untilZero (m : Memory) (a : Word) : Nat → List UInt8
  | 0 => []
  | n + 1 =>
    let b := m.read a
    if b = 0 then [] else b :: m.untilZero (a + 1) n

/-- The text at an address, which a zero ends: one comes at the latest behind all bytes that
were written. -/
def text (m : Memory) (a : Word) : List UInt8 := m.untilZero a m.written.size

end Memory

/-! ### Registers and flags -/

/-- What an operation leaves for the conditions behind it. -/
structure Flags where
  zero : Bool := false
  sign : Bool := false
  carry : Bool := false
  overflow : Bool := false
  parity : Bool := false
  deriving DecidableEq, Repr, Inhabited

namespace Flags

/-- Whether a number of low bits is even, of the eight lowest. -/
def evenParity (v : Word) : Bool :=
  ((List.range 8).filter fun i => v.getLsbD i).length % 2 == 0

/-- The flags of a result that cannot leave its range. -/
def ofResult (v : Word) : Flags where
  zero := v == 0
  sign := v.msb
  parity := evenParity v

/-- The flags of a sum. -/
def ofSum (a b : Word) : Flags where
  zero := a + b == 0
  sign := (a + b).msb
  carry := a.uaddOverflow b
  overflow := a.saddOverflow b
  parity := evenParity (a + b)

/-- The flags of a difference, which comparisons take. -/
def ofDifference (a b : Word) : Flags where
  zero := a - b == 0
  sign := (a - b).msb
  carry := a.ult b
  overflow := a.ssubOverflow b
  parity := evenParity (a - b)

/-- The flags of a comparison of doubles: a comparison with a NaN sets all three. -/
def ofComparison : Option Ordering → Flags
  | some .lt => { carry := true }
  | some .eq => { zero := true }
  | some .gt => {}
  | none => { zero := true, carry := true, parity := true }

end Flags

/-- Whether a condition holds. -/
def Condition.holds (c : Condition) (f : Flags) : Bool :=
  match c with
  | equal => f.zero
  | notEqual => !f.zero
  | less => f.sign != f.overflow
  | lessEqual => f.zero || f.sign != f.overflow
  | greater => !f.zero && f.sign == f.overflow
  | greaterEqual => f.sign == f.overflow
  | below => f.carry
  | belowEqual => f.carry || f.zero
  | above => !f.carry && !f.zero
  | aboveEqual => !f.carry
  | parity => f.parity
  | noParity => !f.parity
  | sign => f.sign

structure Machine where
  /-- The general registers, by number. -/
  general : Vector Word 16
  /-- The doubles in the vector registers, by number. -/
  vector : Vector Double 16
  flags : Flags
  memory : Memory

namespace Machine

/-- All registers and all memory zero. -/
def blank : Machine where
  general := .replicate 16 0
  vector := .replicate 16 .zero
  flags := {}
  memory := {}

instance : Inhabited Machine := ⟨blank⟩

def gp (m : Machine) (r : Gp) : Word := m.general[r.code]

def setGp (m : Machine) (r : Gp) (v : Word) : Machine :=
  { m with general := m.general.set r.code v }

def xmm (m : Machine) (r : Xmm) : Double := m.vector[r.code]

def setXmm (m : Machine) (r : Xmm) (v : Double) : Machine :=
  { m with vector := m.vector.set r.code v }

/-- Sets a register of either bank to the bits of a value. -/
def setRegister (m : Machine) : Register → Word → Machine
  | .gp r, v => m.setGp r v
  | .xmm r, v => m.setXmm r ⟨v⟩

theorem gp_setGp (m : Machine) (r s : Gp) (v : Word) :
    (m.setGp r v).gp s = if s = r then v else m.gp s := by
  have inj : (r.code.val = s.code.val) ↔ (s = r) := by cases r <;> cases s <;> decide
  simp only [gp, setGp, Fin.getElem_fin, Vector.getElem_set, inj]

theorem xmm_setXmm (m : Machine) (r s : Xmm) (v : Double) :
    (m.setXmm r v).xmm s = if s = r then v else m.xmm s := by
  have inj : (r.code.val = s.code.val) ↔ (s = r) := by
    rw [← Fin.ext_iff, eq_comm]
    cases r; cases s; simp
  simp only [xmm, setXmm, Fin.getElem_fin, Vector.getElem_set, inj]

@[simp] theorem xmm_setGp (m : Machine) (r : Gp) (s : Xmm) (v : Word) :
    (m.setGp r v).xmm s = m.xmm s := rfl

@[simp] theorem gp_setXmm (m : Machine) (r : Xmm) (s : Gp) (v : Double) :
    (m.setXmm r v).gp s = m.gp s := rfl

@[simp] theorem memory_setGp (m : Machine) (r : Gp) (v : Word) :
    (m.setGp r v).memory = m.memory := rfl

@[simp] theorem memory_setXmm (m : Machine) (r : Xmm) (v : Double) :
    (m.setXmm r v).memory = m.memory := rfl

/-- The address that a memory operand stands for. -/
def locate (m : Machine) (a : Address) : Word := m.gp a.base + a.disp.signExtend 64

/-- The number of a width at a memory operand, zero-extended. -/
def load (m : Machine) (a : Address) (w : Width) : Word := m.memory.load (m.locate a) w.bytes

/-- Stores the low bytes of a word at an address. -/
def storeAt (m : Machine) (a : Word) (w : Width) (v : Word) : Machine :=
  { m with memory := m.memory.store a w.bytes v }

/-- Pushes a word on the stack. -/
def push (m : Machine) (v : Word) : Machine :=
  let top := m.gp .rsp - 8
  (m.setGp .rsp top).storeAt top .w64 v

/-- Pops a word off the stack. -/
def pop (m : Machine) : Word × Machine :=
  let top := m.gp .rsp
  (m.memory.load top 8, m.setGp .rsp (top + 8))

end Machine

end LiveC

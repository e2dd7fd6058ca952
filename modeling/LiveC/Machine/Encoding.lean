import LiveC.Machine.Instruction

/-!
The machine code of instructions. An instruction is a legacy mark, an extension byte with
the high bits of register numbers, an opcode, operands and immediates, in this order;
`bytes` writes the shortest form of each part that the operands allow.
-/

namespace LiveC

/-- A branch that is laid out: the distance from its end to the target, in one byte or
in four. -/
structure Jump where
  disp : BitVec 32
  short : Bool
  deriving DecidableEq, Repr

/-- The number of a condition in opcodes. -/
def Condition.code : Condition → Nat
  | below => 0x2
  | aboveEqual => 0x3
  | equal => 0x4
  | notEqual => 0x5
  | belowEqual => 0x6
  | above => 0x7
  | sign => 0x8
  | parity => 0xA
  | noParity => 0xB
  | less => 0xC
  | greaterEqual => 0xD
  | lessEqual => 0xE
  | greater => 0xF

namespace Encoding

/-- The bytes of a bit vector, least significant first. -/
def little (v : BitVec 64) (n : Nat) : List UInt8 := Word.toBytes v n

def imm8 (v : BitVec 8) : List UInt8 := little (v.setWidth 64) 1
def imm32 (v : BitVec 32) : List UInt8 := little (v.setWidth 64) 4
def imm64 (v : Word) : List UInt8 := little v 8

/-- Whether a number fits a sign-extended byte. -/
def fitsByte (v : BitVec 32) : Bool := decide (-128 ≤ v.toInt ∧ v.toInt ≤ 127)

/-- The low byte of a number, for one that fits it. -/
def lowByte (v : BitVec 32) : List UInt8 := imm8 (v.setWidth 8)

/-- What stands around the operands of an instruction. -/
structure Shape where
  /-- The mark in front of the extension byte. -/
  mark : List UInt8 := []
  /-- Whether operands are whole words. -/
  wide : Bool := false
  /-- Whether the extension byte is written even if it is empty, as for the low bytes of
  the stack and index registers. -/
  force : Bool := false
  opcode : List UInt8

/-- The extension byte for a register operand, an index and a base or second register. -/
def extension (s : Shape) (reg index rm : Nat) : List UInt8 :=
  let bits := (if s.wide then 8 else 0) + reg / 8 * 4 + index / 8 * 2 + rm / 8
  if bits = 0 && !s.force then [] else [UInt8.ofNat (0x40 + bits)]

/-- The byte that selects an addressing mode and two registers. -/
def modes (mode reg rm : Nat) : UInt8 := UInt8.ofNat (mode * 64 + reg % 8 * 8 + rm % 8)

/-- Two registers. -/
def registers (s : Shape) (reg rm : Nat) : List UInt8 :=
  s.mark ++ extension s reg 0 rm ++ s.opcode ++ [modes 3 reg rm]

/-- The displacement of a memory operand and its mode. -/
def displacement (base : Nat) (disp : BitVec 32) : Nat × List UInt8 :=
  if disp = 0 && base % 8 != 5 then (0, [])
  else if fitsByte disp then (1, lowByte disp)
  else (2, imm32 disp)

/-- A register and a memory operand. -/
def memory (s : Shape) (reg : Nat) (a : Address) : List UInt8 :=
  let base := a.base.code.val
  let (mode, disp) := displacement base a.disp
  s.mark ++ extension s reg 0 base ++ s.opcode ++ [modes mode reg base] ++
    (if base % 8 = 4 then [0x24] else []) ++ disp

/-- A register number inside the opcode. -/
def inOpcode (wide : Bool) (opcode : Nat) (r : Gp) : List UInt8 :=
  extension { wide, opcode := [] } 0 0 r.code.val ++ [UInt8.ofNat (opcode + r.code.val % 8)]

/-- The registers whose low byte needs an extension byte. -/
def needsForce (r : Gp) : Bool := decide (4 ≤ r.code.val ∧ r.code.val < 8)

/-- The shape of a load of a width; the same opcodes extend registers. -/
def loadShape (w : Width) (signed : Bool) : Shape :=
  match w, signed with
  | .w8, true => { wide := true, opcode := [0x0F, 0xBE] }
  | .w8, false => { opcode := [0x0F, 0xB6] }
  | .w16, true => { wide := true, opcode := [0x0F, 0xBF] }
  | .w16, false => { opcode := [0x0F, 0xB7] }
  | .w32, true => { wide := true, opcode := [0x63] }
  | .w32, false => { opcode := [0x8B] }
  | .w64, _ => { wide := true, opcode := [0x8B] }

def storeShape (s : Gp) (w : Width) : Shape :=
  match w with
  | .w8 => { force := needsForce s, opcode := [0x88] }
  | .w16 => { mark := [0x66], opcode := [0x89] }
  | .w32 => { opcode := [0x89] }
  | .w64 => { wide := true, opcode := [0x89] }

def aluOpcode : AluOp → UInt8
  | .add => 0x01
  | .sub => 0x29
  | .and => 0x21
  | .or => 0x09
  | .xor => 0x31
  | .imul => 0xAF

/-- The number by which the immediate forms tell operations apart. -/
def aluNumber : AluOp → Nat
  | .add => 0
  | .or => 1
  | .and => 4
  | .sub => 5
  | .xor => 6
  | .imul => 0

def shiftNumber : ShiftOp → Nat
  | .shl => 4
  | .shr => 5
  | .sar => 7

def sseOpcode : SseOp → UInt8
  | .add => 0x58
  | .mul => 0x59
  | .sub => 0x5C
  | .div => 0x5E

/-- An operation with an immediate: the accumulator has a form of its own. -/
def aluImm (op : AluOp) (d : Gp) (v : BitVec 32) : List UInt8 :=
  let r := d.code.val
  match op with
  | .imul =>
    if fitsByte v then registers { wide := true, opcode := [0x6B] } r r ++ lowByte v
    else registers { wide := true, opcode := [0x69] } r r ++ imm32 v
  | op =>
    if d = .rax then [0x48, aluOpcode op + 4] ++ imm32 v
    else if fitsByte v then
      registers { wide := true, opcode := [0x83] } (aluNumber op) r ++ lowByte v
    else registers { wide := true, opcode := [0x81] } (aluNumber op) r ++ imm32 v

end Encoding

open Encoding in
/-- The machine code of an instruction. -/
def Instruction.bytes (i : Instruction Jump) : List UInt8 :=
  let word (opcode : List UInt8) : Shape := { wide := true, opcode }
  let vector (mark : UInt8) (opcode : UInt8) : Shape := { mark := [mark], opcode := [0x0F, opcode] }
  match i with
  | mov d s => registers (word [0x89]) s.code d.code
  | movDouble d s => registers (vector 0x66 0x28) d.code s.code
  | movToXmm d s => registers { vector 0x66 0x6E with wide := true } d.code s.code
  | movToGp d s => registers { vector 0x66 0x7E with wide := true } s.code d.code
  | clear d => registers { opcode := [0x31] } d.code d.code
  | movImm d v => inOpcode true 0xB8 d ++ imm64 v
  | movImm32 d v => inOpcode false 0xB8 d ++ imm32 v
  | load d a w signed => memory (loadShape w signed) d.code a
  | loadDouble d a => memory (vector 0xF3 0x7E) d.code a
  | store a s w => memory (storeShape s w) s.code a
  | storeDouble a s => memory (vector 0x66 0xD6) s.code a
  | lea d a => memory (word [0x8D]) d.code a
  | leaSum d b x =>
    let (mode, disp) := displacement b.code 0
    extension { opcode := [] } d.code x.code b.code ++
      [0x8D, modes mode d.code 4, modes 0 x.code b.code] ++ disp
  | extend r w signed =>
    match w, signed with
    | .w64, _ => []
    | .w32, false => registers { opcode := [0x89] } r.code r.code
    | .w8, false =>
      registers { loadShape .w8 false with force := needsForce r } r.code r.code
    | w, signed => registers (loadShape w signed) r.code r.code
  | alu .imul d s => registers (word [0x0F, 0xAF]) d.code s.code
  | alu op d s => registers (word [aluOpcode op]) s.code d.code
  | aluImm op d v => Encoding.aluImm op d v
  | shift op d => registers (word [0xD3]) (shiftNumber op) d.code
  | shiftImm op d count =>
    if count = 1 then registers (word [0xD1]) (shiftNumber op) d.code
    else registers (word [0xC1]) (shiftNumber op) d.code ++ imm8 count
  | signExtend => [0x48, 0x99]
  | divide r signed => registers (word [0xF7]) (if signed then 7 else 6) r.code
  | neg r => registers (word [0xF7]) 3 r.code
  | not r => registers (word [0xF7]) 2 r.code
  | flipBit r bit => registers (word [0x0F, 0xBA]) 7 r.code ++ imm8 bit
  | cmp l r => registers (word [0x39]) r.code l.code
  | test l r => registers (word [0x85]) r.code l.code
  | set c r =>
    registers { force := needsForce r, opcode := [0x0F, UInt8.ofNat (0x90 + c.code)] } 0 r.code
  | sse op d s => registers (vector 0xF2 (sseOpcode op)) d.code s.code
  | compareDouble l r => registers (vector 0x66 0x2E) l.code r.code
  | intToDouble d s => registers { vector 0xF2 0x2A with wide := true } d.code s.code
  | doubleToInt d s => registers { vector 0xF2 0x2C with wide := true } d.code s.code
  | push r => inOpcode false 0x50 r
  | pop r => inOpcode false 0x58 r
  | jmp j => if j.short then 0xEB :: lowByte j.disp else 0xE9 :: imm32 j.disp
  | jcc c j =>
    if j.short then UInt8.ofNat (0x70 + c.code) :: lowByte j.disp
    else [0x0F, UInt8.ofNat (0x80 + c.code)] ++ imm32 j.disp
  | call j => 0xE8 :: imm32 j.disp
  | callRegister r => registers { opcode := [0xFF] } 2 r.code
  | jmpStored disp => [0xFF, 0x25] ++ imm32 disp
  | fill => [0xF3, 0xAA]
  | leave => [0xC9]
  | ret => [0xC3]
  | nop => [0x90]
  | trap => [0xCC]

/-- The size of a jump stub. -/
def jumpStubSize : Nat := 16

/-- A jump to an absolute address, which is stored behind the jump; traps fill the rest. -/
def jumpStub (target : Word) : List UInt8 :=
  (Instruction.jmpStored 0).bytes ++ Encoding.imm64 target ++ [0xCC, 0xCC]

end LiveC

import LiveC.Machine.Encoding

/-!
Reading machine code. `decode?` reads the forms that `Instruction.bytes` writes, and those
alone; `decodeAll` cuts code into instructions, so that the parts give the code back.
-/

namespace LiveC

/-- The condition with a number in opcodes. -/
def Condition.ofCode? : Nat → Option Condition
  | 0x2 => some .below
  | 0x3 => some .aboveEqual
  | 0x4 => some .equal
  | 0x5 => some .notEqual
  | 0x6 => some .belowEqual
  | 0x7 => some .above
  | 0x8 => some .sign
  | 0xA => some .parity
  | 0xB => some .noParity
  | 0xC => some .less
  | 0xD => some .greaterEqual
  | 0xE => some .lessEqual
  | 0xF => some .greater
  | _ => none

theorem Condition.ofCode?_code (c : Condition) : ofCode? c.code = some c := by cases c <;> rfl

namespace Decoding

open Binary (Reader byte)

/-- A word of `n` bytes, least significant first. -/
def word (n : Nat) : Reader Word := return BitVec.ofNat 64 (← Binary.number n)

def imm8 : Reader (BitVec 8) := return (← word 1).setWidth 8
def imm32 : Reader (BitVec 32) := return (← word 4).setWidth 32

/-- A byte that stands for a number of four bytes. -/
def short : Reader (BitVec 32) := return (← imm8).signExtend 32

def gp (n : Nat) : Reader Gp := StateT.lift (Gp.ofCode? n)
def xmm (n : Nat) : Reader Xmm := StateT.lift (Xmm.ofCode? n)

/-- What stands in front of an opcode: a mark and the extension byte. -/
structure Front where
  mark : Option UInt8
  wide : Bool
  /-- What the extension byte adds to the number of the register operand, of the index and
  of the base or second register. -/
  reg : Nat
  index : Nat
  rm : Nat

def front : Reader Front := fun bs =>
  let (mark, bs) := match bs with
    | b :: rest => if b = 0x66 || b = 0xF2 || b = 0xF3 then (some b, rest) else (none, bs)
    | [] => (none, bs)
  match bs with
  | b :: rest =>
    let n := b.toNat
    if n / 16 = 4 then
      some (⟨mark, n / 8 % 2 = 1, n / 4 % 2 * 8, n / 2 % 2 * 8, n % 2 * 8⟩, rest)
    else some (⟨mark, false, 0, 0, 0⟩, bs)
  | [] => none

/-- The second operand of an instruction. -/
inductive Operand where
  | register (n : Nat)
  | memory (a : Address)
  /-- The sum of two registers. -/
  | sum (base index : Gp)
  /-- The memory at a distance behind the instruction. -/
  | following (disp : BitVec 32)

/-- The displacement that an addressing mode announces. -/
def displacement : Nat → Reader (BitVec 32)
  | 0 => return 0
  | 1 => short
  | _ => imm32

/-- The number of the register operand and the second operand. -/
def operands (f : Front) : Reader (Nat × Operand) := do
  let modes := (← byte).toNat
  let mode := modes / 64
  let reg := modes / 8 % 8 + f.reg
  let low := modes % 8
  if mode = 3 then return (reg, .register (low + f.rm))
  else if low = 4 then
    let scaled := (← byte).toNat
    let index := scaled / 8 % 8 + f.index
    let base := scaled % 8
    if scaled / 64 ≠ 0 || (mode = 0 && base = 5) then failure
    let base ← gp (base + f.rm)
    let disp ← displacement mode
    if index = 4 then return (reg, .memory ⟨base, disp⟩)
    else if disp = 0 then return (reg, .sum base (← gp index))
    else failure
  else if mode = 0 && low = 5 then return (reg, .following (← imm32))
  else
    let base ← gp (low + f.rm)
    return (reg, .memory ⟨base, ← displacement mode⟩)

/-- Two registers, the second operand last. -/
def registers (f : Front) : Reader (Nat × Nat) := do
  match ← operands f with
  | (reg, .register rm) => return (reg, rm)
  | _ => failure

/-- A register and a memory operand. -/
def memory (f : Front) : Reader (Nat × Address) := do
  match ← operands f with
  | (reg, .memory a) => return (reg, a)
  | _ => failure

/-- Requires whole words as operands. -/
def wide (f : Front) : Reader Unit := if f.wide then return () else failure

/-- A load, or an extension in place when both operands are one register. -/
def loading (f : Front) (w : Width) (signed : Bool) : Reader (Instruction Jump) := do
  match ← operands f with
  | (reg, .memory a) => return .load (← gp reg) a w signed
  | (reg, .register rm) => if reg = rm then return .extend (← gp rm) w signed else failure
  | _ => failure

/-- An operation of words, whose destination is the second operand. -/
def pair (f : Front) (i : Gp → Gp → Instruction Jump) : Reader (Instruction Jump) := do
  wide f
  let (reg, rm) ← registers f
  return i (← gp rm) (← gp reg)

def aluOfNumber : Nat → Reader AluOp
  | 0 => return .add
  | 1 => return .or
  | 4 => return .and
  | 5 => return .sub
  | 6 => return .xor
  | _ => failure

def shiftOfNumber : Nat → Reader ShiftOp
  | 4 => return .shl
  | 5 => return .shr
  | 7 => return .sar
  | _ => failure

/-- An operation of words with an immediate. -/
def aluImm (f : Front) (immediate : Reader (BitVec 32)) : Reader (Instruction Jump) := do
  wide f
  let (number, rm) ← registers f
  return .aluImm (← aluOfNumber number) (← gp rm) (← immediate)

def imulImm (f : Front) (immediate : Reader (BitVec 32)) : Reader (Instruction Jump) := do
  wide f
  let (reg, rm) ← registers f
  if reg = rm then return .aluImm .imul (← gp rm) (← immediate) else failure

/-- An operation of words with an immediate on the accumulator. -/
def accumulator (f : Front) (op : AluOp) : Reader (Instruction Jump) := do
  wide f
  return .aluImm op .rax (← imm32)

/-- A shift; its count is read after the operands. -/
def shifting (f : Front) (i : ShiftOp → Gp → Reader (Instruction Jump)) :
    Reader (Instruction Jump) := do
  wide f
  let (number, rm) ← registers f
  i (← shiftOfNumber number) (← gp rm)

/-- Instructions that a mark and an opcode of one byte select. -/
def oneByte (f : Front) (op : Nat) : Reader (Instruction Jump) := do
  match op with
  | 0x01 => pair f (.alu .add)
  | 0x09 => pair f (.alu .or)
  | 0x21 => pair f (.alu .and)
  | 0x29 => pair f (.alu .sub)
  | 0x31 =>
    if f.wide then pair f (.alu .xor)
    else
      let (reg, rm) ← registers f
      if reg = rm then return .clear (← gp rm) else failure
  | 0x39 => pair f .cmp
  | 0x85 => pair f .test
  | 0x05 => accumulator f .add
  | 0x0D => accumulator f .or
  | 0x25 => accumulator f .and
  | 0x2D => accumulator f .sub
  | 0x35 => accumulator f .xor
  | 0x63 => do wide f; loading f .w32 true
  | 0x69 => imulImm f imm32
  | 0x6B => imulImm f short
  | 0x81 => aluImm f imm32
  | 0x83 => aluImm f short
  | 0x88 => do
    let (reg, a) ← memory f
    return .store a (← gp reg) .w8
  | 0x89 =>
    match ← operands f with
    | (reg, .memory a) => return .store a (← gp reg) (if f.wide then .w64 else .w32)
    | (reg, .register rm) =>
      if f.wide then return .mov (← gp rm) (← gp reg)
      else if reg = rm then return .extend (← gp rm) .w32 false
      else failure
    | _ => failure
  | 0x8B => do
    let (reg, a) ← memory f
    return .load (← gp reg) a (if f.wide then .w64 else .w32) false
  | 0x8D =>
    match ← operands f with
    | (reg, .memory a) => do
      wide f
      return .lea (← gp reg) a
    | (reg, .sum base index) => if f.wide then failure else return .leaSum (← gp reg) base index
    | _ => failure
  | 0x90 => return .nop
  | 0x99 => do
    wide f
    return .signExtend
  | 0xC1 => shifting f fun op d => return .shiftImm op d (← imm8)
  | 0xC3 => return .ret
  | 0xC9 => return .leave
  | 0xCC => return .trap
  | 0xD1 => shifting f fun op d => return .shiftImm op d 1
  | 0xD3 => shifting f fun op d => return .shift op d
  | 0xE8 => return .call ⟨← imm32, false⟩
  | 0xE9 => return .jmp ⟨← imm32, false⟩
  | 0xEB => return .jmp ⟨← short, true⟩
  | 0xF7 => do
    wide f
    let (number, rm) ← registers f
    let r ← gp rm
    match number with
    | 2 => return .not r
    | 3 => return .neg r
    | 6 => return .divide r false
    | 7 => return .divide r true
    | _ => failure
  | 0xFF =>
    match ← operands f with
    | (2, .register rm) => return .callRegister (← gp rm)
    | (4, .following disp) => return .jmpStored disp
    | _ => failure
  | op =>
    let r := op % 8 + f.rm
    match op / 8 with
    | 0xA => return .push (← gp r)
    | 0xB => return .pop (← gp r)
    | 0x17 =>
      if f.wide then return .movImm (← gp r) (← word 8)
      else return .movImm32 (← gp r) (← imm32)
    | _ =>
      if op / 16 = 7 then
        let c ← StateT.lift (Condition.ofCode? (op % 16))
        return .jcc c ⟨← short, true⟩
      else failure

/-- Instructions without a mark whose opcode is `0F` and another byte. -/
def twoBytes (f : Front) (op : Nat) : Reader (Instruction Jump) := do
  match op with
  | 0xAF => do
    wide f
    let (reg, rm) ← registers f
    return .alu .imul (← gp reg) (← gp rm)
  | 0xB6 => loading f .w8 false
  | 0xB7 => loading f .w16 false
  | 0xBE => do wide f; loading f .w8 true
  | 0xBF => do wide f; loading f .w16 true
  | 0xBA => do
    wide f
    match ← registers f with
    | (7, rm) => return .flipBit (← gp rm) (← imm8)
    | _ => failure
  | op =>
    match op / 16 with
    | 8 => return .jcc (← StateT.lift (Condition.ofCode? (op % 16))) ⟨← imm32, false⟩
    | 9 =>
      let c ← StateT.lift (Condition.ofCode? (op % 16))
      match ← registers f with
      | (0, rm) => return .set c (← gp rm)
      | _ => failure
    | _ => failure

/-- Instructions that the mark `66` selects. -/
def marked66 (f : Front) (op : Nat) : Reader (Instruction Jump) := do
  match op with
  | 0x28 => do
    let (reg, rm) ← registers f
    return .movDouble (← xmm reg) (← xmm rm)
  | 0x2E => do
    let (reg, rm) ← registers f
    return .compareDouble (← xmm reg) (← xmm rm)
  | 0x6E => do
    wide f
    let (reg, rm) ← registers f
    return .movToXmm (← xmm reg) (← gp rm)
  | 0x7E => do
    wide f
    let (reg, rm) ← registers f
    return .movToGp (← gp rm) (← xmm reg)
  | 0xD6 => do
    let (reg, a) ← memory f
    return .storeDouble a (← xmm reg)
  | _ => failure

/-- Instructions that the mark `F2` selects. -/
def markedF2 (f : Front) (op : Nat) : Reader (Instruction Jump) := do
  let (reg, rm) ← registers f
  match op with
  | 0x2A => do
    wide f
    return .intToDouble (← xmm reg) (← gp rm)
  | 0x2C => do
    wide f
    return .doubleToInt (← gp reg) (← xmm rm)
  | 0x58 => return .sse .add (← xmm reg) (← xmm rm)
  | 0x59 => return .sse .mul (← xmm reg) (← xmm rm)
  | 0x5C => return .sse .sub (← xmm reg) (← xmm rm)
  | 0x5E => return .sse .div (← xmm reg) (← xmm rm)
  | _ => failure

/-- One instruction. -/
def instruction : Reader (Instruction Jump) := do
  let f ← front
  let op := (← byte).toNat
  match f.mark, op with
  | none, 0x0F => twoBytes f (← byte).toNat
  | none, op => oneByte f op
  | some 0x66, 0x89 => do
    let (reg, a) ← memory f
    return .store a (← gp reg) .w16
  | some 0x66, 0x0F => marked66 f (← byte).toNat
  | some 0xF2, 0x0F => markedF2 f (← byte).toNat
  | some 0xF3, 0x0F => do
    if (← byte) ≠ 0x7E then failure
    let (reg, a) ← memory f
    return .loadDouble (← xmm reg) a
  | some 0xF3, 0xAA => return .fill
  | _, _ => failure

end Decoding

/-- The instruction at the front of bytes, and the bytes behind it. -/
def Instruction.decode? (bs : List UInt8) : Option (Instruction Jump × List UInt8) :=
  Decoding.instruction.run bs

/-- Cuts code into instructions with their bytes; a byte at which none starts stands alone. -/
def decodeAll (bs : List UInt8) : List (List UInt8 × Option (Instruction Jump)) :=
  match bs with
  | [] => []
  | b :: tail =>
    match Instruction.decode? (b :: tail) with
    | some (i, rest) =>
      if _shorter : rest.length < (b :: tail).length then
        ((b :: tail).take ((b :: tail).length - rest.length), some i) :: decodeAll rest
      else ([b], none) :: decodeAll tail
    | none => ([b], none) :: decodeAll tail
termination_by bs.length
decreasing_by
  · exact _shorter
  · exact Nat.lt_succ_self _
  · exact Nat.lt_succ_self _

end LiveC

import LiveC.Machine.Register

/-!
The instructions that compiled code consists of, over a type of branch targets: labels
while code is put together, jumps of known size and distance once it is laid out.
-/

namespace LiveC

/-- Conditions of conditional jumps and of `set`. -/
inductive Condition where
  | equal | notEqual | less | lessEqual | greater | greaterEqual
  | below | belowEqual | above | aboveEqual | parity | noParity | sign
  deriving DecidableEq, Repr

/-- Integer operations with two operands. -/
inductive AluOp where
  | add | sub | and | or | xor | imul
  deriving DecidableEq, Repr

inductive ShiftOp where
  | shl | shr | sar
  deriving DecidableEq, Repr

/-- Operations on doubles. -/
inductive SseOp where
  | add | sub | mul | div
  deriving DecidableEq, Repr

/-- The memory at a register plus a displacement. -/
structure Address where
  base : Gp
  disp : BitVec 32
  deriving DecidableEq, Repr

/-- An instruction with branch targets of type `τ`. -/
inductive Instruction (τ : Type) where
  | mov (d s : Gp)
  | movDouble (d s : Xmm)
  | movToXmm (d : Xmm) (s : Gp)
  | movToGp (d : Gp) (s : Xmm)
  /-- Sets a register to zero. -/
  | clear (d : Gp)
  | movImm (d : Gp) (v : Word)
  /-- Sets a register to a zero-extended number of 32 bits. -/
  | movImm32 (d : Gp) (v : BitVec 32)
  /-- Loads from memory and extends to a word. -/
  | load (d : Gp) (a : Address) (w : Width) (signed : Bool)
  | loadDouble (d : Xmm) (a : Address)
  | store (a : Address) (s : Gp) (w : Width)
  | storeDouble (a : Address) (s : Xmm)
  | lea (d : Gp) (a : Address)
  /-- The low 32 bits of the sum of two registers. -/
  | leaSum (d base index : Gp)
  /-- Extends the low bits of a register to a word; at full width it does nothing. -/
  | extend (r : Gp) (w : Width) (signed : Bool)
  | alu (op : AluOp) (d s : Gp)
  | aluImm (op : AluOp) (d : Gp) (v : BitVec 32)
  /-- Shifts by the count in `cl`. -/
  | shift (op : ShiftOp) (d : Gp)
  | shiftImm (op : ShiftOp) (d : Gp) (count : BitVec 8)
  /-- Extends the sign of `rax` into `rdx`. -/
  | signExtend
  /-- Divides `rdx:rax`: the quotient goes to `rax`, the remainder to `rdx`. -/
  | divide (r : Gp) (signed : Bool)
  | neg (r : Gp)
  | not (r : Gp)
  | flipBit (r : Gp) (bit : BitVec 8)
  | cmp (l r : Gp)
  | test (l r : Gp)
  /-- Sets the low byte of a register to 0 or 1. -/
  | set (c : Condition) (r : Gp)
  | sse (op : SseOp) (d s : Xmm)
  | compareDouble (l r : Xmm)
  | intToDouble (d : Xmm) (s : Gp)
  | doubleToInt (d : Gp) (s : Xmm)
  | push (r : Gp)
  | pop (r : Gp)
  | jmp (target : τ)
  | jcc (c : Condition) (target : τ)
  | call (target : τ)
  | callRegister (r : Gp)
  /-- Jumps to the address stored at a distance behind the instruction. -/
  | jmpStored (disp : BitVec 32)
  /-- Fills `rcx` bytes at `rdi` with `al`. -/
  | fill
  | leave
  | ret
  | nop
  | trap
  deriving DecidableEq, Repr

namespace Instruction

/-- Replaces the branch target. -/
def map {τ σ : Type} (f : τ → σ) : Instruction τ → Instruction σ
  | mov d s => mov d s
  | movDouble d s => movDouble d s
  | movToXmm d s => movToXmm d s
  | movToGp d s => movToGp d s
  | clear d => clear d
  | movImm d v => movImm d v
  | movImm32 d v => movImm32 d v
  | load d a w signed => load d a w signed
  | loadDouble d a => loadDouble d a
  | store a s w => store a s w
  | storeDouble a s => storeDouble a s
  | lea d a => lea d a
  | leaSum d b i => leaSum d b i
  | extend r w signed => extend r w signed
  | alu op d s => alu op d s
  | aluImm op d v => aluImm op d v
  | shift op d => shift op d
  | shiftImm op d count => shiftImm op d count
  | signExtend => signExtend
  | divide r signed => divide r signed
  | neg r => neg r
  | not r => not r
  | flipBit r bit => flipBit r bit
  | cmp l r => cmp l r
  | test l r => test l r
  | set c r => set c r
  | sse op d s => sse op d s
  | compareDouble l r => compareDouble l r
  | intToDouble d s => intToDouble d s
  | doubleToInt d s => doubleToInt d s
  | push r => push r
  | pop r => pop r
  | jmp t => jmp (f t)
  | jcc c t => jcc c (f t)
  | call t => call (f t)
  | callRegister r => callRegister r
  | jmpStored disp => jmpStored disp
  | fill => fill
  | leave => leave
  | ret => ret
  | nop => nop
  | trap => trap

/-- The branch target, if there is one. -/
def target? {τ : Type} : Instruction τ → Option τ
  | jmp t | jcc _ t | call t => some t
  | _ => none

end Instruction

end LiveC

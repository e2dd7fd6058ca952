import LiveC.Machine.State

/-!
What instructions do. An instruction changes the machine and says where control goes; how
branch targets and return addresses are found is left to whoever runs the code, so the same
effects serve code with labels and code in memory.
-/

namespace LiveC

/-- Where control goes behind an instruction with branch targets of type `τ`. -/
inductive Flow (τ : Type) where
  /-- To the next instruction. -/
  | next
  | branch (target : τ)
  | call (target : τ)
  | jumpTo (address : Word)
  | callTo (address : Word)
  /-- To the address stored at a distance behind the instruction. -/
  | jumpStored (disp : BitVec 32)
  deriving DecidableEq, Repr

/-- Why the machine stops. -/
inductive Fault where
  /-- A division by zero, or one whose quotient is no word. -/
  | divide
  | trap
  /-- There is no instruction at an address. -/
  | noCode (address : Word)
  /-- The bound on the number of steps is reached. -/
  | steps
  deriving DecidableEq, Repr

/-- The result of an operation and its flags. Multiplication keeps the flags: nothing looks at
what it does to them, as with shifts and divisions. -/
def AluOp.apply (op : AluOp) (f : Flags) (a b : Word) : Word × Flags :=
  match op with
  | add => (a + b, .ofSum a b)
  | sub => (a - b, .ofDifference a b)
  | and => (a &&& b, .ofResult (a &&& b))
  | or => (a ||| b, .ofResult (a ||| b))
  | xor => (a ^^^ b, .ofResult (a ^^^ b))
  | imul => (a * b, f)

/-- Shifts take their count modulo the size of a word. -/
def ShiftOp.apply (op : ShiftOp) (a : Word) (count : Nat) : Word :=
  match op with
  | shl => a <<< (count % 64)
  | shr => a >>> (count % 64)
  | sar => a.sshiftRight (count % 64)

def SseOp.apply : SseOp → Double → Double → Double
  | add => .add
  | sub => .sub
  | mul => .mul
  | div => .div

namespace Machine

/-- Divides the number in `rdx:rax` without regard to signs. -/
def divideUnsigned (m : Machine) (divisor : Word) : Except Fault Machine :=
  let dividend := (m.gp .rdx).toNat * Word.modulus + (m.gp .rax).toNat
  if divisor = 0 || Word.modulus ≤ dividend / divisor.toNat then .error .divide
  else .ok <| (m.setGp .rax (BitVec.ofNat 64 (dividend / divisor.toNat))).setGp .rdx
    (BitVec.ofNat 64 (dividend % divisor.toNat))

/-- Divides the signed number in `rdx:rax`, rounding toward zero. -/
def divideSigned (m : Machine) (divisor : Word) : Except Fault Machine :=
  let dividend := (m.gp .rdx).toInt * Word.modulus + (m.gp .rax).toNat
  let quotient := dividend.tdiv divisor.toInt
  if divisor = 0 || quotient < Word.least || Word.greatest < quotient then .error .divide
  else .ok <| (m.setGp .rax (BitVec.ofInt 64 quotient)).setGp .rdx
    (BitVec.ofInt 64 (dividend.tmod divisor.toInt))

/-- An operation with a destination register. -/
def alu (m : Machine) (op : AluOp) (d : Gp) (v : Word) : Machine :=
  let (result, flags) := op.apply m.flags (m.gp d) v
  { m.setGp d result with flags }

end Machine

namespace Instruction

/-- What an instruction does to the machine, and where control goes. -/
def effect {τ : Type} (i : Instruction τ) (m : Machine) : Except Fault (Machine × Flow τ) :=
  let next (m : Machine) : Except Fault (Machine × Flow τ) := .ok (m, .next)
  match i with
  | mov d s => next (m.setGp d (m.gp s))
  | movDouble d s => next (m.setXmm d (m.xmm s))
  | movToXmm d s => next (m.setXmm d ⟨m.gp s⟩)
  | movToGp d s => next (m.setGp d (m.xmm s).bits)
  | clear d => next { m.setGp d 0 with flags := .ofResult 0 }
  | movImm d v => next (m.setGp d v)
  | movImm32 d v => next (m.setGp d (v.setWidth 64))
  | load d a w signed => next (m.setGp d ((⟨w, signed⟩ : IntType).wrap (m.load a w)))
  | loadDouble d a => next (m.setXmm d ⟨m.load a .w64⟩)
  | store a s w => next (m.storeAt (m.locate a) w (m.gp s))
  | storeDouble a s => next (m.storeAt (m.locate a) .w64 (m.xmm s).bits)
  | lea d a => next (m.setGp d (m.locate a))
  | leaSum d b x => next (m.setGp d (((m.gp b + m.gp x).setWidth 32).setWidth 64))
  | extend r w signed => next (m.setGp r ((⟨w, signed⟩ : IntType).wrap (m.gp r)))
  | alu op d s => next (m.alu op d (m.gp s))
  | aluImm op d v => next (m.alu op d (v.signExtend 64))
  | shift op d => next (m.setGp d (op.apply (m.gp d) (m.gp .rcx).toNat))
  | shiftImm op d count => next (m.setGp d (op.apply (m.gp d) count.toNat))
  | signExtend => next (m.setGp .rdx ((m.gp .rax).sshiftRight 63))
  | divide r signed => do
    next (← if signed then m.divideSigned (m.gp r) else m.divideUnsigned (m.gp r))
  | neg r => next { m.setGp r (-m.gp r) with flags := .ofDifference 0 (m.gp r) }
  | not r => next (m.setGp r (~~~m.gp r))
  | flipBit r bit => next (m.setGp r (m.gp r ^^^ (1 <<< (bit.toNat % 64))))
  | cmp l r => next { m with flags := .ofDifference (m.gp l) (m.gp r) }
  | test l r => next { m with flags := .ofResult (m.gp l &&& m.gp r) }
  | set c r =>
    next (m.setGp r ((m.gp r &&& ~~~0xFF) ||| (if c.holds m.flags then 1 else 0)))
  | sse op d s => next (m.setXmm d (op.apply (m.xmm d) (m.xmm s)))
  | compareDouble l r =>
    next { m with flags := .ofComparison ((m.xmm l).compare? (m.xmm r)) }
  | intToDouble d s => next (m.setXmm d (.ofInt (m.gp s)))
  | doubleToInt d s => next (m.setGp d (m.xmm s).toIntOrMin)
  | push r => next (m.push (m.gp r))
  | pop r =>
    let (v, m) := m.pop
    next (m.setGp r v)
  | jmp t => .ok (m, .branch t)
  | jcc c t => .ok (m, if c.holds m.flags then .branch t else .next)
  | call t => .ok (m, .call t)
  | callRegister r => .ok (m, .callTo (m.gp r))
  | jmpStored disp => .ok (m, .jumpStored disp)
  | fill =>
    let count := m.gp .rcx
    let start := m.gp .rdi
    let memory := m.memory.fill start (UInt8.ofNat (m.gp .rax).toNat) count.toNat
    next ((({ m with memory } : Machine).setGp .rdi (start + count)).setGp .rcx 0)
  | leave =>
    let (v, m) := (m.setGp .rsp (m.gp .rbp)).pop
    next (m.setGp .rbp v)
  | ret =>
    let (address, m) := m.pop
    .ok (m, .jumpTo address)
  | nop => next m
  | trap => .error .trap

end Instruction

end LiveC

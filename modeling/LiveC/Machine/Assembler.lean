import LiveC.Machine.Code

/-!
The assembler: appends instructions whose operands are checked. A refused step leaves the
code as it was, but for the `nop` that keeps two labels apart.
-/

namespace LiveC

/-- Why code cannot be assembled. -/
inductive AssemblyError where
  | invalidRegister (r : RegisterId)
  | unboundLabel (l : Label)
  | labelRebound (l : Label)
  /-- An immediate does not fit its field. -/
  | immediateRange
  deriving DecidableEq, Repr

def AssemblyError.message : AssemblyError → String
  | invalidRegister r => s!"invalid register for operation: {r.render}"
  | unboundLabel l => s!"label #{l} is used but never placed"
  | labelRebound l => s!"label #{l} placed twice"
  | immediateRange => "assembly error: immediate out of range"

/-- Code refers only to labels that it places. -/
def Code.assemble {ρ : Type} (c : Code ρ) (labelCount : Nat) :
    Except AssemblyError (Assembled ρ) :=
  match (List.range labelCount).find? (!c.labels.contains ·) with
  | some l => .error (.unboundLabel l)
  | none => .ok c.layout

/-- Code under construction. -/
structure Assembler where
  /-- The elements so far, the last one first. -/
  reversed : Code Unit := []
  labelCount : Nat := 0
  /-- How many instructions there are. -/
  count : Nat := 0

/-- A step of the assembler. -/
abbrev Assembling := EStateM AssemblyError Assembler

namespace Assembling

def emit (i : Instruction Label) : Assembling Unit :=
  modify fun a => { a with reversed := .instr i :: a.reversed, count := a.count + 1 }

def emitLinked (f : Field) : Assembling Unit :=
  modify fun a => { a with reversed := .linked f () :: a.reversed, count := a.count + 1 }

/-- The general register with an identifier. -/
def gp (r : RegisterId) : Assembling Gp :=
  match r.gp? with
  | some g => return g
  | none => throw (.invalidRegister r)

/-- The vector register with an identifier. -/
def xmm (r : RegisterId) : Assembling Xmm :=
  match r.xmm? with
  | some x => return x
  | none => throw (.invalidRegister r)

/-! ### Labels -/

def newLabel : Assembling Label := fun a => .ok a.labelCount { a with labelCount := a.labelCount + 1 }

/-- Requires a label that was created. -/
def known (l : Label) : Assembling Unit := do
  if (← get).labelCount ≤ l then throw (.unboundLabel l)

/-- Places a label at the next instruction. -/
def bind (l : Label) : Assembling Unit := do
  let a ← get
  if Code.labels a.reversed |>.contains l then throw (.labelRebound l)
  if a.reversed.head? matches some (.label _) then emit .nop
  known l
  modify fun a => { a with reversed := .label l :: a.reversed }

/-! ### Moves -/

/-- Moves between registers of either bank. -/
def mov (d s : RegisterId) : Assembling Unit := do
  match d.bank, s.bank with
  | .general, .general => emit (.mov (← gp d) (← gp s))
  | .vector, .vector => emit (.movDouble (← xmm d) (← xmm s))
  | .vector, .general => emit (.movToXmm (← xmm d) (← gp s))
  | .general, .vector => emit (.movToGp (← gp d) (← xmm s))

/-- The instruction that sets a register to a word. -/
def settingWord (d : Gp) (v : Word) : Instruction Label :=
  if v = 0 then .clear d else .movImm d v

def movImm (d : RegisterId) (v : Word) : Assembling Unit := do
  emit (settingWord (← gp d) v)

def load (d base : RegisterId) (disp : BitVec 32) (w : Width) (signed : Bool) :
    Assembling Unit := do
  let base ← gp base
  emit (.load (← gp d) ⟨base, disp⟩ w signed)

def loadDouble (d base : RegisterId) (disp : BitVec 32) : Assembling Unit := do
  emit (.loadDouble (← xmm d) ⟨← gp base, disp⟩)

def store (base : RegisterId) (disp : BitVec 32) (s : RegisterId) (w : Width) :
    Assembling Unit := do
  let base ← gp base
  emit (.store ⟨base, disp⟩ (← gp s) w)

def storeDouble (base : RegisterId) (disp : BitVec 32) (s : RegisterId) : Assembling Unit := do
  let base ← gp base
  emit (.storeDouble ⟨base, disp⟩ (← xmm s))

def lea (d base : RegisterId) (disp : BitVec 32) : Assembling Unit := do
  emit (.lea (← gp d) ⟨← gp base, disp⟩)

/-- Extends the low bits of a register; there is nothing to do at full width. -/
def extend (r : RegisterId) (w : Width) (signed : Bool) : Assembling Unit := do
  if w != .w64 then emit (.extend (← gp r) w signed)

/-! ### Integers -/

def alu (op : AluOp) (d s : RegisterId) : Assembling Unit := do
  emit (.alu op (← gp d) (← gp s))

def aluImm (op : AluOp) (d : RegisterId) (v : BitVec 32) : Assembling Unit := do
  emit (.aluImm op (← gp d) v)

/-- A number as a byte, read as signed or as unsigned. -/
def byteImmediate (v : BitVec 32) : Assembling (BitVec 8) :=
  if -128 ≤ v.toInt ∧ v.toInt ≤ 255 then return v.setWidth 8 else throw .immediateRange

def shift (op : ShiftOp) (d : RegisterId) : Assembling Unit := do
  emit (.shift op (← gp d))

def shiftImm (op : ShiftOp) (d : RegisterId) (count : BitVec 32) : Assembling Unit := do
  let d ← gp d
  emit (.shiftImm op d (← byteImmediate count))

/-- Divides `rax`; the divisor may not be one of the registers that hold the dividend. -/
def divide (r : RegisterId) (signed : Bool) : Assembling Unit := do
  if r = .ofGp .rax || r = .ofGp .rdx then throw (.invalidRegister r)
  let r ← gp r
  emit (if signed then .signExtend else .clear .rdx)
  emit (.divide r signed)

def neg (r : RegisterId) : Assembling Unit := do emit (.neg (← gp r))

def not (r : RegisterId) : Assembling Unit := do emit (.not (← gp r))

def flipBit (r : RegisterId) (bit : BitVec 32) : Assembling Unit := do
  let r ← gp r
  emit (.flipBit r (← byteImmediate bit))

def cmp (l r : RegisterId) : Assembling Unit := do emit (.cmp (← gp l) (← gp r))

def test (l r : RegisterId) : Assembling Unit := do emit (.test (← gp l) (← gp r))

/-- Sets a register to the truth value of a condition. -/
def set (c : Condition) (r : RegisterId) : Assembling Unit := do
  let r ← gp r
  emit (.set c r)
  emit (.extend r .w8 false)

/-! ### Doubles -/

def sse (op : SseOp) (d s : RegisterId) : Assembling Unit := do
  emit (.sse op (← xmm d) (← xmm s))

def compareDouble (l r : RegisterId) : Assembling Unit := do
  emit (.compareDouble (← xmm l) (← xmm r))

def intToDouble (d s : RegisterId) : Assembling Unit := do
  emit (.intToDouble (← xmm d) (← gp s))

def doubleToInt (d s : RegisterId) : Assembling Unit := do
  emit (.doubleToInt (← gp d) (← xmm s))

/-! ### Stack and control flow -/

def push (r : RegisterId) : Assembling Unit := do emit (.push (← gp r))

def pop (r : RegisterId) : Assembling Unit := do emit (.pop (← gp r))

def jmp (l : Label) : Assembling Unit := do
  known l
  emit (.jmp l)

def jcc (c : Condition) (l : Label) : Assembling Unit := do
  known l
  emit (.jcc c l)

def call (l : Label) : Assembling Unit := do
  known l
  emit (.call l)

def callRegister (r : RegisterId) : Assembling Unit := do emit (.callRegister (← gp r))

/-- A call whose distance is filled in by the linker. -/
def callLinked : Assembling Unit := emitLinked .call

/-- A move of an address that is filled in by the linker. -/
def movLinked (d : RegisterId) : Assembling Unit := do emitLinked (.address (← gp d))

/-- Tells a callee the number of vector registers that hold arguments. -/
def setVectorCount (n : BitVec 32) : Assembling Unit := emit (.movImm32 .rax n)

/-- Opens a frame of a size. -/
def prologue (size : BitVec 32) : Assembling Unit := do
  emit (.push .rbp)
  emit (.mov .rbp .rsp)
  if size != 0 then emit (.aluImm .sub .rsp size)

/-- Closes the frame and returns. -/
def epilogue : Assembling Unit := do
  emit .leave
  emit .ret

end Assembling

/-- Lays out what was assembled. -/
def Assembler.finish (a : Assembler) : Except AssemblyError (Assembled Unit) :=
  Code.assemble a.reversed.reverse a.labelCount

end LiveC

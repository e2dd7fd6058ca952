import LiveC.Machine.Assembler

/-!
Steps of the assembler in words: the name of the step, then a word for each operand.
Registers are written by their names, or by a bank and a number; labels, immediates and widths
as decimal numbers; operations and conditions by their names.
-/

namespace LiveC

namespace RegisterId

/-- The register with a name such as `rax` or `xmm3`, or of a bank and a number such as
`gp:17`, which need not exist. -/
def ofName? (s : String) : Option RegisterId :=
  let numbered (bank : Bank) (n : String) : Option RegisterId := n.toNat?.map fun id => ⟨bank, id⟩
  match s.splitOn ":" with
  | ["gp", n] => numbered .general n
  | ["xmm", n] => numbered .vector n
  | _ =>
    let registers := Gp.all.map ofGp ++ ((List.range 16).filterMap Xmm.ofCode?).map ofXmm
    registers.find? (·.render == s)

end RegisterId

def AluOp.names : List (String × AluOp) :=
  [("Add", add), ("Sub", sub), ("And", and), ("Or", or), ("Xor", xor), ("Imul", imul)]

def ShiftOp.names : List (String × ShiftOp) := [("Shl", shl), ("Shr", shr), ("Sar", sar)]

def SseOp.names : List (String × SseOp) := [("Add", add), ("Sub", sub), ("Mul", mul), ("Div", div)]

def Condition.names : List (String × Condition) :=
  [("Equal", equal), ("NotEqual", notEqual), ("Less", less), ("LessEqual", lessEqual),
   ("Greater", greater), ("GreaterEqual", greaterEqual), ("Below", below),
   ("BelowEqual", belowEqual), ("Above", above), ("AboveEqual", aboveEqual),
   ("Parity", parity), ("NoParity", noParity), ("Sign", sign)]

namespace Assembling

def signedness? : String → Option Bool
  | "true" => some true
  | "false" => some false
  | _ => none

def width? (s : String) : Option Width := do Width.ofBytes? (← s.toNat?)

def immediate? (s : String) : Option (BitVec 32) := s.toInt?.map (BitVec.ofInt 32)

/-- Repeats a step. -/
def times : Nat → Assembling Unit → Assembling Unit
  | 0, _ => return ()
  | n + 1, step => do
    step
    times n step

/-- A step without a result. -/
def plain (step : Assembling Unit) : Option (Assembling (Option Label)) :=
  some do
    step
    return none

open RegisterId (ofName?) in
/-- The step that words describe; creating a label gives the label. -/
def ofWords? : List String → Option (Assembling (Option Label))
  | ["new_label"] => some do return some (← newLabel)
  | ["bind", l] => do plain (bind (← l.toNat?))
  | ["mov", d, s] => do plain (mov (← ofName? d) (← ofName? s))
  | ["mov_imm", d, n] => do plain (movImm (← ofName? d) (BitVec.ofInt 64 (← n.toInt?)))
  | ["load", d, b, n, w, s] => do
    plain (load (← ofName? d) (← ofName? b) (← immediate? n) (← width? w) (← signedness? s))
  | ["load_f64", d, b, n] => do
    plain (loadDouble (← ofName? d) (← ofName? b) (← immediate? n))
  | ["store", b, n, s, w] => do
    plain (store (← ofName? b) (← immediate? n) (← ofName? s) (← width? w))
  | ["store_f64", b, n, s] => do
    plain (storeDouble (← ofName? b) (← immediate? n) (← ofName? s))
  | ["lea", d, b, n] => do plain (lea (← ofName? d) (← ofName? b) (← immediate? n))
  | ["extend", r, w, s] => do plain (extend (← ofName? r) (← width? w) (← signedness? s))
  | ["alu", o, d, s] => do plain (alu (← AluOp.names.lookup o) (← ofName? d) (← ofName? s))
  | ["alu_imm", o, d, n] => do
    plain (aluImm (← AluOp.names.lookup o) (← ofName? d) (← immediate? n))
  | ["shift", o, d] => do plain (shift (← ShiftOp.names.lookup o) (← ofName? d))
  | ["shift_imm", o, d, n] => do
    plain (shiftImm (← ShiftOp.names.lookup o) (← ofName? d) (← immediate? n))
  | ["divide", r, s] => do plain (divide (← ofName? r) (← signedness? s))
  | ["neg", r] => do plain (neg (← ofName? r))
  | ["not", r] => do plain (not (← ofName? r))
  | ["flip_bit", r, n] => do plain (flipBit (← ofName? r) (← immediate? n))
  | ["cmp", a, b] => do plain (cmp (← ofName? a) (← ofName? b))
  | ["test", a, b] => do plain (test (← ofName? a) (← ofName? b))
  | ["set", c, r] => do plain (set (← Condition.names.lookup c) (← ofName? r))
  | ["sse", o, d, s] => do plain (sse (← SseOp.names.lookup o) (← ofName? d) (← ofName? s))
  | ["ucomisd", a, b] => do plain (compareDouble (← ofName? a) (← ofName? b))
  | ["cvt_int_to_f64", x, r] => do plain (intToDouble (← ofName? x) (← ofName? r))
  | ["cvt_f64_to_int", r, x] => do plain (doubleToInt (← ofName? r) (← ofName? x))
  | ["push", r] => do plain (push (← ofName? r))
  | ["pop", r] => do plain (pop (← ofName? r))
  | ["jmp", l] => do plain (jmp (← l.toNat?))
  | ["jcc", c, l] => do plain (jcc (← Condition.names.lookup c) (← l.toNat?))
  | ["call", l] => do plain (call (← l.toNat?))
  | ["call_indirect", r] => do plain (callRegister (← ofName? r))
  | ["call_external"] => plain callLinked
  | ["mov_abs", r] => do plain (movLinked (← ofName? r))
  | ["rep_stosb"] => plain (emit .fill)
  | ["set_vector_count", n] => do plain (setVectorCount (← immediate? n))
  | ["prologue", n] => do plain (prologue (← immediate? n))
  | ["epilogue"] => plain epilogue
  | ["ret"] => plain (emit .ret)
  | ["nop"] => plain (emit .nop)
  | ["nop", n] => do plain (times (← n.toNat?) (emit .nop))
  | _ => none

end Assembling

end LiveC

import LiveC.Machine.Decoding

/-!
Listings of machine code: a line for each instruction, with its address and its text.
-/

namespace LiveC

/-- The suffix by which instructions name a condition. -/
def Condition.mnemonic : Condition → String
  | equal => "e"
  | notEqual => "ne"
  | less => "l"
  | lessEqual => "le"
  | greater => "g"
  | greaterEqual => "ge"
  | below => "b"
  | belowEqual => "be"
  | above => "a"
  | aboveEqual => "ae"
  | parity => "p"
  | noParity => "np"
  | sign => "s"

def AluOp.mnemonic : AluOp → String
  | add => "add"
  | sub => "sub"
  | and => "and"
  | or => "or"
  | xor => "xor"
  | imul => "imul"

def ShiftOp.mnemonic : ShiftOp → String
  | shl => "shl"
  | shr => "shr"
  | sar => "sar"

def SseOp.mnemonic : SseOp → String
  | add => "addsd"
  | sub => "subsd"
  | mul => "mulsd"
  | div => "divsd"

namespace Listing

/-- The hexadecimal digits of a number, at least `width` of them. -/
def hex (upper : Bool) (width : Nat) (n : Nat) : String :=
  let digits := Nat.toDigits 16 n
  let digits := List.replicate (width - digits.length) '0' ++ digits
  String.ofList (if upper then digits.map Char.toUpper else digits)

/-- Numbers below ten are written in decimal, larger ones in hexadecimal, with at least
`width` digits; a digit comes first. -/
def padded (width n : Nat) : String :=
  if n < 10 then toString n
  else
    let digits := hex true width n
    (if digits.front.isDigit then digits else "0" ++ digits) ++ "h"

def number (n : Nat) : String := padded 1 n

/-- The target of a branch, as an address in full. -/
def branchTarget (a : Word) : String := padded 16 a.toNat

/-- A number of 32 bits that stands for a word. -/
def immediate (v : BitVec 32) : String := number (v.signExtend 64).toNat

/-- A memory operand: the displacement has a sign and is left out if it is zero. -/
def address (a : Address) : String :=
  let base := a.base.name .w64
  let disp := a.disp.toInt
  if disp = 0 then s!"[{base}]"
  else if disp < 0 then s!"[{base}-{number disp.natAbs}]"
  else s!"[{base}+{number disp.natAbs}]"

/-- The mnemonic of a load or extension of a width. -/
def loadMnemonic (w : Width) (signed : Bool) : String :=
  match w, signed with
  | .w8, true | .w16, true => "movsx"
  | .w8, false | .w16, false => "movzx"
  | .w32, true => "movsxd"
  | _, _ => "mov"

/-- The width of the register that a load or extension writes. -/
def loadWidth (w : Width) (signed : Bool) : Width :=
  if signed || w == .w64 then .w64 else .w32

/-- The name of a width in front of a memory operand, where the register leaves it open. -/
def sizeWord : Width → String
  | .w8 => "byte "
  | .w16 => "word "
  | _ => ""

end Listing

open Listing in
/-- The text of an instruction that ends at an address. -/
def Instruction.render (stop : Word) (i : Instruction Jump) : String :=
  let reg (r : Gp) : String := r.name .w64
  let target (j : Jump) : String := branchTarget (stop + j.disp.signExtend 64)
  match i with
  | mov d s => s!"mov {reg d},{reg s}"
  | movDouble d s => s!"movapd {d.name},{s.name}"
  | movToXmm d s => s!"movq {d.name},{reg s}"
  | movToGp d s => s!"movq {reg d},{s.name}"
  | clear d => s!"xor {d.name .w32},{d.name .w32}"
  | movImm d v => s!"mov {reg d},{number v.toNat}"
  | movImm32 d v => s!"mov {d.name .w32},{number v.toNat}"
  | load d a w signed =>
    s!"{loadMnemonic w signed} {d.name (loadWidth w signed)},{sizeWord w}{address a}"
  | loadDouble d a => s!"movq {d.name},{address a}"
  | store a s w => s!"mov {address a},{s.name w}"
  | storeDouble a s => s!"movq {address a},{s.name}"
  | lea d a => s!"lea {reg d},{address a}"
  | leaSum d b x => s!"lea {d.name .w32},[{reg b}+{reg x}]"
  | extend r w signed => s!"{loadMnemonic w signed} {r.name (loadWidth w signed)},{r.name w}"
  | alu op d s => s!"{op.mnemonic} {reg d},{reg s}"
  | aluImm op d v => s!"{op.mnemonic} {reg d},{immediate v}"
  | shift op d => s!"{op.mnemonic} {reg d},cl"
  | shiftImm op d count => s!"{op.mnemonic} {reg d},{number count.toNat}"
  | signExtend => "cqo"
  | divide r signed => (if signed then "idiv " else "div ") ++ reg r
  | neg r => s!"neg {reg r}"
  | not r => s!"not {reg r}"
  | flipBit r bit => s!"btc {reg r},{number bit.toNat}"
  | cmp l r => s!"cmp {reg l},{reg r}"
  | test l r => s!"test {reg l},{reg r}"
  | set c r => s!"set{c.mnemonic} {r.name .w8}"
  | sse op d s => s!"{op.mnemonic} {d.name},{s.name}"
  | compareDouble l r => s!"ucomisd {l.name},{r.name}"
  | intToDouble d s => s!"cvtsi2sd {d.name},{reg s}"
  | doubleToInt d s => s!"cvttsd2si {reg d},{s.name}"
  | push r => s!"push {reg r}"
  | pop r => s!"pop {reg r}"
  | jmp j => if j.short then s!"jmp short {target j}" else s!"jmp {target j}"
  | jcc c j =>
    if j.short then s!"j{c.mnemonic} short {target j}" else s!"j{c.mnemonic} near {target j}"
  | call j => s!"call {target j}"
  | callRegister r => s!"call {reg r}"
  | jmpStored disp => s!"jmp qword [rel {number (stop + disp.signExtend 64).toNat}]"
  | fill => "rep stosb"
  | leave => "leave"
  | ret => "ret"
  | nop => "nop"
  | trap => "int3"

namespace Listing

/-- The lines of instructions from an address on. -/
def lines (ip : Word) : List (List UInt8 × Option (Instruction Jump)) → List String
  | [] => []
  | (bytes, i) :: rest =>
    let stop := ip + BitVec.ofNat 64 bytes.length
    let text := (i.map (Instruction.render stop)).getD "(bad)"
    (hex false 16 ip.toNat ++ "  " ++ text) :: lines stop rest

end Listing

/-- The listing of code at an address. -/
def listing (code : List UInt8) (ip : Word) : List String := Listing.lines ip (decodeAll code)

end LiveC

import LiveC.Machine.Calling
import LiveC.Machine.Effect
import LiveC.Host.Basic

/-!
Running code. Control that reaches an address of a function of the host runs that function,
which leaves the machine as if code had run there.
-/

namespace LiveC

/-- What a function of the host does, from its entry to where control goes on. -/
abbrev HostFunction (σ : Type) := Host σ → Host σ

/-- Functions of the host at their addresses. -/
abbrev HostFunctions (σ : Type) := List (Word × HostFunction σ)

namespace Host

variable {σ : Type}

/-- Sends control on behind an instruction that ends at an address. -/
def follow (h : Host σ) (stop : Word) (flow : Flow Jump) : Host σ :=
  match flow with
  | .next => { h with ip := stop }
  | .branch j => { h with ip := stop + j.disp.signExtend 64 }
  | .jumpTo a => { h with ip := a }
  | .jumpStored disp =>
    let a := h.machine.memory.load (stop + disp.signExtend 64) 8
    { h with ip := a }
  | .call j => { h with machine := h.machine.push stop, ip := stop + j.disp.signExtend 64 }
  | .callTo a => { h with machine := h.machine.push stop, ip := a }

/-- One step: an instruction, or a function of the host as a whole. -/
def step (functions : HostFunctions σ) (h : Host σ) : Except Fault (Host σ) :=
  match h.fetch? h.ip with
  | some (i, stop) =>
    let ⟨state, machine, ip, space, code, output⟩ := h
    match i.effect machine with
    | .ok (machine, flow) => .ok (follow ⟨state, machine, ip, space, code, output⟩ stop flow)
    | .error e => .error e
  | none =>
    match functions.lookup h.ip with
    | some f => .ok (f h)
    | none => .error (.noCode h.ip)

/-- Runs until control reaches an address, for at most a number of steps. -/
def run (functions : HostFunctions σ) (exit : Word) : Nat → Host σ → Except Fault (Host σ)
  | 0, _ => .error .steps
  | n + 1, h =>
    if h.ip = exit then .ok h
    else
      match h.step functions with
      | .ok h => run functions exit n h
      | .error e => .error e

/-- No run takes more steps. -/
def stepLimit : Nat := 1000000000000000

/-! ### Calls -/

/-- The end of the stack, below all loaded blocks. -/
def stackTop : Word := 0x7EFFFFFF0000

/-- The address to which the outermost call returns. -/
def exitAddress : Word := 0x500000000000

/-- What the result register holds before a call from outside: the result of a function that
returns without a value. -/
def resultBeforeCall : Word := 1

/-- Enters a function: registers of arguments hold what is given, or zero, and the stack holds
the address to return to. -/
def enter (h : Host σ) (address : Word) (args : List (Register × Word)) : Host σ :=
  let registers : List Register :=
    ArgumentRegisters.generalRegisters.map .gp ++ ArgumentRegisters.vectorRegisters.map .xmm
  let m := (h.machine.setGp .rsp stackTop).setGp .rax resultBeforeCall
  let m := registers.foldl (fun m r => m.setRegister r 0) m
  let m := args.foldl (fun m (r, v) => m.setRegister r v) m
  { h with machine := m.push exitAddress, ip := address }

/-- Runs a function to its return. -/
def call (h : Host σ) (functions : HostFunctions σ) (address : Word)
    (args : List (Register × Word)) : Except Fault (Host σ) :=
  run functions exitAddress stepLimit (h.enter address args)

/-! ### Functions of the host -/

/-- The argument in a general register, by position. -/
def wordArgument (h : Host σ) (i : Nat) : Word :=
  ((ArgumentRegisters.generalRegisters[i]?).map h.machine.gp).getD 0

/-- The argument in a vector register, by position. -/
def doubleArgument (h : Host σ) (i : Nat) : Double :=
  ((ArgumentRegisters.vectorRegisters[i]?).map h.machine.xmm).getD .zero

/-- Returns to the caller. -/
def returned (h : Host σ) : Host σ :=
  let (address, machine) := h.machine.pop
  { h with machine, ip := address }

/-- Returns a word. -/
def returnWord (h : Host σ) (v : Word) : Host σ :=
  ({ h with machine := h.machine.setGp .rax v } : Host σ).returned

/-- Returns a number of 32 bits. -/
def returnInt (h : Host σ) (v : BitVec 32) : Host σ := h.returnWord (v.setWidth 64)

def returnDouble (h : Host σ) (v : Double) : Host σ :=
  ({ h with machine := h.machine.setXmm .xmm0 v } : Host σ).returned

end Host

end LiveC

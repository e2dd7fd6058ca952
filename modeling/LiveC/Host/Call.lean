import LiveC.Host.Run
import LiveC.Value

/-!
Calls from outside into a loaded image. Arguments are checked against what the object says of
the function, where it says anything, and put into registers bank by bank; the result is read
as the kind that the function returns.
-/

namespace LiveC

/-- Why arguments cannot be passed. -/
inductive ArgumentError where
  | count (shape : CallShape) (given : Nat)
  /-- The argument of a number, from one on, is of another kind than the parameter. -/
  | kind (number : Nat) (v : Value) (param : ValueKind)
  /-- There are more arguments than registers in a bank. -/
  | tooMany (bank : Bank)
  | void (number : Nat)
  deriving DecidableEq, Repr

namespace ArgumentError

def message : ArgumentError → String
  | count shape given =>
    let least := if shape.variadic then "at least " else ""
    s!"expects {least}{shape.params.length} argument(s), got {given}"
  | kind number v param =>
    s!"argument {number} is {v.renderDebug} but the parameter is {param.name}"
  | tooMany .vector =>
    s!"more than {ArgumentRegisters.vectorRegisters.length} floating-point arguments"
  | tooMany .general =>
    s!"more than {ArgumentRegisters.generalRegisters.length} integer or pointer arguments"
  | void number => s!"argument {number} is void"

end ArgumentError

def Fault.message : Fault → String
  | divide => "division error"
  | trap => "trap"
  | noCode address => s!"no code at address 0x{Text.hex address.toNat}"
  | steps => "the step limit is reached"

/-- Why a call fails. -/
inductive CallError where
  | entryNotFound (name : String)
  | notExecutable (name : String) (address : Word)
  | arguments (name : String) (e : ArgumentError)
  | fault (name : String) (f : Fault)
  deriving DecidableEq, Repr

def CallError.message : CallError → String
  | entryNotFound name => s!"entry point not found: {name}"
  | notExecutable name address =>
    s!"runtime fault in {name}: entry address 0x{Text.hex address.toNat} is not in executable memory"
  | arguments name e => s!"cannot call {name}: {e.message}"
  | fault name f => s!"runtime fault in {name}: {f.message}"

namespace Value

/-- The bank that passes a value. -/
def bank? : Value → Option Bank
  | int _ | ptr _ => some .general
  | float _ => some .vector
  | void => none

/-- The contents of a register that holds a value. -/
def bits : Value → Word
  | int v | ptr v => v
  | float v => v.bits
  | void => 0

end Value

/-- The bank that passes values of a kind. -/
def ValueKind.bank (k : ValueKind) : Bank := if k.isFloat then .vector else .general

namespace CallShape

/-- Whether a function takes a number of arguments. -/
def takes (s : CallShape) (count : Nat) : Bool :=
  if s.variadic then s.params.length ≤ count else count == s.params.length

/-- The first argument, counted from a number on, that is not passed as its parameter is. -/
def mismatch? (number : Nat) : List ValueKind → List Value → Option ArgumentError
  | k :: ks, v :: vs =>
    if v.bank? = some k.bank then mismatch? (number + 1) ks vs else some (.kind number v k)
  | _, _ => none

/-- Checks arguments against parameters. -/
def check (s : CallShape) (args : List Value) : Except ArgumentError Unit :=
  if !s.takes args.length then .error (.count s args.length)
  else
    match mismatch? 1 s.params args with
    | some e => .error e
    | none => .ok ()

end CallShape

namespace ArgumentRegisters

/-- The registers of arguments, counted from a number on, with their contents. -/
def marshal (a : ArgumentRegisters) (number : Nat) :
    List Value → Except ArgumentError (List (Register × Word))
  | [] => .ok []
  | v :: rest =>
    match v.bank? with
    | none => .error (.void number)
    | some b =>
      match a.assign? b with
      | none => .error (.tooMany b)
      | some (r, a) => (marshal a (number + 1) rest).map ((r, v.bits) :: ·)

end ArgumentRegisters

/-- The result that registers hold, for a function whose shape may be known. -/
def CallShape.result (shape : Option CallShape) (m : Machine) : Value :=
  match shape with
  | none => .int (m.gp .rax)
  | some s =>
    match s.ret with
    | none => .void
    | some (.int t) => .int (t.wrap (m.gp .rax))
    | some .ptr => .ptr (m.gp .rax)
    | some .f64 => .float (m.xmm .xmm0)

namespace Host

variable {σ : Type}

/-- The arguments of a call in registers. -/
def arguments (s : LoadedSymbol) (args : List Value) :
    Except ArgumentError (List (Register × Word)) := do
  if let some shape := s.shape then shape.check args
  ArgumentRegisters.marshal {} 1 args

/-- Calls a function of an image by name. -/
def execute (h : Host σ) (functions : HostFunctions σ) (i : Image) (entry : String)
    (args : List Value) : Except CallError (Value × Host σ) :=
  match (i.symbol? entry).filter (·.kind = .function) with
  | none => .error (.entryNotFound entry)
  | some s =>
    if !((i.regionAt? s.address).any (·.permission.isExecutable)) then
      .error (.notExecutable entry s.address)
    else
      match arguments s args with
      | .error e => .error (.arguments s.name e)
      | .ok registers =>
        match h.call functions s.address registers with
        | .error f => .error (.fault entry f)
        | .ok h => .ok (CallShape.result s.shape h.machine, h)

end Host

end LiveC

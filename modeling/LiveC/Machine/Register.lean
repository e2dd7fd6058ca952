import LiveC.CType.IntType

/-!
Registers of the x86-64 machine: sixteen general registers, sixteen vector registers, and
register identifiers as an assembler is given them, which may name no register.
-/

namespace LiveC

/-- A general register. -/
inductive Gp where
  | rax | rcx | rdx | rbx | rsp | rbp | rsi | rdi | r8 | r9 | r10 | r11 | r12 | r13 | r14 | r15
  deriving DecidableEq, Repr, Inhabited

namespace Gp

def all : List Gp :=
  [rax, rcx, rdx, rbx, rsp, rbp, rsi, rdi, r8, r9, r10, r11, r12, r13, r14, r15]

/-- The number by which instructions refer to the register. -/
def code : Gp → Fin 16
  | rax => 0 | rcx => 1 | rdx => 2 | rbx => 3 | rsp => 4 | rbp => 5 | rsi => 6 | rdi => 7
  | r8 => 8 | r9 => 9 | r10 => 10 | r11 => 11 | r12 => 12 | r13 => 13 | r14 => 14 | r15 => 15

def ofCode? (n : Nat) : Option Gp := all[n]?

/-- The name of the low part of the register that a width selects. -/
def name (r : Gp) (w : Width) : String :=
  let names : String × String × String × String := match r with
    | rax => ("al", "ax", "eax", "rax")
    | rcx => ("cl", "cx", "ecx", "rcx")
    | rdx => ("dl", "dx", "edx", "rdx")
    | rbx => ("bl", "bx", "ebx", "rbx")
    | rsp => ("spl", "sp", "esp", "rsp")
    | rbp => ("bpl", "bp", "ebp", "rbp")
    | rsi => ("sil", "si", "esi", "rsi")
    | rdi => ("dil", "di", "edi", "rdi")
    | r =>
      let n := s!"r{r.code.val}"
      (n ++ "b", n ++ "w", n ++ "d", n)
  match w with
  | .w8 => names.1
  | .w16 => names.2.1
  | .w32 => names.2.2.1
  | .w64 => names.2.2.2

theorem ofCode?_code (r : Gp) : ofCode? r.code = some r := by cases r <;> rfl

end Gp

/-- A vector register, of which only the low half, a double, is used. -/
structure Xmm where
  code : Fin 16
  deriving DecidableEq, Repr, Inhabited

namespace Xmm

def xmm0 : Xmm := ⟨0⟩
def xmm1 : Xmm := ⟨1⟩
def xmm2 : Xmm := ⟨2⟩

def ofCode? (n : Nat) : Option Xmm := if h : n < 16 then some ⟨⟨n, h⟩⟩ else none

def name (r : Xmm) : String := s!"xmm{r.code.val}"

end Xmm

/-- The two banks of registers. -/
inductive Bank where
  | general | vector
  deriving DecidableEq, Repr

/-- A register of either bank. -/
inductive Register where
  | gp (r : Gp)
  | xmm (r : Xmm)
  deriving DecidableEq, Repr

/-- A bank and a number, which may be too large for a register. -/
structure RegisterId where
  bank : Bank
  id : Nat
  deriving DecidableEq, Repr

namespace RegisterId

def render (r : RegisterId) : String :=
  match r.bank with
  | .general => ((Gp.ofCode? r.id).map (·.name .w64)).getD s!"gp{r.id}"
  | .vector => s!"xmm{r.id}"

def gp? (r : RegisterId) : Option Gp :=
  match r.bank with
  | .general => Gp.ofCode? r.id
  | .vector => none

def xmm? (r : RegisterId) : Option Xmm :=
  match r.bank with
  | .general => none
  | .vector => Xmm.ofCode? r.id

def ofGp (r : Gp) : RegisterId := ⟨.general, r.code⟩

def ofXmm (r : Xmm) : RegisterId := ⟨.vector, r.code⟩

def ofRegister : Register → RegisterId
  | .gp r => ofGp r
  | .xmm r => ofXmm r

end RegisterId

end LiveC

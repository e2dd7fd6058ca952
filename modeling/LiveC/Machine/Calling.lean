import LiveC.Machine.Register

/-!
The calling convention of the System V ABI as far as registers go: six general and eight
vector registers hold the arguments, each bank counting on its own, and one register of
each bank the result.
-/

namespace LiveC

/-- How many argument registers of each bank are taken. -/
structure ArgumentRegisters where
  general : Nat := 0
  vector : Nat := 0
  deriving DecidableEq, Repr

namespace ArgumentRegisters

/-- The general registers that hold arguments, the first argument first. -/
def generalRegisters : List Gp := [.rdi, .rsi, .rdx, .rcx, .r8, .r9]

/-- The vector registers that hold arguments. -/
def vectorRegisters : List Xmm := (List.range 8).filterMap Xmm.ofCode?

/-- The register of the next argument in a bank, if one is left. -/
def assign? (a : ArgumentRegisters) : Bank → Option (Register × ArgumentRegisters)
  | .general => (generalRegisters[a.general]?).map fun r => (.gp r, { a with general := a.general + 1 })
  | .vector => (vectorRegisters[a.vector]?).map fun r => (.xmm r, { a with vector := a.vector + 1 })

/-- The registers of arguments, and how many are taken behind them. -/
def assignAll? (a : ArgumentRegisters) : List Bank → Option (List Register × ArgumentRegisters)
  | [] => some ([], a)
  | b :: bs => do
    let (r, a) ← a.assign? b
    let (rs, a) ← assignAll? a bs
    return (r :: rs, a)

end ArgumentRegisters

/-- The register that holds a result. -/
def Bank.resultRegister : Bank → Register
  | .general => .gp .rax
  | .vector => .xmm .xmm0

end LiveC

import LiveC.Lowering.Expression

/-!
Code of statements. Between statements nothing is pushed. A jump out of a loop goes to a
label of the innermost one.
-/

namespace LiveC

namespace Lowering

/-- Where `continue` and `break` go. -/
structure LoopLabels where
  next : Label
  stop : Label

/-- What the statements of a function need: its variables, and the label of its end. -/
structure FunctionContext extends Context where
  locals : List LocalVar
  finish : Label

/-- Zeroes a variable of a size. -/
def zeroing (a : Address) (size : Nat) : UnitCode :=
  block [.lea .rdi a, Assembling.settingWord .rcx (BitVec.ofNat 64 size),
    Assembling.settingWord .rax 0, .fill]

/-- Stores initial values into a variable at an offset from the frame pointer. -/
def initStores (c : Context) (offset : BitVec 32) : List InitStore → Lowering UnitCode
  | [] => return []
  | s :: rest => do
    let value ← expr c 0 s.value
    let store ← storeValue s.value.ty ⟨.rbp, offset + BitVec.ofNat 32 s.offset⟩
    return value ++ store ++ (← initStores c offset rest)

/-- Evaluates a condition and goes to a label if it is zero. -/
def skipping (c : Context) (e : Expr) (l : Label) : Lowering UnitCode := do
  return (← expr c 0 e) ++ branch .equal l

def skippingOptional (c : Context) (l : Label) : Option Expr → Lowering UnitCode
  | some e => skipping c e l
  | none => return []

def optional (c : Context) : Option Expr → Lowering UnitCode
  | some e => expr c 0 e
  | none => return []

def goto (l : Label) : UnitCode := block [.jmp l]

mutual

def stmt (c : FunctionContext) (loop : Option LoopLabels) : Stmt → Lowering UnitCode
  | .expr e => expr c.toContext 0 e
  | .init id zero stores => do
    let a ← c.variableAddress id
    let size := (c.locals[id]?.map fun v => v.ty.size).getD 0
    return (if zero then zeroing a size else []) ++ (← initStores c.toContext a.disp stores)
  | .block body => stmts c loop body
  | .ite e t none => do
    let other ← newLabel
    return (← skipping c.toContext e other) ++ (← stmt c loop t) ++ [.label other]
  | .ite e t (some f) => do
    let other ← newLabel
    let test ← skipping c.toContext e other
    let yes ← stmt c loop t
    let stop ← newLabel
    let no ← stmt c loop f
    return test ++ yes ++ goto stop ++ [.label other] ++ no ++ [.label stop]
  | .while e body => do
    let top ← newLabel
    let stop ← newLabel
    let test ← skipping c.toContext e stop
    let body ← stmt c (some ⟨top, stop⟩) body
    return .label top :: test ++ body ++ goto top ++ [.label stop]
  | .doWhile body e => do
    let top ← newLabel
    let next ← newLabel
    let stop ← newLabel
    let body ← stmt c (some ⟨next, stop⟩) body
    let test ← expr c.toContext 0 e
    return .label top :: body ++ [.label next] ++ test ++ branch .notEqual top ++ [.label stop]
  | .for start e step body => do
    let start ← optionalStmt c loop start
    let top ← newLabel
    let next ← newLabel
    let stop ← newLabel
    let test ← skippingOptional c.toContext stop e
    let body ← stmt c (some ⟨next, stop⟩) body
    let step ← optional c.toContext step
    return start ++ [.label top] ++ test ++ body ++ [.label next] ++ step ++ goto top ++
      [.label stop]
  | .break =>
    match loop with
    | some l => return goto l.stop
    | none => throw .outsideLoop
  | .continue =>
    match loop with
    | some l => return goto l.next
    | none => throw .outsideLoop
  | .return value => return (← optional c.toContext value) ++ goto c.finish
  | .empty => return []

def stmts (c : FunctionContext) (loop : Option LoopLabels) : List Stmt → Lowering UnitCode
  | [] => return []
  | s :: rest => return (← stmt c loop s) ++ (← stmts c loop rest)

def optionalStmt (c : FunctionContext) (loop : Option LoopLabels) :
    Option Stmt → Lowering UnitCode
  | some s => stmt c loop s
  | none => return []

end

end Lowering

end LiveC

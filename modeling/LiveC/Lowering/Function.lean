import LiveC.Lowering.Statement
import LiveC.Machine.Frame

/-!
Code of functions: the frame is opened, parameters go from registers to their slots, the
body follows, and every return leads to the end. A body that falls through returns zero.
-/

namespace LiveC

namespace Lowering

/-- Allocates a slot for each local variable; the parameters, of which there are so many,
take a word each. -/
def allocateLocals (f : Frame) (params : Nat) : List LocalVar → Except LoweringError Frame
  | [] => .ok f
  | v :: rest =>
    let slot := if 0 < params then f.allocate? 8 8 else f.allocate? v.ty.size v.ty.align
    match slot with
    | some (_, f) => allocateLocals f (params - 1) rest
    | none => .error (.frameTooLarge v.name)

/-- Stores parameters from their registers into the slots from number `i` on. -/
def spillParameters (c : Context) (i : Nat) (taken : ArgumentRegisters) :
    List CType → Lowering UnitCode
  | [] => return []
  | ty :: rest => do
    let some (r, taken) := taken.assign? (bankOf ty) | throw .stackParameters
    let a ← c.variableAddress i
    let store := match r with
      | .gp r => Instruction.store a r .w64
      | .xmm x => .storeDouble a x
    return block [store] ++ (← spillParameters c (i + 1) taken rest)

/-- Opens a frame of a size. -/
def prologue (size : Nat) : UnitCode :=
  block ([.push .rbp, .mov .rbp .rsp] ++
    if size = 0 then [] else [.aluImm .sub .rsp (BitVec.ofNat 32 size)])

/-- Closes the frame and returns. -/
def epilogue : UnitCode := block [.leave, .ret]

/-- The code of a function, which starts at a label. -/
def function (layout : UnitLayout) (entry : Label) (f : Function) : Lowering UnitCode := do
  let finish ← newLabel
  let frame ← allocateLocals {} f.signature.params.length f.locals
  let c : FunctionContext :=
    { layout, offsets := frame.slots.map (BitVec.ofInt 32), locals := f.locals, finish }
  let spills ← spillParameters c.toContext 0 {} f.signature.params
  let body ← stmts c none f.body
  return .label entry :: prologue frame.size ++ spills ++ body ++ literal 0 ++
    [.label finish] ++ epilogue

/-- The code of functions that start at labels from a number on. A failure names its
function. -/
def functions (layout : UnitLayout) (entry : Label) :
    List Function → Label → Except (Function × LoweringError) (UnitCode × Label)
  | [], next => .ok ([], next)
  | f :: rest, next => do
    let (code, next) ← ((function layout entry f).run next).mapError ((f, ·))
    let (others, next) ← functions layout (entry + 1) rest next
    return (code ++ others, next)

end Lowering

end LiveC

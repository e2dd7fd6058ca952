import LiveC.Lowering.Reference
import LiveC.Machine.Calling

/-!
Code of expressions. The code of an expression leaves its value in `rax`, extended to a
word, or in `xmm0` if it is a double; operands that have to wait are pushed. `depth` counts
the words that are pushed, by which calls keep the stack aligned.
-/

namespace LiveC

namespace Lowering

/-- Code without labels and references. -/
def block (is : List (Instruction Label)) : UnitCode := is.map .instr

/-! ### Types on the machine -/

/-- The integer type as which a general register holds a value. -/
def machineInt (ty : CType) : IntType := ty.intType?.getD .ulong

def bankOf (ty : CType) : Bank := if ty.isDouble then .vector else .general

/-- Brings the value in a register to the canonical form of an integer type; there is
nothing to do at full width. -/
def extension (r : Gp) (t : IntType) : List (Instruction Label) :=
  if t.width = .w64 then [] else [.extend r t.width t.signed]

/-! ### Loads and stores -/

/-- Loads the object of a type at an address; of an array or function the address itself
is the value. -/
def loadValue (ty : CType) (a : Address) : UnitCode :=
  match ty with
  | .double => block [.loadDouble .xmm0 a]
  | .int t => block [.load .rax a t.width t.signed]
  | .pointer _ => block [.load .rax a .w64 false]
  | .array .. | .function .. => if a = ⟨.rax, 0⟩ then [] else block [.lea .rax a]
  | .void => []

/-- Stores the value of a scalar type. -/
def storeValue (ty : CType) (a : Address) : Lowering UnitCode :=
  match ty with
  | .double => return block [.storeDouble a .xmm0]
  | .int t => return block [.store a .rax t.width]
  | .pointer _ => return block [.store a .rax .w64]
  | ty => throw (.storeOf ty)

def pushValue (ty : CType) : UnitCode :=
  block (if ty.isDouble then [.movToGp .rax .xmm0, .push .rax] else [.push .rax])

/-! ### Addresses -/

/-- Where a function finds the names of its unit and its own variables. -/
structure Context where
  layout : UnitLayout
  /-- The offset of each local variable from the frame pointer. -/
  offsets : List (BitVec 32)

def Context.variableAddress (c : Context) (id : Nat) : Lowering Address :=
  match c.offsets[id]? with
  | some offset => return ⟨.rbp, offset⟩
  | none => throw (.unknownVariable id)

def linkedAddress (target : CodeTarget) (expected : Option SymbolKind) : UnitCode :=
  [.linked (.address .rax) ⟨.abs64, target, expected⟩]

/-- The address of a file-scope name. -/
def Context.globalAddress (c : Context) (name : String) (ty : CType) : UnitCode :=
  let target := c.layout.target name
  let expected := match target with
    | .imported _ => some (if ty.isFunction then SymbolKind.function else .data)
    | _ => none
  linkedAddress target expected

/-- The address of a string literal. -/
def Context.stringAddress (c : Context) (id : Nat) : Lowering UnitCode :=
  match c.layout.strings[id]? with
  | some (sectionId, offset) => return linkedAddress (.place sectionId offset) none
  | none => throw (.unknownString id)

/-! ### Conversions -/

/-- The double of the unsigned word in `rax`. A word with the top bit set is halved, its low
bit kept for rounding, and the result doubled. -/
def doubleOfUnsigned (big done : Label) : UnitCode :=
  block [.test .rax .rax, .jcc .sign big, .intToDouble .xmm0 .rax, .jmp done] ++
  [.label big] ++
  block
    [.mov .rcx .rax, .shiftImm .shr .rcx 1, .aluImm .and .rax 1, .alu .or .rcx .rax,
     .intToDouble .xmm0 .rcx, .sse .add .xmm0 .xmm0] ++
  [.label done]

/-- Converts the value from one type to another. -/
def conversion (source target : CType) : Lowering UnitCode := do
  if target.isVoid || source = target then return []
  match source.isDouble, target.isDouble with
  | false, false => return block (extension .rax (machineInt target))
  | false, true =>
    if machineInt source = .ulong then
      let big ← newLabel
      let done ← newLabel
      return doubleOfUnsigned big done
    else return block [.intToDouble .xmm0 .rax]
  | true, false =>
    return block (.doubleToInt .rax .xmm0 :: extension .rax (machineInt target))
  | true, true => return []

/-! ### Operators -/

/-- The operation of an integer type on `rax` and `rcx`, without the extension of its
result. -/
def integerOperation (op : BinaryOp) (signed : Bool) : List (Instruction Label) :=
  let divide : List (Instruction Label) :=
    [if signed then .signExtend else .clear .rdx, .divide .rcx signed]
  match op with
  | .add => [.alu .add .rax .rcx]
  | .sub => [.alu .sub .rax .rcx]
  | .mul => [.alu .imul .rax .rcx]
  | .bitAnd => [.alu .and .rax .rcx]
  | .bitOr => [.alu .or .rax .rcx]
  | .bitXor => [.alu .xor .rax .rcx]
  | .div => divide
  | .rem => divide ++ [.mov .rax .rdx]
  | .shl => [.shift .shl .rax]
  | .shr => [.shift (if signed then .sar else .shr) .rax]

/-- `rax := rax op rcx` in an integer type. -/
def integerOp (op : BinaryOp) (ty : CType) : UnitCode :=
  let t := machineInt ty
  block (integerOperation op t.signed ++ extension .rax t)

/-- `xmm0 := xmm0 op xmm1`. -/
def doubleOp (op : BinaryOp) : Lowering UnitCode :=
  match op with
  | .add => return block [.sse .add .xmm0 .xmm1]
  | .sub => return block [.sse .sub .xmm0 .xmm1]
  | .mul => return block [.sse .mul .xmm0 .xmm1]
  | .div => return block [.sse .div .xmm0 .xmm1]
  | op => throw (.notOnDoubles op)

def operation (op : BinaryOp) (ty : CType) : Lowering UnitCode :=
  if ty.isDouble then doubleOp op else return integerOp op ty

/-- Evaluates the left operand, then the right one, and leaves them in `rax` and `rcx`, or
in `xmm0` and `xmm1`. -/
def operands (l r : UnitCode) (lTy rTy : CType) : UnitCode :=
  l ++ pushValue lTy ++ r ++
    block (if rTy.isDouble then [.movDouble .xmm1 .xmm0, .pop .rax, .movToXmm .xmm0 .rax]
      else [.mov .rcx .rax, .pop .rax])

/-- Sets a register to the truth value of a condition. -/
def setting (c : Condition) (r : Gp) : List (Instruction Label) :=
  [.set c r, .extend r .w8 false]

/-- Compares the doubles in `xmm0` and `xmm1`; no order holds of a NaN. -/
def compareDoubles : CompareOp → List (Instruction Label)
  | .gt => .compareDouble .xmm0 .xmm1 :: setting .above .rax
  | .ge => .compareDouble .xmm0 .xmm1 :: setting .aboveEqual .rax
  | .lt => .compareDouble .xmm1 .xmm0 :: setting .above .rax
  | .le => .compareDouble .xmm1 .xmm0 :: setting .aboveEqual .rax
  | .eq =>
    .compareDouble .xmm0 .xmm1 ::
      (setting .equal .rax ++ setting .noParity .rcx ++ [.alu .and .rax .rcx])
  | .ne =>
    .compareDouble .xmm0 .xmm1 ::
      (setting .notEqual .rax ++ setting .parity .rcx ++ [.alu .or .rax .rcx])

/-- The condition that holds behind a comparison of words. -/
def condition (op : CompareOp) (signed : Bool) : Condition :=
  match op, signed with
  | .eq, _ => .equal
  | .ne, _ => .notEqual
  | .lt, true => .less
  | .le, true => .lessEqual
  | .gt, true => .greater
  | .ge, true => .greaterEqual
  | .lt, false => .below
  | .le, false => .belowEqual
  | .gt, false => .above
  | .ge, false => .aboveEqual

/-- Compares operands of a type. -/
def comparison (op : CompareOp) (ty : CType) : UnitCode :=
  block <|
    if ty.isDouble then compareDoubles op
    else .cmp .rax .rcx :: setting (condition op (machineInt ty).signed) .rax

def unaryOp (op : UnaryOp) (ty : CType) : UnitCode :=
  let t := machineInt ty
  block <| match op with
    | .neg =>
      if ty.isDouble then [.movToGp .rax .xmm0, .flipBit .rax 63, .movToXmm .xmm0 .rax]
      else .neg .rax :: extension .rax t
    | .bitNot => .not .rax :: extension .rax t

/-- Steps the object whose address is in `rax`. -/
def stepping (ty : CType) (delta : Word) (before : Bool) : Lowering UnitCode := do
  let load := block [.mov .rdx .rax] ++ loadValue ty ⟨.rdx, 0⟩
  if ty.isDouble then
    let add := block
      [.movDouble .xmm2 .xmm0, Assembling.settingWord .rcx (Double.ofInt delta).bits,
       .movToXmm .xmm1 .rcx, .sse .add .xmm0 .xmm1, .storeDouble ⟨.rdx, 0⟩ .xmm0]
    return load ++ add ++ block (if before then [] else [.movDouble .xmm0 .xmm2])
  else
    let amount := delta.setWidth 32
    if amount.signExtend 64 ≠ delta then throw (.stepTooLarge delta)
    let t := machineInt ty
    let add := [.mov .rcx .rax, .aluImm .add .rax amount] ++ extension .rax t ++
      [.store ⟨.rdx, 0⟩ .rax t.width]
    return load ++ block (add ++ if before then [] else [.mov .rax .rcx])

/-- `target op= value` for the code of the address and of the value. -/
def compound (op : BinaryOp) (opTy targetTy valueTy : CType) (target value : UnitCode) :
    Lowering UnitCode := do
  let widen ← conversion targetTy opTy
  let compute ← operation op opTy
  let narrow ← conversion opTy targetTy
  let store ← storeValue targetTy ⟨.rdx, 0⟩
  return target ++ block [.push .rax] ++ value ++ pushValue valueTy ++
    block [.load .rdx ⟨.rsp, 8⟩ .w64 false] ++ loadValue targetTy ⟨.rdx, 0⟩ ++ widen ++
    block (.pop .rcx :: if opTy.isDouble then [.movToXmm .xmm1 .rcx] else []) ++ compute ++
    narrow ++ block [.pop .rdx] ++ store

/-! ### Calls -/

/-- Pops the last argument into its register. -/
def popArgument : Register → List (Instruction Label)
  | .gp r => [.pop r]
  | .xmm x => [.pop .rax, .movToXmm x .rax]

/-- Calls a function by name. -/
def Context.callNamed (c : Context) (name : String) : UnitCode :=
  match c.layout.entries.lookup name with
  | some l => block [.call l]
  | none => [.linked .call ⟨.branch32, .imported name, some .function⟩]

/-- Moves the pushed arguments into their registers and calls; an odd word on the stack is
made up for during the call. -/
def calling (depth : Nat) (signature : Signature) (argTys : List CType) (call : UnitCode) :
    Lowering UnitCode := do
  let some (registers, taken) := ArgumentRegisters.assignAll? {} (argTys.map bankOf)
    | throw .stackArguments
  let count := if signature.variadic || signature.unspecified then
      [Instruction.movImm32 .rax (BitVec.ofNat 32 taken.vector)]
    else []
  let odd := depth % 2 = 1
  let extend := match signature.ret with
    | .int t => extension .rax t
    | _ => []
  return block (registers.reverse.flatMap popArgument ++ count ++
      if odd then [.aluImm .sub .rsp 8] else []) ++
    call ++ block ((if odd then [.aluImm .add .rsp 8] else []) ++ extend)

/-! ### Expressions -/

def literal (v : Word) : UnitCode := block [Assembling.settingWord .rax v]

/-- Goes to a label if the value is zero, or if it is not. -/
def branch (c : Condition) (l : Label) : UnitCode := block [.test .rax .rax, .jcc c l]

mutual

/-- The code of an expression. -/
def expr (c : Context) (depth : Nat) : Expr → Lowering UnitCode
  | .int _ v => return literal v
  | .float _ v => return literal v.bits ++ block [.movToXmm .xmm0 .rax]
  | .str _ id => c.stringAddress id
  | .var n id => return loadValue n.ty (← c.variableAddress id)
  | .global n name => return c.globalAddress name n.ty ++ loadValue n.ty ⟨.rax, 0⟩
  | .deref n e => return (← expr c depth e) ++ loadValue n.ty ⟨.rax, 0⟩
  | .addrOf _ e => address c depth e
  | .unary n op e => return (← expr c depth e) ++ unaryOp op n.ty
  | .binary n op l r => do
    let left ← expr c depth l
    let right ← expr c (depth + 1) r
    return operands left right l.ty r.ty ++ (← operation op n.ty)
  | .compare _ op l r => do
    let left ← expr c depth l
    let right ← expr c (depth + 1) r
    return operands left right l.ty r.ty ++ comparison op l.ty
  | .logic _ op l r => do
    let stop ← newLabel
    let left ← expr c depth l
    let right ← expr c depth r
    let skip := match op with
      | .and => Condition.equal
      | .or => Condition.notEqual
    return left ++ branch skip stop ++ right ++ [.label stop]
  | .assign _ (.var n id) value => do
    let value ← expr c depth value
    return value ++ (← storeValue n.ty (← c.variableAddress id))
  | .assign _ target value => do
    let place ← address c depth target
    let value ← expr c (depth + 1) value
    return place ++ block [.push .rax] ++ value ++ block [.pop .rdx] ++
      (← storeValue target.ty ⟨.rdx, 0⟩)
  | .opAssign _ op opTy target value => do
    let place ← address c depth target
    let code ← expr c (depth + 1) value
    compound op opTy target.ty value.ty place code
  | .step _ delta before target => do
    let place ← address c depth target
    return place ++ (← stepping target.ty delta before)
  | .cond _ e t f => do
    let other ← newLabel
    let stop ← newLabel
    let test ← expr c depth e
    let yes ← expr c depth t
    let no ← expr c depth f
    return test ++ branch .equal other ++ yes ++ block [.jmp stop] ++ [.label other] ++ no ++
      [.label stop]
  | .cast n e => return (← expr c depth e) ++ (← conversion e.ty n.ty)
  | .call _ name signature args => do
    let pushed ← arguments c depth args
    return pushed ++ (← calling depth signature (args.map Expr.ty) (c.callNamed name))
  | .callPointer _ signature callee args => do
    let pushed ← arguments c depth args
    let pointer ← expr c (depth + args.length) callee
    return pushed ++ pointer ++ block [.mov .r11 .rax] ++
      (← calling depth signature (args.map Expr.ty) (block [.callRegister .r11]))
  | .comma _ l r => return (← expr c depth l) ++ (← expr c depth r)

/-- The code that leaves the address of an object or function in `rax`. -/
def address (c : Context) (depth : Nat) : Expr → Lowering UnitCode
  | .var _ id => return block [.lea .rax (← c.variableAddress id)]
  | .global n name => return c.globalAddress name n.ty
  | .deref _ e => expr c depth e
  | .str _ id => c.stringAddress id
  | _ => throw .notAddressable

/-- Evaluates arguments and pushes each. -/
def arguments (c : Context) (depth : Nat) : List Expr → Lowering UnitCode
  | [] => return []
  | e :: es => do
    let code ← expr c depth e
    return code ++ pushValue e.ty ++ (← arguments c (depth + 1) es)

end

end Lowering

end LiveC

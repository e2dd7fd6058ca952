import LiveC.Typing.Convert

/-!
Typing of the operators. Operands arrive typed; each function builds the typed node with
the conversions that C inserts, folding constants, or says why the operands are refused.
-/

namespace LiveC.Expr

/-! ### Binary operators -/

/-- A binary operation of one type, folded if both operands are constants. -/
def fold (op : BinaryOp) (l r : Expr) (n : Note) : Expr :=
  match l, r, n.ty with
  | int _ a, int _ b, .int t =>
    match op.foldInt? t a b with
    | some v => int n v
    | none => binary n op l r
  | float _ a, float _ b, .double =>
    match op.foldDouble? a b with
    | some v => float n v
    | none => binary n op l r
  | l, r, _ => binary n op l r

/-- Whether an operation takes operands of the given types, pointers aside. -/
def acceptsOperands (op : BinaryOp) (l r : CType) : Bool :=
  match op with
  | .add | .sub | .mul | .div => l.isArithmetic && r.isArithmetic
  | _ => l.isInteger && r.isInteger

/-- The type in which an operation on non-pointers is computed. -/
def operationType (op : BinaryOp) (l r : CType) : CType :=
  if op.isShift then l.promote else CType.usualArithmetic l r

/-- The size of what a pointer type points to; other types count one byte. -/
def strideOf (t : CType) : Nat := (t.pointee?.map CType.size).getD 1

/-- An index as a distance in bytes for a pointer type. -/
def scaleIndex (index : Expr) (pointer : CType) : Expr :=
  let long : CType := .int .long
  let index := index.convert long
  if strideOf pointer = 1 then index
  else
    let n : Note := ⟨long, index.loc⟩
    fold .mul index (int n (BitVec.ofNat 64 (strideOf pointer))) n

/-- Adds an index to a pointer or subtracts it. -/
def pointerOffset (op : BinaryOp) (pointer index : Expr) (loc : Location) : Expr :=
  binary ⟨pointer.ty, loc⟩ op pointer (scaleIndex index pointer.ty)

/-- The number of elements between two pointers of one type. -/
def pointerDifference (l r : Expr) (pointee : CType) (loc : Location) : Expr :=
  let n : Note := ⟨.int .long, loc⟩
  let bytes := binary n .sub (l.convert n.ty) (r.convert n.ty)
  if pointee.size = 1 then bytes
  else binary n .div bytes (int n (BitVec.ofNat 64 pointee.size))

/-- An arithmetic operator on decayed operands. -/
def arithmetic (op : BinaryOp) (l r : Expr) (loc : Location) : Typing Expr :=
  match op, l.ty, r.ty with
  | .add, .pointer p, .int _ | .sub, .pointer p, .int _ =>
    if !p.isComplete && !p.isVoid then Typing.fail loc .incompletePointee
    else return pointerOffset op l r loc
  | .add, .int _, .pointer _ => return pointerOffset op r l loc
  | .sub, .pointer p, .pointer q =>
    if p != q then Typing.fail loc (.incompatiblePointers l.ty r.ty)
    else return pointerDifference l r p loc
  | op, s, t => do
    if !acceptsOperands op s t then Typing.fail loc (.invalidOperands op s t)
    let ty := operationType op s t
    let l := l.convert ty
    let r := r.convert ty
    if (op == .div || op == .rem) && r.intValue? == some 0 then
      Typing.warn loc .divisionByZero
    return fold op l r ⟨ty, loc⟩

/-- A comparison of decayed operands. -/
def comparison (op : CompareOp) (l r : Expr) (loc : Location) : Typing Expr := do
  if l.ty.isArithmetic && r.ty.isArithmetic then
    let ty := CType.usualArithmetic l.ty r.ty
    return compareNode op (l.convert ty) (r.convert ty) loc
  else match l.ty, r.ty with
    | .pointer _, .pointer _ => return compareNode op l r loc
    | .pointer _, .int _ =>
      if r.intValue? != some 0 then Typing.warn loc .pointerIntegerComparison
      return compareNode op l (r.convert l.ty) loc
    | .int _, .pointer _ =>
      if l.intValue? != some 0 then Typing.warn loc .pointerIntegerComparison
      return compareNode op (l.convert r.ty) r loc
    | s, t => Typing.fail loc (.invalidComparison s t)

/-- A logical operator, folded if both conditions are constants. -/
def logical (op : LogicOp) (l r : Expr) (loc : Location) : Typing Expr := do
  let l ← l.condition
  let r ← r.condition
  let n : Note := ⟨.int .int, loc⟩
  match l.intValue?, r.intValue? with
  | some a, some b => return int n (Word.ofBool (op.apply (a != 0) (b != 0)))
  | _, _ => return logic n op l r

/-- The type that both arms of a conditional take. -/
def armsType (t f : Expr) (loc : Location) : Typing CType :=
  if t.ty.isArithmetic && f.ty.isArithmetic then return CType.usualArithmetic t.ty f.ty
  else match t.ty, f.ty with
    | .void, .void => return .void
    | .pointer p, .pointer q =>
      if p.isVoid then return t.ty
      else if q.isVoid then return f.ty
      else return t.ty
    | .pointer _, .int _ =>
      if f.intValue? = some 0 then return t.ty
      else Typing.fail loc (.incompatibleArms t.ty f.ty)
    | .int _, .pointer _ =>
      if t.intValue? = some 0 then return f.ty
      else Typing.fail loc (.incompatibleArms t.ty f.ty)
    | s, u => Typing.fail loc (.incompatibleArms s u)

/-- A conditional expression. A constant condition selects an arm unless they are void. -/
def conditional (c t f : Expr) (loc : Location) : Typing Expr := do
  let c ← c.condition
  let t := t.rvalue
  let f := f.rvalue
  let ty ← armsType t f loc
  let n : Note := ⟨ty, loc⟩
  if ty.isVoid then return cond n c t f
  else
    let t := t.convert ty
    let f := f.convert ty
    match c.intValue? with
    | some v => return if v != 0 then t else f
    | none => return cond n c t f

/-! ### Assignment -/

/-- The target of an assignment is an object, and no array. -/
def requireAssignable (target : Expr) (loc : Location) : Typing Unit :=
  if !target.isLvalue || target.ty.isArray then Typing.fail loc .notAssignable else return

def assignment (target value : Expr) (loc : Location) : Typing Expr := do
  let value ← value.assignConvert target.ty loc
  return assign ⟨target.ty, loc⟩ target value

/-- Assignment combined with an operation. -/
def opAssignment (op : BinaryOp) (target value : Expr) (loc : Location) : Typing Expr := do
  let value := value.rvalue
  let n : Note := ⟨target.ty, loc⟩
  if target.ty.isPointer && (op == .add || op == .sub) then
    if !value.ty.isInteger then Typing.fail loc (.invalidOperands op target.ty value.ty)
    return opAssign n op target.ty target (scaleIndex value target.ty)
  else
    if !acceptsOperands op target.ty value.ty then
      Typing.fail loc (.invalidOperands op target.ty value.ty)
    let ty := operationType op target.ty value.ty
    return opAssign n op ty target (value.convert ty)

/-- The operators `++` and `--`, before or behind their operand. -/
def stepNode (target : Expr) (increment before : Bool) (loc : Location) : Typing Expr :=
  if !target.isLvalue || !target.ty.isScalar then
    Typing.fail loc (.notSteppable increment target.ty)
  else
    let stride := BitVec.ofNat 64 (strideOf target.ty)
    return step ⟨target.ty, loc⟩ (if increment then stride else -stride) before target

/-! ### Unary operators -/

/-- Whether a value of one scalar type can be cast to another type. -/
def castable (source target : CType) : Bool :=
  target.isVoid ||
    (target.isScalar && source.isScalar && !(target.isDouble && source.isPointer)
      && !(target.isPointer && source.isDouble))

def castTo (e : Expr) (target : CType) (loc : Location) : Typing Expr :=
  let e := e.rvalue
  if castable e.ty target then return (e.convert target).withLoc loc
  else Typing.fail loc (.invalidCast e.ty target)

/-- The operator `&`. The address of a dereferenced pointer is the pointer. -/
def address (e : Expr) (loc : Location) : Typing Expr :=
  let n : Note := ⟨.pointer e.ty, loc⟩
  match e with
  | deref _ pointer => return pointer.withNote n
  | e =>
    let addressable := e.isLvalue || e.ty.isFunction || (e matches str ..)
    if addressable then return addrOf n e else Typing.fail loc .addressOfRvalue

/-- The unary operator `*`. Dereferencing an address gives back the object. -/
def indirection (e : Expr) (loc : Location) : Typing Expr :=
  let e := e.rvalue
  match e.ty with
  | .pointer pointee =>
    if pointee.isVoid then Typing.fail loc .voidDereference
    else match e with
      | addrOf _ object =>
        if object.ty = pointee then return object else return deref ⟨pointee, loc⟩ e
      | e => return deref ⟨pointee, loc⟩ e
  | ty => Typing.fail loc (.pointerRequired ty)

/-- The promoted operand of a sign or complement operator; `valid` says which types it
takes. -/
def promotedOperand (op : Punct) (valid : CType → Bool) (e : Expr) (loc : Location) :
    Typing Expr :=
  let e := e.rvalue
  if valid e.ty then return e.convert e.ty.promote
  else Typing.fail loc (.invalidUnary op e.ty)

/-- The unary operator `+`. -/
def plus (e : Expr) (loc : Location) : Typing Expr :=
  promotedOperand .plus CType.isArithmetic e loc

/-- The unary operator `-`. -/
def negation (e : Expr) (loc : Location) : Typing Expr := do
  let e ← promotedOperand .minus CType.isArithmetic e loc
  let n : Note := ⟨e.ty, loc⟩
  match e, e.ty with
  | int _ v, .int t => return int n (t.wrap (-v))
  | float _ v, _ => return float n v.neg
  | e, _ => return unary n .neg e

/-- The operator `~`. -/
def complement (e : Expr) (loc : Location) : Typing Expr := do
  let e ← promotedOperand .tilde CType.isInteger e loc
  let n : Note := ⟨e.ty, loc⟩
  match e, e.ty with
  | int _ v, .int t => return int n (t.wrap (~~~v))
  | e, _ => return unary n .bitNot e

/-- The operator `!`. -/
def logicalNot (e : Expr) (loc : Location) : Typing Expr :=
  let e := e.rvalue
  if e.ty.isScalar then return compareNode .eq e (zero ⟨e.ty, loc⟩) loc
  else Typing.fail loc (.invalidUnary .bang e.ty)

/-- The operator `sizeof` for a type. -/
def sizeOf (ty : CType) (loc : Location) : Typing Expr :=
  if ty.isComplete then return int ⟨.int .ulong, loc⟩ (BitVec.ofNat 64 ty.size)
  else Typing.fail loc (.incompleteSizeof ty)

/-! ### Subscripts and calls -/

def subscript (base index : Expr) (loc : Location) : Typing Expr := do
  let base := base.rvalue
  let index := index.rvalue
  let pointer ← match base.ty, index.ty with
    | .pointer _, .int _ => pure (pointerOffset .add base index loc)
    | .int _, .pointer _ => pure (pointerOffset .add index base loc)
    | _, _ => Typing.fail loc .notSubscriptable
  let element := pointer.ty.pointee?.getD .void
  if element.isVoid || element.isFunction then Typing.fail loc (.invalidSubscript pointer.ty)
  return deref ⟨element, loc⟩ pointer

/-- What is called: a function by name, or one that a pointer designates. -/
inductive Callee where
  | direct (name : String) (signature : Signature)
  | pointer (pointer : Expr) (signature : Signature)

namespace Callee

def signature : Callee → Signature
  | direct _ s | pointer _ s => s

/-- How a message refers to the callee. -/
def name : Callee → String
  | direct name _ => name
  | pointer .. => "function pointer"

end Callee

/-- Resolves the expression in front of an argument list. -/
def callee (e : Expr) (loc : Location) : Typing Callee :=
  match e, e.ty.signature? with
  | global _ name, some s => return .direct name s
  | e, _ =>
    let p := e.rvalue
    match p.ty.pointee?.bind CType.signature? with
    | some s => return .pointer p s
    | none => Typing.fail loc (.notCallable e.ty)

/-- Converts an argument that no parameter describes. -/
def promotedArgument (e : Expr) (loc : Location) : Typing Expr :=
  let e := e.rvalue
  if e.ty.isScalar then return e.convert e.ty.promote else Typing.fail loc (.notPassable e.ty)

/-- Converts arguments, each given with its place, to the parameters, as far as there are
any. -/
def convertArguments : List CType → List (Location × Expr) → Typing (List Expr)
  | _, [] => return []
  | [], (loc, e) :: args => do
    let e ← e.promotedArgument loc
    return e :: (← convertArguments [] args)
  | p :: ps, (loc, e) :: args => do
    let e ← e.assignConvert p loc
    return e :: (← convertArguments ps args)

/-- Whether values of the given types fit into the registers that pass arguments. -/
def fitsRegisters (tys : List CType) : Bool :=
  (tys.filter (!·.isDouble)).length ≤ maxIntArgs && (tys.filter (·.isDouble)).length ≤ maxDoubleArgs

def callNode (callee : Callee) (args : List (Location × Expr)) (loc : Location) :
    Typing Expr := do
  let s := callee.signature
  let expected := s.params.length
  if !s.unspecified && (args.length < expected || (expected < args.length && !s.variadic)) then
    Typing.fail loc (.argumentCount callee.name expected args.length)
  let args ← convertArguments (if s.unspecified then [] else s.params) args
  if !fitsRegisters (args.map Expr.ty) then Typing.fail loc .tooManyArguments
  let n : Note := ⟨s.ret, loc⟩
  match callee with
  | .direct name s => return call n name s args
  | .pointer p s => return callPointer n s p args

end LiveC.Expr

import LiveC.Program.Unit

/-!
Arithmetic on constants, in the type of the result, the types of integer constants, and constant
initialisers: which typed expressions have a value before the program runs, and how a string fills
an array.
-/

namespace LiveC

namespace BinaryOp

/-- The value of an operation on words of an integer type; division by zero has none.
Shift counts are taken modulo the width of a word. -/
def foldInt? (op : BinaryOp) (t : IntType) (a b : Word) : Option Word :=
  let count := b.toNat % 64
  let value? : Option Word := match op with
    | add => some (a + b)
    | sub => some (a - b)
    | mul => some (a * b)
    | div => if b = 0 then none else some (if t.signed then a.sdiv b else a / b)
    | rem => if b = 0 then none else some (if t.signed then a.srem b else a % b)
    | shl => some (a <<< count)
    | shr => some (if t.signed then a.sshiftRight count else a >>> count)
    | bitAnd => some (a &&& b)
    | bitOr => some (a ||| b)
    | bitXor => some (a ^^^ b)
  value?.map t.wrap

def foldDouble? (op : BinaryOp) (a b : Double) : Option Double :=
  match op with
  | add => some (a.add b)
  | sub => some (a.sub b)
  | mul => some (a.mul b)
  | div => some (a.div b)
  | _ => none

end BinaryOp

/-- The order of two words, as signed or as unsigned numbers. -/
def Word.order (signed : Bool) (a b : Word) : Ordering :=
  if signed then compare a.toInt b.toInt else compare a.toNat b.toNat

/-- The 0 or 1 that stands for a truth value. -/
def Word.ofBool (b : Bool) : Word := if b then 1 else 0

namespace IntType

/-- The types that an integer constant may have, in the order of preference. -/
def literalCandidates (unsigned long decimal : Bool) : List IntType :=
  match unsigned, long, decimal with
  | false, false, true => [int, IntType.long]
  | false, false, false => [int, uint, IntType.long, ulong]
  | true, false, _ => [uint, ulong]
  | false, true, true => [IntType.long]
  | false, true, false => [IntType.long, ulong]
  | true, true, _ => [ulong]

/-- The type of an integer constant: the first candidate that can represent it, and
`unsigned long` if none can. -/
def ofLiteral (value : Nat) (unsigned long decimal : Bool) : IntType :=
  ((literalCandidates unsigned long decimal).find? (·.fits value)).getD ulong

end IntType

/-! ### Constant initialisers -/

/-- The object that a pointer expression designates and the distance from its start, if
both are known before the program runs. -/
def Expr.constantAddress? : Expr → Option (AddressTarget × Word)
  | addrOf _ (global _ name) => some (.symbol name, 0)
  | addrOf _ (str _ id) => some (.str id, 0)
  | addrOf _ (deref _ pointer) => constantAddress? pointer
  | cast _ e => if e.ty.isPointer then constantAddress? e else none
  | binary _ .add base (int _ offset) =>
    (constantAddress? base).map fun (target, addend) => (target, addend + offset)
  | binary _ .sub base (int _ offset) =>
    (constantAddress? base).map fun (target, addend) => (target, addend - offset)
  | _ => none

/-- The value of an expression that was converted to the type of the object it initialises. -/
def Expr.constantValue? (e : Expr) (ty : CType) : Option InitValue :=
  match e with
  | int _ v => some (.int v ty.size)
  | float _ v => if ty.isDouble then some (.float v) else none
  | e =>
    if ty.isPointer then
      e.constantAddress?.map fun (target, addend) => .address target addend.toInt
    else none

/-- The bytes that a string stores into an array: cut or zero-padded to its length, and
with a terminating zero if the length is open. -/
def fitString (bytes : List UInt8) : Option Nat → List UInt8
  | some length => bytes.take length ++ List.replicate (length - bytes.length) 0
  | none => bytes ++ [0]

end LiveC

import LiveC.Typing.Constant
import LiveC.Typing.Error

/-!
Conversions of typed expressions: decay, conversion to a type, conversion as if by
assignment, and the 0-or-1 form of a condition.
-/

namespace LiveC.Expr

/-- Arrays and function designators become addresses. -/
def rvalue (e : Expr) : Expr :=
  match e.ty with
  | .array element _ => addrOf ⟨.pointer element, e.loc⟩ e
  | .function .. => addrOf ⟨.pointer e.ty, e.loc⟩ e
  | _ => e

/-- Converts a scalar to a type, a constant at once. -/
def convert (e : Expr) (target : CType) : Expr :=
  let n : Note := ⟨target, e.loc⟩
  if e.ty = target then e
  else match e, target with
    | int _ v, .int t => int n (t.wrap v)
    | int _ v, .pointer _ => int n v
    | int m v, .double =>
      float n (if m.ty.intType?.any (!·.signed) then Double.ofNat v else Double.ofInt v)
    | float _ v, .int t => int n (t.wrap v.toIntSaturating)
    | _, _ => cast n e

/-- Converts as assignment, passing of an argument and return do. -/
def assignConvert (e : Expr) (target : CType) (loc : Location) : Typing Expr := do
  let e := e.rvalue
  if !(e.ty.isArithmetic && target.isArithmetic) then
    match e.ty, target with
    | .pointer s, .pointer t =>
      if s != t && !s.isVoid && !t.isVoid then
        Typing.warn loc (.incompatiblePointers e.ty target)
    | .int _, .pointer _ =>
      if e.intValue? != some 0 then Typing.warn loc .pointerFromInteger
    | .pointer _, .int _ => Typing.warn loc .integerFromPointer
    | source, target => Typing.fail loc (.incompatible source target)
  return e.convert target

/-- The zero of a scalar type. -/
def zero (n : Note) : Expr :=
  match n.ty with
  | .double => float n .zero
  | _ => int n 0

/-- A comparison of two operands of one type, settled at once for integer constants. -/
def compareNode (op : CompareOp) (l r : Expr) (loc : Location) : Expr :=
  let n : Note := ⟨.int .int, loc⟩
  match l, r with
  | int m a, int _ b =>
    let signed := m.ty.intType?.any (·.signed)
    int n (Word.ofBool (op.holds (Word.order signed a b)))
  | l, r => compare n op l r

/-- The 0-or-1 form of a controlling expression. -/
def condition (e : Expr) : Typing Expr :=
  let e := e.rvalue
  if !e.ty.isScalar then Typing.fail e.loc (.scalarRequired e.ty)
  else if e.isBoolean then return e
  else return compareNode .ne e (zero ⟨e.ty, e.loc⟩) e.loc

/-- The value of an integer constant expression. -/
def constantInt (e : Expr) : Typing Word :=
  match e with
  | int n v => if n.ty.isInteger then return v else Typing.fail n.loc .integerConstantExpected
  | e => Typing.fail e.loc .integerConstantExpected

end LiveC.Expr

import LiveC.CType.Basic
import LiveC.Source.Location
import LiveC.Double

/-!
Typed expressions. Conversions are explicit: an implicit one is a `cast` node, arrays and
function designators have become addresses, and subscripts and pointer arithmetic are
scaled additions. Code generation needs no other knowledge of C's conversions.
-/

namespace LiveC

inductive UnaryOp where
  | neg | bitNot
  deriving DecidableEq, Repr

inductive BinaryOp where
  | add | sub | mul | div | rem | shl | shr | bitAnd | bitOr | bitXor
  deriving DecidableEq, Repr

namespace BinaryOp

def symbol : BinaryOp → String
  | add => "+"
  | sub => "-"
  | mul => "*"
  | div => "/"
  | rem => "%"
  | shl => "<<"
  | shr => ">>"
  | bitAnd => "&"
  | bitOr => "|"
  | bitXor => "^"

def isShift : BinaryOp → Bool
  | shl | shr => true
  | _ => false

end BinaryOp

inductive CompareOp where
  | eq | ne | lt | le | gt | ge
  deriving DecidableEq, Repr

/-- Whether two values that stand in the given order satisfy a comparison. -/
def CompareOp.holds : CompareOp → Ordering → Bool
  | eq, o => o.isEq
  | ne, o => o.isNe
  | lt, o => o.isLT
  | le, o => o.isLE
  | gt, o => o.isGT
  | ge, o => o.isGE

/-- The operators that evaluate their right operand only if the left one does not decide. -/
inductive LogicOp where
  | and | or
  deriving DecidableEq, Repr

def LogicOp.apply : LogicOp → Bool → Bool → Bool
  | and => (· && ·)
  | or => (· || ·)

/-- What every expression carries: its type and its place in the source. -/
structure Note where
  ty : CType
  loc : Location
  deriving DecidableEq, Repr

/-- A typed expression. -/
inductive Expr where
  /-- An integer or null pointer constant, in the canonical form of its type. -/
  | int (n : Note) (value : Word)
  | float (n : Note) (value : Double)
  /-- A string literal of the unit, by number. -/
  | str (n : Note) (id : Nat)
  /-- A local variable, by number. -/
  | var (n : Note) (id : Nat)
  /-- A global variable or a function, by name. -/
  | global (n : Note) (name : String)
  | unary (n : Note) (op : UnaryOp) (e : Expr)
  /-- Operands have the type of the node, or are scaled for pointer arithmetic. -/
  | binary (n : Note) (op : BinaryOp) (l r : Expr)
  /-- Operands have one type; the value is 0 or 1. -/
  | compare (n : Note) (op : CompareOp) (l r : Expr)
  | logic (n : Note) (op : LogicOp) (l r : Expr)
  | assign (n : Note) (target value : Expr)
  /-- `target op= value`, computed in the type `opTy`. -/
  | opAssign (n : Note) (op : BinaryOp) (opTy : CType) (target value : Expr)
  /-- Adds `delta`, scaled for pointers; the value is the one before or behind the step. -/
  | step (n : Note) (delta : Word) (before : Bool) (target : Expr)
  | cond (n : Note) (c t f : Expr)
  /-- Conversion to the type of the node. -/
  | cast (n : Note) (e : Expr)
  /-- The object that a pointer designates. -/
  | deref (n : Note) (e : Expr)
  /-- The address of an object or function. -/
  | addrOf (n : Note) (e : Expr)
  | call (n : Note) (name : String) (signature : Signature) (args : List Expr)
  | callPointer (n : Note) (signature : Signature) (callee : Expr) (args : List Expr)
  | comma (n : Note) (l r : Expr)
  deriving Repr

namespace Expr

def note : Expr → Note
  | int n _ | float n _ | str n _ | var n _ | global n _ | unary n _ _ | binary n _ _ _
  | compare n _ _ _ | logic n _ _ _ | assign n _ _ | opAssign n _ _ _ _ | step n _ _ _
  | cond n _ _ _ | cast n _ | deref n _ | addrOf n _ | call n _ _ _ | callPointer n _ _ _
  | comma n _ _ => n

def ty (e : Expr) : CType := e.note.ty

def loc (e : Expr) : Location := e.note.loc

/-- The same node with another type and place. -/
def withNote (e : Expr) (n : Note) : Expr :=
  match e with
  | int _ v => int n v
  | float _ v => float n v
  | str _ id => str n id
  | var _ id => var n id
  | global _ name => global n name
  | unary _ op e => unary n op e
  | binary _ op l r => binary n op l r
  | compare _ op l r => compare n op l r
  | logic _ op l r => logic n op l r
  | assign _ t v => assign n t v
  | opAssign _ op ty t v => opAssign n op ty t v
  | step _ d b t => step n d b t
  | cond _ c t f => cond n c t f
  | cast _ e => cast n e
  | deref _ e => deref n e
  | addrOf _ e => addrOf n e
  | call _ name s args => call n name s args
  | callPointer _ s c args => callPointer n s c args
  | comma _ l r => comma n l r

/-- The same expression at another place. -/
def withLoc (e : Expr) (loc : Location) : Expr := e.withNote ⟨e.ty, loc⟩

/-- Whether the expression designates an object. -/
def isLvalue : Expr → Bool
  | var .. | deref .. => true
  | global n _ => !n.ty.isFunction
  | _ => false

/-- Whether the value is 0 or 1 by the form of the expression. -/
def isBoolean : Expr → Bool
  | compare .. | logic .. => true
  | _ => false

def intValue? : Expr → Option Word
  | int _ v => some v
  | _ => none

mutual

/-- The height of the tree; a leaf has height one. -/
def height : Expr → Nat
  | int .. | float .. | str .. | var .. | global .. => 1
  | unary _ _ e | step _ _ _ e | cast _ e | deref _ e | addrOf _ e => height e + 1
  | binary _ _ l r | compare _ _ l r | logic _ _ l r | assign _ l r | opAssign _ _ _ l r
  | comma _ l r => max (height l) (height r) + 1
  | cond _ c t f => max (max (height c) (height t)) (height f) + 1
  | call _ _ _ args => heightAll args + 1
  | callPointer _ _ c args => max (height c) (heightAll args) + 1

/-- The largest height in a list, zero if there is none. -/
def heightAll : List Expr → Nat
  | [] => 0
  | e :: es => max (height e) (heightAll es)

end

end Expr

end LiveC

import LiveC.Program.Unit
import LiveC.Text.Bytes

/-!
The written form of typed trees: one parenthesised form for each node, with its type, its
place and the height of its tree.
-/

namespace LiveC

def UnaryOp.name : UnaryOp → String
  | neg => "Neg"
  | bitNot => "BitNot"

def BinaryOp.name : BinaryOp → String
  | add => "Add"
  | sub => "Sub"
  | mul => "Mul"
  | div => "Div"
  | rem => "Rem"
  | shl => "Shl"
  | shr => "Shr"
  | bitAnd => "BitAnd"
  | bitOr => "BitOr"
  | bitXor => "BitXor"

def CompareOp.name : CompareOp → String
  | eq => "Eq"
  | ne => "Ne"
  | lt => "Lt"
  | le => "Le"
  | gt => "Gt"
  | ge => "Ge"

def LogicOp.name : LogicOp → String
  | and => "and"
  | or => "or"

namespace Double

/-- The bits as sixteen hexadecimal digits; every NaN is written alike. -/
def writtenBits (d : Double) : String :=
  if d.isNaN then "nan"
  else Text.hexOfBytes (Word.toBytes d.bits 8).reverse

end Double

/-- Items in parentheses, separated by blanks. -/
def parenthesised (items : List String) : String := "(" ++ " ".intercalate items ++ ")"

namespace Expr

/-- What a call's head says about unchecked arguments. -/
def signatureMark (s : Signature) : String :=
  if s.unspecified then " ()" else if s.variadic then " ..." else ""

/-- The kind of the node with its own data. -/
def head : Expr → String
  | int _ v => s!"int {v.toInt}"
  | float _ v => s!"float {v.writtenBits}"
  | str _ id => s!"str {id}"
  | var _ id => s!"local {id}"
  | global _ name => s!"global {name}"
  | unary _ op _ => s!"unary {op.name}"
  | binary _ op _ _ => s!"binary {op.name}"
  | compare _ op _ _ => s!"compare {op.name}"
  | logic _ op _ _ => op.name
  | assign .. => "assign"
  | opAssign _ op ty _ _ => s!"opassign {op.name} <{ty.render}>"
  | step _ delta before _ => s!"incdec {delta.toInt} " ++ (if before then "pre" else "post")
  | cond .. => "cond"
  | cast .. => "cast"
  | deref .. => "deref"
  | addrOf .. => "addrof"
  | call _ name s _ => s!"call {name}" ++ signatureMark s
  | callPointer _ s _ _ => "icall" ++ signatureMark s
  | comma .. => "comma"

mutual

/-- The written form of an expression. -/
def written (e : Expr) : String :=
  parenthesised (e.head :: s!"<{e.ty.render}>" :: e.loc.render :: toString e.height :: match e with
    | int .. | float .. | str .. | var .. | global .. => []
    | unary _ _ e | step _ _ _ e | cast _ e | deref _ e | addrOf _ e => [written e]
    | binary _ _ l r | compare _ _ l r | logic _ _ l r | assign _ l r | opAssign _ _ _ l r
    | comma _ l r => [written l, written r]
    | cond _ c t f => [written c, written t, written f]
    | call _ _ _ args => writtenAll args
    | callPointer _ _ c args => written c :: writtenAll args)

def writtenAll : List Expr → List String
  | [] => []
  | e :: es => written e :: writtenAll es

end

/-- The written form of a part that may be missing. -/
def writtenOption (e : Option Expr) : String := (e.map written).getD "-"

end Expr

namespace Stmt

mutual

/-- The written form of a statement. -/
def written : Stmt → String
  | expr e => parenthesised ["expr", e.written]
  | init id zero stores =>
    parenthesised (s!"init {id}" :: (if zero then ["zero"] else []) ++
      stores.map fun s => parenthesised [toString s.offset, s.value.written])
  | block body => parenthesised ("block" :: writtenAll body)
  | ite c t f => parenthesised ["if", c.written, written t, writtenOption f]
  | .while c body => parenthesised ["while", c.written, written body]
  | doWhile body c => parenthesised ["do", written body, c.written]
  | .for start c step body =>
    parenthesised ["for", writtenOption start, Expr.writtenOption c, Expr.writtenOption step,
      written body]
  | .break => "(break)"
  | .continue => "(continue)"
  | .return value => parenthesised ["return", Expr.writtenOption value]
  | empty => "(empty)"

def writtenAll : List Stmt → List String
  | [] => []
  | s :: ss => written s :: writtenAll ss

def writtenOption : Option Stmt → String
  | none => "-"
  | some s => written s

end

end Stmt

def LocalVar.written (v : LocalVar) : String :=
  s!"{v.name}: {v.ty.render} size {v.ty.size} align {v.ty.align}"

def InitItem.written (item : InitItem) : String :=
  match item.value with
  | .int v size => s!"{item.offset} int {v.toInt} size {size}"
  | .float v => s!"{item.offset} float {v.writtenBits}"
  | .bytes bs => s!"{item.offset} bytes {Text.hexOfBytes bs}"
  | .address (.symbol name) addend => s!"{item.offset} symbol {name} {addend}"
  | .address (.str id) addend => s!"{item.offset} string {id} {addend}"

namespace SymbolTable

def writtenEntry (name : String) (s : GlobalSymbol) : String :=
  s!"{name}: {s.ty.render}"
    ++ (if s.ty.signature?.any (·.unspecified) then " unspecified" else "")
    ++ (if s.defined then " defined" else "")
    ++ (if s.isStatic then " static" else "")

/-- The written form of every symbol, in the order of the texts. -/
def written (t : SymbolTable) : List String :=
  (t.entries.map fun (name, s) => writtenEntry name s).mergeSort fun a b => decide (a ≤ b)

end SymbolTable

end LiveC

import LiveC.Parser.Productions
import LiveC.Typing.Operator

/-!
The grammar of expressions: comma, assignment, conditional, ten levels of binary
operators, casts, prefix and postfix operators, and primary expressions.
-/

namespace LiveC

/-- What a binary operator computes. -/
inductive Operator where
  | logic (op : LogicOp)
  | compare (op : CompareOp)
  | arith (op : BinaryOp)
  deriving DecidableEq, Repr

namespace Operator

/-- The binary operator that a punctuator is. -/
def ofPunct? : Punct → Option Operator
  | .star => some (.arith .mul)
  | .slash => some (.arith .div)
  | .percent => some (.arith .rem)
  | .plus => some (.arith .add)
  | .minus => some (.arith .sub)
  | .shl => some (.arith .shl)
  | .shr => some (.arith .shr)
  | .lt => some (.compare .lt)
  | .gt => some (.compare .gt)
  | .le => some (.compare .le)
  | .ge => some (.compare .ge)
  | .eq => some (.compare .eq)
  | .ne => some (.compare .ne)
  | .amp => some (.arith .bitAnd)
  | .caret => some (.arith .bitXor)
  | .bar => some (.arith .bitOr)
  | .andAnd => some (.logic .and)
  | .orOr => some (.logic .or)
  | _ => none

/-- How loosely an operator binds: each level's operands are of the level below. -/
def level : Operator → Nat
  | arith .mul | arith .div | arith .rem => 1
  | arith .add | arith .sub => 2
  | arith .shl | arith .shr => 3
  | compare .lt | compare .gt | compare .le | compare .ge => 4
  | compare .eq | compare .ne => 5
  | arith .bitAnd => 6
  | arith .bitXor => 7
  | arith .bitOr => 8
  | logic .and => 9
  | logic .or => 10

/-- The level of the operators that bind most loosely. -/
def maxLevel : Nat := 10

/-- The typed node of an operator and its operands. -/
def apply (op : Operator) (l r : Expr) (loc : Location) : Typing Expr :=
  match op with
  | logic op => l.logical op r loc
  | compare op => l.rvalue.comparison op r.rvalue loc
  | arith op => l.rvalue.arithmetic op r.rvalue loc

end Operator

/-- What an assignment operator does beside assigning: nothing, or an operation. -/
def Punct.assignmentOp? : Punct → Option (Option BinaryOp)
  | .assign => some none
  | .plusAssign => some (some .add)
  | .minusAssign => some (some .sub)
  | .starAssign => some (some .mul)
  | .slashAssign => some (some .div)
  | .percentAssign => some (some .rem)
  | .shlAssign => some (some .shl)
  | .shrAssign => some (some .shr)
  | .ampAssign => some (some .bitAnd)
  | .barAssign => some (some .bitOr)
  | .caretAssign => some (some .bitXor)
  | _ => none

/-- The greatest height of an operand or of a chain of operators. -/
def maxExprHeight : Nat := 256

namespace Parser

/-- Refuses an expression that is too high. -/
def bounded (e : Expr) : Parser Expr :=
  if maxExprHeight < e.height then fail e.loc .expressionTooDeep else return e

def peekPunct? : Parser (Option Punct) := do
  match (← peek).kind with
  | .punct p => return some p
  | _ => return none

/-- Expressions joined by commas. -/
def expression (g : Productions) : Parser Expr := do
  iterate (fun l => do
    if ← check .comma then
      let loc := (← next).loc
      let r := (← g.assignment).rvalue
      return .yield (← bounded (.comma ⟨r.ty, loc⟩ l r))
    else return .done l) (← g.assignment)

/-- Operands joined by binary operators up to a level, grouped from the left. -/
def binary (g : Productions) : Nat → Parser Expr
  | 0 => do bounded (← g.cast)
  | n + 1 => do
    iterate (fun l => do
      match (← peekPunct?).bind Operator.ofPunct? with
      | some op =>
        if op.level = n + 1 then
          let loc := (← next).loc
          let r ← binary g n
          return .yield (← bounded (← typed (op.apply l r loc)))
        else return .done l
      | none => return .done l) (← binary g n)

def conditional (g : Productions) : Parser Expr := do
  let c ← binary g Operator.maxLevel
  if ← check .question then
    let loc := (← next).loc
    let t ← expression g
    expect .colon
    let f ← g.conditional
    typed (Expr.conditional c t f loc)
  else return c

def assignment (g : Productions) : Parser Expr := do
  let target ← conditional g
  match (← peekPunct?).bind Punct.assignmentOp? with
  | none => return target
  | some op? =>
    let loc := (← next).loc
    typed (target.requireAssignable loc)
    let value ← g.assignment
    match op? with
    | none => typed (target.assignment value loc)
    | some op => typed (Expr.opAssignment op target value loc)

/-- A type without a declared name. -/
def typeName (g : Productions) : Parser CType := do
  let loc ← loc
  let spec ← declSpecifiers
  if spec.storage.isSome then refuse loc .storageInTypeName
  let d ← g.declarator spec.ty true
  match d.name with
  | some (name, loc) => fail loc (.unexpectedNameInType name)
  | none => return d.ty

/-- Whether a parenthesised type name follows. -/
def atTypeName : Parser Bool := do
  if ← check .lparen then startsType (← peekSecond) else return false

/-- The operand of `sizeof`, whose place is given. -/
def sizeofOperand (g : Productions) (loc : Location) : Parser Expr := do
  if ← atTypeName then
    let _ ← next
    let ty ← typeName g
    expect .rparen
    typed (Expr.sizeOf ty loc)
  else typed (Expr.sizeOf (← g.unary).ty loc)

/-- The arguments of a call behind the opening parenthesis, each with its place. -/
def arguments (g : Productions) : Parser (List (Location × Expr)) := do
  if ← eat .rparen then return []
  else iterate (fun args => do
    let loc ← loc
    let args := args ++ [(loc, ← g.assignment)]
    if ← eat .comma then return .yield args
    else
      expect .rparen
      return .done args) []

/-- A call, behind the opening parenthesis. -/
def call (g : Productions) (callee : Expr) (loc : Location) : Parser Expr := do
  let callee ← typed (callee.callee loc)
  let args ← arguments g
  typed (Expr.callNode callee args loc)

/-- Records a string literal and gives its number. -/
def addString (bytes : List UInt8) : Parser Nat := fun s =>
  .ok s.unit.strings.length { s with unit := { s.unit with strings := s.unit.strings ++ [bytes] } }

/-- Reads the string literals that follow, as one. -/
def adjacentStrings (bytes : List UInt8) : Parser (List UInt8) :=
  iterate (fun bytes => do
    match (← peek).kind with
    | .str more =>
      let _ ← next
      return .yield (bytes ++ more)
    | _ => return .done bytes) bytes

/-- Enters a function's type; a prototype replaces an earlier empty parameter list. -/
def declareFunction (name : String) (ty : CType) (isStatic : Bool) (loc : Location) :
    Parser Unit := do
  match ← findSymbol? name with
  | none => setSymbol name ⟨ty, false, isStatic⟩
  | some old =>
    match old.ty.signature?, ty.signature? with
    | some s, some t =>
      let compatible := s.ret == t.ret &&
        (s.unspecified || t.unspecified || (s.params == t.params && s.variadic == t.variadic))
      if !compatible then refuse loc (.conflictingTypes name)
      if !old.defined && s.unspecified then setSymbol name { old with ty }
    | some _, none => refuse loc (.conflictingTypes name)
    | none, _ => refuse loc (.differentKind name)

/-- A name used as an expression. An unknown name in front of a parenthesis is declared as
a function of unspecified parameters. -/
def identifier (name : String) (loc : Location) : Parser Expr := do
  match ← find? name with
  | some (.local id) =>
    match (← get).locals[id]? with
    | some v => return .var ⟨v.ty, loc⟩ id
    | none => refuse loc (.unknownSymbol name)
  | some (.global symbol) =>
    match ← findSymbol? symbol with
    | some s => return .global ⟨s.ty, loc⟩ symbol
    | none => refuse loc (.unknownSymbol name)
  | some (.typedef _) => fail loc (.unexpectedTypeName name)
  | none =>
    if ← check .lparen then
      warn loc (.implicitFunction name)
      let ty : CType := .function (.int .int) [] false true
      declareFunction name ty false loc
      bindFile name (.global name)
      return .global ⟨ty, loc⟩ name
    else refuse loc (.undeclared name)

def primary (g : Productions) : Parser Expr := do
  let t ← next
  let loc := t.loc
  match t.kind with
  | .int value unsigned long decimal =>
    let ty := IntType.ofLiteral value unsigned long decimal
    if !ty.fits value then warn loc .constantTooLarge
    return .int ⟨.int ty, loc⟩ (BitVec.ofNat 64 value)
  | .float value => return .float ⟨.double, loc⟩ value
  | .char value => return .int ⟨.int .int, loc⟩ (BitVec.ofInt 64 value)
  | .str first =>
    let bytes := (← adjacentStrings first) ++ [0]
    let id ← addString bytes
    return .str ⟨.array (.int .char) (some bytes.length), loc⟩ id
  | .punct .lparen =>
    let e ← expression g
    expect .rparen
    return e
  | .ident name => identifier name loc
  | kind => fail loc (.expectedExpression kind)

/-- A primary expression with the subscripts, calls and steps behind it. -/
def postfixed (g : Productions) : Parser Expr := do
  iterate (fun e => do
    let t ← peek
    match t.kind with
    | .punct .lbracket =>
      let _ ← next
      let index ← expression g
      expect .rbracket
      return .yield (← typed (e.subscript index t.loc))
    | .punct .lparen =>
      let _ ← next
      return .yield (← call g e t.loc)
    | .punct .increment =>
      let _ ← next
      return .yield (← typed (e.stepNode true false t.loc))
    | .punct .decrement =>
      let _ ← next
      return .yield (← typed (e.stepNode false false t.loc))
    | .punct .dot | .punct .arrow => refuse t.loc .memberAccess
    | _ => return .done e) (← primary g)

def unary (g : Productions) : Parser Expr := do
  let t ← peek
  /- An operator, its operand and the typing step. -/
  let operator (operand : Parser Expr) (f : Expr → Location → Typing Expr) : Parser Expr := do
    let _ ← next
    typed (f (← operand) t.loc)
  match t.kind with
  | .keyword .sizeofKw =>
    let _ ← next
    sizeofOperand g t.loc
  | .punct .increment => operator g.unary (·.stepNode true true)
  | .punct .decrement => operator g.unary (·.stepNode false true)
  | .punct .amp => operator g.cast Expr.address
  | .punct .star => operator g.cast Expr.indirection
  | .punct .plus => operator g.cast Expr.plus
  | .punct .minus => operator g.cast Expr.negation
  | .punct .tilde => operator g.cast Expr.complement
  | .punct .bang => operator g.cast Expr.logicalNot
  | _ => postfixed g

def cast (g : Productions) : Parser Expr := do
  if ← atTypeName then
    let loc := (← next).loc
    let ty ← typeName g
    expect .rparen
    typed ((← g.cast).castTo ty loc)
  else unary g

end Parser

end LiveC

import LiveC.Parser.Declarator
import LiveC.Typing.Constant

/-!
Initialisers: brace lists, strings for character arrays, and scalar expressions. Objects
of static duration and local ones share the grammar and differ in what an element yields.
-/

namespace LiveC

/-- What the leaves of an initialiser yield. -/
structure InitForm (ι : Type) where
  /-- A string at an offset, for an array of an element type and a length. -/
  string : CType → Option Nat → Nat → List UInt8 → Location → List ι
  /-- A value, converted to the type of the object, at an offset. -/
  scalar : CType → Nat → Expr → Location → Typing ι

namespace InitForm

/-- Static objects take constants. -/
def static : InitForm InitItem where
  string _ length offset bytes _ := [⟨offset, .bytes (fitString bytes length)⟩]
  scalar ty offset e loc :=
    match e.constantValue? ty with
    | some value => return ⟨offset, value⟩
    | none => Typing.fail loc .notConstant

/-- The stores of a string's bytes from an offset on; zeros are there already. -/
def byteStores (n : Note) (offset : Nat) : List UInt8 → List InitStore
  | [] => []
  | b :: bs =>
    let rest := byteStores n (offset + 1) bs
    if b = 0 then rest
    else
      let v := BitVec.ofNat 64 b.toNat
      ⟨offset, .int n ((n.ty.intType?.map (·.wrap v)).getD v)⟩ :: rest

/-- Local objects are stored to, element by element. -/
def automatic : InitForm InitStore where
  string element length offset bytes loc :=
    byteStores ⟨element, loc⟩ offset (bytes.take (length.getD bytes.length))
  scalar _ offset e _ := return ⟨offset, e⟩

end InitForm

namespace Parser

def peekIsString : Parser Bool := return (← peek).kind matches .str _

/-- The string that initialises an array of an element type, if one follows. -/
def stringForArray (element : CType) : Parser (Option (List UInt8)) := do
  let braced := (← check .lbrace) && (← peekSecond).kind matches .str _
  let isString ← peekIsString
  if element.intType?.any (·.width == .w8) && element.isInteger && (isString || braced) then
    if braced then
      let _ ← next
    let bytes ← adjacentStrings []
    if braced then expect .rbrace
    return some bytes
  else return none

/-- The elements of a brace list behind its brace: their number and what they yield. -/
def elements {ι : Type} (element : Nat → Parser (List ι)) (length : Option Nat) :
    Parser (Nat × List ι) :=
  iterate (fun (count, items) => do
    if ← check .rbrace then return .done (count, items)
    else
      if length.any (· ≤ count) then refuse (← loc) .excessElements
      let state := (count + 1, items ++ (← element count))
      if ← eat .comma then return .yield state else return .done state) (0, [])

/-- Reads the initialiser of an object of a type at an offset, and gives the type with its
length filled in. The initialisers of elements are read by `nested`. -/
def initializer {ι : Type} (g : Productions) (form : InitForm ι)
    (nested : CType → Nat → Parser (CType × List ι)) (ty : CType) (offset : Nat) :
    Parser (CType × List ι) := do
  let loc ← loc
  match ty with
  | .array element length =>
    match ← stringForArray element with
    | some bytes =>
      return (.array element (some (length.getD (bytes.length + 1))),
        form.string element length offset bytes loc)
    | none =>
      unless ← eat .lbrace do refuse loc .bracesExpected
      let (count, items) ← elements
        (fun i => return (← nested element (offset + i * element.size)).2) length
      expect .rbrace
      return (.array element (some (length.getD count)), items)
  | ty =>
    let braced ← eat .lbrace
    let e ← g.assignment
    if braced then
      let _ ← eat .comma
      expect .rbrace
    let item ← typed do form.scalar ty offset (← e.assignConvert ty loc) loc
    return (ty, [item])

end Parser

end LiveC

import LiveC.Machine.Assembler
import LiveC.Object.Basic
import LiveC.Program.Unit

/-!
What generated code refers to, and the errors of lowering a unit to an object.
-/

namespace LiveC

/-- What an address in generated code stands for. -/
inductive CodeTarget where
  /-- A function of the unit, by the label at its entry. -/
  | entry (l : Label)
  /-- A byte of a section of the unit. -/
  | place (sectionId offset : Nat)
  /-- A symbol that something else provides. -/
  | imported (name : String)
  deriving DecidableEq, Repr

/-- The contents of a linked field. -/
structure Reference where
  kind : RelocKind
  target : CodeTarget
  expected : Option SymbolKind
  deriving DecidableEq, Repr

/-- Code of a unit. -/
abbrev UnitCode := Code Reference

/-- Where the names and the string literals of a unit are. -/
structure UnitLayout where
  entries : List (String × Label)
  /-- The section and offset of each global variable. -/
  data : List (String × Nat × Nat)
  strings : List (Nat × Nat)

/-- What a file-scope name stands for in code: a function of the unit, a variable of it, or
else something imported. -/
def UnitLayout.target (u : UnitLayout) (name : String) : CodeTarget :=
  match u.entries.lookup name, u.data.lookup name with
  | some l, _ => .entry l
  | none, some (sectionId, offset) => .place sectionId offset
  | none, none => .imported name

/-- Why a function cannot be lowered. A typed unit only ever has frames that are too
large. -/
inductive LoweringError where
  | frameTooLarge (name : String)
  | stackParameters
  | stackArguments
  | storeOf (ty : CType)
  | notAddressable
  | notOnDoubles (op : BinaryOp)
  | stepTooLarge (delta : Word)
  | outsideLoop
  | unknownString (id : Nat)
  | unknownVariable (id : Nat)
  deriving DecidableEq, Repr

/-- Lowering creates labels, or fails. -/
abbrev Lowering := StateT Label (Except LoweringError)

def Lowering.newLabel : Lowering Label := fun l => .ok (l, l + 1)

end LiveC

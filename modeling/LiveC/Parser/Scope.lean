import LiveC.CType.Basic

/-!
Names in scope: the file's names and, from the innermost outward, those of the open
blocks. A look-up finds the latest declaration in the innermost scope that has one.
-/

namespace LiveC

/-- What a name is bound to. -/
inductive Binding where
  /-- A local variable or parameter of the current function, by number. -/
  | local (id : Nat)
  /-- A symbol of the unit, by its own name. -/
  | global (name : String)
  | typedef (ty : CType)
  deriving DecidableEq, Repr

def Binding.isTypedef : Binding → Bool
  | typedef _ => true
  | _ => false

/-- The declarations of one scope, the latest first. -/
abbrev Scope := List (String × Binding)

structure ScopeStack where
  file : Scope := []
  /-- The open blocks, innermost first. -/
  blocks : List Scope := []
  deriving DecidableEq, Repr

namespace ScopeStack

def find? (s : ScopeStack) (name : String) : Option Binding :=
  (s.blocks ++ [s.file]).findSome? fun scope => scope.lookup name

/-- Declares a name in the innermost scope. -/
def bind (s : ScopeStack) (name : String) (b : Binding) : ScopeStack :=
  match s.blocks with
  | [] => { s with file := (name, b) :: s.file }
  | scope :: outer => { s with blocks := ((name, b) :: scope) :: outer }

/-- Declares a name in the file's scope. -/
def bindFile (s : ScopeStack) (name : String) (b : Binding) : ScopeStack :=
  { s with file := (name, b) :: s.file }

def openBlock (s : ScopeStack) : ScopeStack := { s with blocks := [] :: s.blocks }

def closeBlock (s : ScopeStack) : ScopeStack := { s with blocks := s.blocks.tail }

/-- Leaves every block. -/
def closeAll (s : ScopeStack) : ScopeStack := { s with blocks := [] }

end ScopeStack

end LiveC

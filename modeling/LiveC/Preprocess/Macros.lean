import LiveC.Token.Basic

/-!
Object-like macros and their expansion. A macro is not expanded inside its own
expansion: the body of a macro is expanded with the table that lacks it, so nesting is
bounded by the size of the table.
-/

namespace LiveC

/-- Macro definitions, at most one for each name. -/
structure MacroTable where
  entries : List (String × List Token) := []
  deriving Repr

namespace MacroTable

/-- The body of a macro. -/
def find? (m : MacroTable) (name : String) : Option (List Token) := m.entries.lookup name

def contains (m : MacroTable) (name : String) : Bool := (m.find? name).isSome

/-- Removes a definition if there is one. -/
def erase (m : MacroTable) (name : String) : MacroTable :=
  ⟨m.entries.filter (·.1 != name)⟩

/-- Defines a macro, in place of an earlier definition. -/
def insert (m : MacroTable) (name : String) (body : List Token) : MacroTable :=
  ⟨(name, body) :: (m.erase name).entries⟩

def size (m : MacroTable) : Nat := m.entries.length

theorem size_erase_lt {m : MacroTable} {name : String} {body : List Token}
    (h : m.find? name = some body) : (m.erase name).size < m.size := by
  obtain ⟨entries⟩ := m
  simp only [find?, erase, size] at *
  induction entries with
  | nil => simp at h
  | cons e es ih =>
    obtain ⟨n, b⟩ := e
    by_cases he : n = name
    · subst he
      simp only [List.filter_cons, bne_self_eq_false, Bool.false_eq_true, if_false]
      exact Nat.lt_succ_of_le (List.length_filter_le _ _)
    · have hne : (name == n) = false := by simp [Ne.symm he]
      simp only [List.lookup_cons, hne] at h
      simpa [he] using ih h

/-- The tokens that a token used at `loc` stands for. -/
def expand (m : MacroTable) (loc : Location) (kind : TokenKind) : List Token :=
  match kind with
  | .ident name =>
    match h : m.find? name with
    | some body =>
      have := size_erase_lt h
      body.flatMap fun t => expand (m.erase name) loc t.kind
    | none => [⟨kind, loc⟩]
  | _ => [⟨kind, loc⟩]
termination_by m.size

end MacroTable

end LiveC

import LiveC.Program.Unit
import LiveC.Token.Basic
import Std.Data.String.ToNat

/-!
The names of a unit. Identifiers have no dots, which sets the numbered names of static local
variables apart from them. A symbol table leads to another one if no plain name is defined in
between and functions stay functions, variables stay variables.
-/

namespace LiveC

/-- A name without a dot, such as every identifier. -/
def IsPlain (name : String) : Prop := '.' ∉ name.toList

/-- Identifiers have no dots. -/
def TokenKind.IsPlain : TokenKind → Prop
  | .ident name => LiveC.IsPlain name
  | _ => True

/-- The name of the static local variable of a number. -/
def IsNumbered (n : Nat) (name : String) : Prop :=
  ∃ owner inner : String, name = s!"{owner}.{inner}.{n}"

namespace IsNumbered

variable {n m : Nat} {name : String}

theorem toList (h : IsNumbered n name) :
    ∃ front, name.toList = front ++ '.' :: n.repr.toList := by
  obtain ⟨owner, inner, rfl⟩ := h
  refine ⟨owner.toList ++ '.' :: inner.toList, ?_⟩
  simp only [toString, String.toList_append, List.append_assoc, List.cons_append]
  rfl

theorem not_isPlain (h : IsNumbered n name) : ¬IsPlain name := by
  obtain ⟨front, split⟩ := h.toList
  intro plain
  apply plain
  rw [split]
  exact List.mem_append_right _ (.head _)

/-- The number is what stands behind the last dot. -/
theorem behindDot (h : IsNumbered n name) :
    name.toList.reverse.takeWhile (· != '.') = n.repr.toList.reverse := by
  obtain ⟨front, split⟩ := h.toList
  have digits : ∀ c ∈ n.repr.toList.reverse, (c != '.') = true := by
    intro c member
    rw [List.mem_reverse, Nat.repr, String.toList_ofList] at member
    have digit := Nat.isDigit_of_mem_toDigits (by decide) (by decide) member
    rw [bne_iff_ne]
    rintro rfl
    exact absurd digit (by decide)
  rw [split, List.reverse_append, List.reverse_cons, List.append_assoc,
    List.takeWhile_append_of_pos digits]
  simp

theorem unique (h : IsNumbered n name) (h' : IsNumbered m name) : n = m := by
  have same := h.behindDot.symm.trans h'.behindDot
  exact Nat.repr_inj.mp (String.toList_inj.mp (List.reverse_inj.mp same))

end IsNumbered

/-! ### Symbols -/

/-- What a symbol is defined as: a function or a variable. -/
def GlobalSymbol.definition (s : GlobalSymbol) : Option Bool :=
  if s.defined then some s.ty.isFunction else none

namespace SymbolTable

variable {t u v : SymbolTable} {name : String} {s : GlobalSymbol}

/-- What a name is defined as. -/
def definition? (t : SymbolTable) (name : String) : Option Bool :=
  (t.find? name).bind GlobalSymbol.definition

/-- The name is declared as that of a function, or as that of a variable. -/
def HasKind (t : SymbolTable) (name : String) (isFunction : Bool) : Prop :=
  ∃ s, t.find? name = some s ∧ s.ty.isFunction = isFunction

/-- The name is declared like this if it is an identifier. -/
def Declares (t : SymbolTable) (name : String) (isFunction : Bool) : Prop :=
  IsPlain name → t.HasKind name isFunction

theorem HasKind.unique {isFunction isFunction' : Bool} (h : t.HasKind name isFunction)
    (h' : t.HasKind name isFunction') : isFunction = isFunction' := by
  obtain ⟨s, found, rfl⟩ := h
  obtain ⟨s', found', rfl⟩ := h'
  rw [found] at found'
  cases found'
  rfl

theorem definition?_eq_none (h : (t.find? name).any (·.defined) = false) :
    t.definition? name = none := by
  unfold definition?
  cases found : t.find? name with
  | none => rfl
  | some s =>
      rw [found, Option.any_some] at h
      rw [Option.bind_some, GlobalSymbol.definition, h]
      rfl

theorem definition?_ne_function (h : (t.find? name).any (·.ty.isFunction) = false) :
    t.definition? name ≠ some true := by
  unfold definition?
  cases found : t.find? name with
  | none => nofun
  | some s =>
      rw [found, Option.any_some] at h
      rw [Option.bind_some, GlobalSymbol.definition, h]
      split <;> nofun

theorem not_isFunction (h : (t.find? name).any (·.ty.isFunction) = false) :
    ¬t.HasKind name true := by
  rintro ⟨s, found, isFunction⟩
  rw [found, Option.any_some, isFunction] at h
  cases h

theorem lookup_replaced (entries : List (String × GlobalSymbol)) (name other : String)
    (s : GlobalSymbol) :
    (entries.map fun e => if e.1 == name then (name, s) else e).lookup other =
      if other = name then (entries.lookup name).map fun _ => s else entries.lookup other := by
  induction entries with
  | nil => split <;> rfl
  | cons e entries ih =>
      obtain ⟨key, symbol⟩ := e
      rw [List.map_cons]
      by_cases same : key = name
      · subst same
        by_cases found : other = key
        · subst found
          simp
        · have differs : (other == key) = false := beq_false_of_ne found
          simp only [beq_self_eq_true, if_true, List.lookup_cons, differs, ih, if_neg found]
      · have kept : (key == name) = false := beq_false_of_ne same
        have kept' : (name == key) = false := beq_false_of_ne (Ne.symm same)
        simp only [kept, Bool.false_eq_true, if_false, List.lookup_cons, ih, kept']
        by_cases found : other = name
        · subst found
          simp [kept']
        · simp [if_neg found]

/-- Setting a symbol concerns no other name. -/
theorem find?_insert (t : SymbolTable) (name other : String) (s : GlobalSymbol) :
    (t.insert name s).find? other = if other = name then some s else t.find? other := by
  unfold insert
  split
  case isTrue contained =>
    obtain ⟨old, found⟩ := Option.isSome_iff_exists.mp contained
    refine (lookup_replaced t.entries name other s).trans ?_
    split
    · rw [show t.entries.lookup name = some old from found]
      rfl
    · rfl
  case isFalse missing =>
    have absent : t.entries.lookup name = none :=
      Option.not_isSome_iff_eq_none.mp missing
    refine (List.lookup_append).trans ?_
    by_cases same : other = name
    · subst same
      rw [absent, if_pos rfl, List.lookup_cons, beq_self_eq_true]
      rfl
    · rw [List.lookup_cons, beq_false_of_ne same, if_neg same]
      exact Option.or_none

theorem definition?_insert (t : SymbolTable) (name other : String) (s : GlobalSymbol) :
    (t.insert name s).definition? other =
      if other = name then s.definition else t.definition? other := by
  unfold definition?
  rw [find?_insert]
  split <;> rfl

/-- What may become of a table while a function is read: none of its plain names is defined,
and each stays a function or a variable. -/
structure Leads (t u : SymbolTable) : Prop where
  defined {name : String} : IsPlain name → u.definition? name = t.definition? name
  kind {name : String} {isFunction : Bool} :
    IsPlain name → t.HasKind name isFunction → u.HasKind name isFunction

namespace Leads

theorem declares {isFunction : Bool} (h : t.Leads u) (declared : t.Declares name isFunction) :
    u.Declares name isFunction :=
  fun plain => h.kind plain (declared plain)

theorem refl (t : SymbolTable) : t.Leads t := ⟨fun _ => rfl, fun _ => id⟩

theorem trans (h : t.Leads u) (k : u.Leads v) : t.Leads v :=
  ⟨fun plain => (k.defined plain).trans (h.defined plain),
    fun plain kind => k.kind plain (h.kind plain kind)⟩

theorem insert (defined : IsPlain name → s.definition = t.definition? name)
    (kind : ∀ {isFunction}, IsPlain name → t.HasKind name isFunction →
      s.ty.isFunction = isFunction) :
    t.Leads (t.insert name s) := by
  constructor
  · intro other plain
    rw [definition?_insert]
    split
    case isTrue same =>
      subst same
      exact defined plain
    case isFalse => rfl
  · rintro other isFunction plain ⟨old, found, kind'⟩
    by_cases same : other = name
    · subst same
      refine ⟨s, by rw [find?_insert, if_pos rfl], ?_⟩
      exact kind plain ⟨old, found, kind'⟩
    · exact ⟨old, by rw [find?_insert, if_neg same, found], kind'⟩

/-- A name that is declared for the first time, and not defined. -/
theorem insert_undeclared (undeclared : (t.find? name).isNone = true) {ty : CType} {isStatic : Bool} :
    t.Leads (t.insert name ⟨ty, false, isStatic⟩) := by
  have missing := Option.isNone_iff_eq_none.mp undeclared
  refine .insert (fun _ => ?_) ?_
  · rw [definition?, missing]
    rfl
  · rintro isFunction - ⟨old, found, -⟩
    rw [missing] at found
    cases found

end Leads
end SymbolTable

/-- What may become of a unit while a function is read: no functions are added, and what its
symbols are stays the same. -/
structure TranslationUnit.Leads (u v : TranslationUnit) : Prop
    extends u.symbols.Leads v.symbols where
  functions : v.functions = u.functions

namespace TranslationUnit.Leads

theorem refl (u : TranslationUnit) : u.Leads u := ⟨.refl _, rfl⟩

theorem trans {u v w : TranslationUnit} (h : u.Leads v) (k : v.Leads w) : u.Leads w :=
  ⟨h.toLeads.trans k.toLeads, k.functions.trans h.functions⟩

end TranslationUnit.Leads
end LiveC

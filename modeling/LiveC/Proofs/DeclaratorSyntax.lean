import LiveC.Proofs.ConfinedTokens
import LiveC.Parser.Statement

/-!
Declarators as they are written: a name inside of the constructors that are applied to it. The one
next to the name is the outermost one of the type, so what a declarator makes of a base type is
read from the inside out. Types that are built over a base have a declarator for every name.
-/

namespace LiveC

/-! ### Base types -/

/-- What declarators are applied to. -/
inductive BaseSpec where
  /-- Type words in any order. -/
  | words (ws : List TypeWord)
  /-- The name of a type. -/
  | named (name : String)

def TypeWord.keyword : TypeWord → Keyword
  | void => .voidKw
  | char => .charKw
  | short => .shortKw
  | int => .intKw
  | long => .longKw
  | signed => .signedKw
  | unsigned => .unsignedKw
  | double => .doubleKw
  | bool => .boolKw

namespace BaseSpec

def kinds : BaseSpec → List TokenKind
  | words ws => ws.map fun w => .keyword w.keyword
  | named name => [.ident name]

/-- The type that it names among the declarations in scope. -/
def ty (scopes : ScopeStack) : BaseSpec → CType
  | words ws => (TypeWord.combine? ws).getD .void
  | named name =>
    match scopes.find? name with
    | some (.typedef ty) => ty
    | _ => .void

/-- The words combine, or the name is that of a type. No complete type is empty. -/
def Allowed (scopes : ScopeStack) : BaseSpec → Prop
  | words ws => ws ≠ [] ∧ (TypeWord.combine? ws).isSome = true
  | named name => ∃ ty, scopes.find? name = some (.typedef ty) ∧ (ty.isComplete = true → 0 < ty.size)

end BaseSpec

/-! ### Declarators -/

mutual

/-- A declarator: a name, or none, and what stands around it. -/
inductive Written where
  | name (x : Option String)
  | pointer (d : Written)
  | array (d : Written) (length : Nat)
  | function (d : Written) (ps : WrittenParams)

/-- What stands between the parentheses of a function. -/
inductive WrittenParams where
  /-- Nothing, which leaves the parameters open. -/
  | unspecified
  | void
  | listed (row : WrittenRow)

/-- Parameters, with an ellipsis behind the last one if others may follow. -/
inductive WrittenRow where
  | last (spec : BaseSpec) (d : Written) (variadic : Bool)
  | more (spec : BaseSpec) (d : Written) (others : WrittenRow)

end

/-- An array or a function around a pointer has that in parentheses. -/
def Written.isPointer : Written → Bool
  | pointer _ => true
  | _ => false

def Written.name? : Written → Option String
  | name x => x
  | pointer d | array d _ | function d _ => d.name?

mutual

def Written.kinds : Written → List TokenKind
  | .name none => []
  | .name (some x) => [.ident x]
  | .pointer d => .punct .star :: d.kinds
  | .array d length =>
    (if d.isPointer then .punct .lparen :: (d.kinds ++ [.punct .rparen]) else d.kinds) ++
      [.punct .lbracket, .int length false false true, .punct .rbracket]
  | .function d ps =>
    (if d.isPointer then .punct .lparen :: (d.kinds ++ [.punct .rparen]) else d.kinds) ++
      .punct .lparen :: (ps.kinds ++ [.punct .rparen])

def WrittenParams.kinds : WrittenParams → List TokenKind
  | .unspecified => []
  | .void => [.keyword .voidKw]
  | .listed row => row.kinds

def WrittenRow.kinds : WrittenRow → List TokenKind
  | .last spec d variadic =>
    spec.kinds ++ d.kinds ++ if variadic then [.punct .comma, .punct .ellipsis] else []
  | .more spec d others => spec.kinds ++ d.kinds ++ .punct .comma :: others.kinds

end

/-- What stands in front of the suffixes behind a declarator. -/
def Written.grouped (d : Written) : List TokenKind :=
  if d.isPointer then .punct .lparen :: (d.kinds ++ [.punct .rparen]) else d.kinds

theorem Written.kinds_array (d : Written) (length : Nat) :
    (array d length).kinds =
      d.grouped ++ [.punct .lbracket, .int length false false true, .punct .rbracket] := rfl

theorem Written.kinds_function (d : Written) (ps : WrittenParams) :
    (function d ps).kinds = d.grouped ++ .punct .lparen :: (ps.kinds ++ [.punct .rparen]) := rfl

theorem Written.kinds_of_isPointer {d : Written} (h : d.isPointer = true) :
    ∃ ks, d.kinds = .punct .star :: ks := by
  cases d with
  | pointer d => exact ⟨d.kinds, by rw [Written.kinds]⟩
  | _ => cases h

/-- No keyword stands in front. -/
def NoKeyword (ks : List TokenKind) : Prop := ∀ kw, ks.head? ≠ some (.keyword kw)

theorem Written.noKeyword : (d : Written) → {ks : List TokenKind} → NoKeyword ks →
    NoKeyword (d.kinds ++ ks)
  | .name none, _, h => h
  | .name (some _), _, _ => nofun
  | .pointer _, _, _ => nofun
  | .array d _, ks, _ => by
    rw [kinds_array, grouped, List.append_assoc]
    split
    · exact nofun
    · exact d.noKeyword nofun
  | .function d ps, ks, _ => by
    rw [kinds_function, grouped, List.append_assoc]
    split
    · exact nofun
    · exact d.noKeyword nofun

/-- What a declarator that is written starts with. -/
theorem Written.head?_ne {p : Punct} (other : p ≠ .star ∧ p ≠ .lparen ∧ p ≠ .lbracket) :
    (d : Written) → {ks : List TokenKind} →
    (d = .name none → ks.head? ≠ some (.punct p)) →
    (d.kinds ++ ks).head? ≠ some (.punct p)
  | .name none, _, h => h rfl
  | .name (some _), _, _ => nofun
  | .pointer _, _, _ => fun same => other.1 (TokenKind.punct.inj (Option.some.inj same)).symm
  | .array d _, ks, _ => by
    rw [kinds_array, grouped, List.append_assoc]
    split
    · exact fun same => other.2.1 (TokenKind.punct.inj (Option.some.inj same)).symm
    · exact d.head?_ne other fun _ same =>
        other.2.2 (TokenKind.punct.inj (Option.some.inj same)).symm
  | .function d ps, ks, _ => by
    rw [kinds_function, grouped, List.append_assoc]
    split
    · exact fun same => other.2.1 (TokenKind.punct.inj (Option.some.inj same)).symm
    · exact d.head?_ne other fun _ same =>
        other.2.1 (TokenKind.punct.inj (Option.some.inj same)).symm

def WrittenRow.variadic : WrittenRow → Bool
  | .last _ _ variadic => variadic
  | .more _ _ others => others.variadic

mutual

/-- What a declarator makes of a base type: first what stands at its outside. -/
def Written.apply (scopes : ScopeStack) : Written → CType → CType
  | .name _, base => base
  | .pointer d, base => d.apply scopes (.pointer base)
  | .array d length, base => d.apply scopes (.array base (some length))
  | .function d ps, base => d.apply scopes (ps.apply scopes base)

/-- The type of functions that return a type. -/
def WrittenParams.apply (scopes : ScopeStack) : WrittenParams → CType → CType
  | .unspecified, ret => .function ret [] false true
  | .void, ret => .function ret [] false false
  | .listed row, ret => .function ret (row.types scopes) row.variadic false

def WrittenRow.types (scopes : ScopeStack) : WrittenRow → List CType
  | .last spec d _ => [d.apply scopes (spec.ty scopes)]
  | .more spec d others => d.apply scopes (spec.ty scopes) :: others.types scopes

end

/-- Arrays that C allows: the elements are complete, and the whole is not too large. -/
structure CType.AllowsArray (element : CType) (length : Nat) : Prop where
  positive : 0 < length
  complete : element.isComplete = true
  fits : ∃ size, (CType.array element (some length)).checkedSize = some size ∧
    size ≤ CType.maxObjectSize

/-- A type that a function may return. -/
def CType.IsReturned (ty : CType) : Prop := ty.isArray = false ∧ ty.isFunction = false

/-- A type that parameters have: arrays and functions are passed as pointers. -/
def CType.IsPassed (ty : CType) : Prop :=
  ty.isArray = false ∧ ty.isFunction = false ∧ ty.isVoid = false

mutual

/-- What a declarator makes of a base type is built as C allows. -/
def Written.Allowed (scopes : ScopeStack) : Written → CType → Prop
  | .name _, _ => True
  | .pointer d, base => d.Allowed scopes (.pointer base)
  | .array d length, base =>
    base.AllowsArray length ∧ d.Allowed scopes (.array base (some length))
  | .function d ps, base =>
    base.IsReturned ∧ ps.Allowed scopes ∧ d.Allowed scopes (ps.apply scopes base)

def WrittenParams.Allowed (scopes : ScopeStack) : WrittenParams → Prop
  | .unspecified | .void => True
  | .listed row => row.Allowed scopes

def WrittenRow.Allowed (scopes : ScopeStack) : WrittenRow → Prop
  | .last spec d _ =>
    spec.Allowed scopes ∧ d.Allowed scopes (spec.ty scopes) ∧
      (d.apply scopes (spec.ty scopes)).IsPassed
  | .more spec d others =>
    (spec.Allowed scopes ∧ d.Allowed scopes (spec.ty scopes) ∧
      (d.apply scopes (spec.ty scopes)).IsPassed) ∧ others.Allowed scopes

end

mutual

/-- How deep a declarator nests, in front of suffixes that do so to a depth of `behind`. Each suffix
nests in the one in front of it, and a declarator in parentheses in the one around it. -/
def Written.levels : Written → Nat → Nat
  | .name _, behind => behind + 1
  | .pointer d, _ => d.levels 1
  | .array d _, behind =>
    if d.isPointer then max (behind + 1) (d.levels 1) + 1 else d.levels (behind + 1)
  | .function d ps, behind =>
    if d.isPointer then max (max behind ps.levels + 1) (d.levels 1) + 1
    else d.levels (max behind ps.levels + 1)

def WrittenParams.levels : WrittenParams → Nat
  | .unspecified | .void => 0
  | .listed row => row.levels

def WrittenRow.levels : WrittenRow → Nat
  | .last _ d _ => d.levels 1
  | .more _ d others => max (d.levels 1) others.levels

end

/-! ### Types -/

/-- A type as it is built over a base type, the outermost constructor first. -/
inductive BuiltType where
  | base (spec : BaseSpec)
  | pointer (t : BuiltType)
  | array (t : BuiltType) (length : Nat)
  | function (ret : BuiltType) (ps : WrittenParams)

namespace BuiltType

def spec : BuiltType → BaseSpec
  | base spec => spec
  | pointer t | array t _ | function t _ => t.spec

variable (scopes : ScopeStack)

def ty : BuiltType → CType
  | base spec => spec.ty scopes
  | pointer t => .pointer t.ty
  | array t length => .array t.ty (some length)
  | function ret ps => ps.apply scopes ret.ty

/-- The type is built as C allows. -/
def Allowed : BuiltType → Prop
  | base spec => spec.Allowed scopes
  | pointer t => t.Allowed
  | array t length => t.Allowed ∧ (t.ty scopes).AllowsArray length
  | function ret ps => ret.Allowed ∧ (ret.ty scopes).IsReturned ∧ ps.Allowed scopes

/-- The declarator of the type around another one. -/
def declarator : BuiltType → Written → Written
  | base _, d => d
  | pointer t, d => t.declarator (.pointer d)
  | array t length, d => t.declarator (.array d length)
  | function ret ps, d => ret.declarator (.function d ps)

variable {scopes}

theorem apply_declarator (t : BuiltType) (d : Written) :
    (t.declarator d).apply scopes (t.spec.ty scopes) = d.apply scopes (t.ty scopes) := by
  induction t generalizing d with
  | base => rfl
  | pointer t ih | array t _ ih | function t _ ih => exact ih _

theorem name?_declarator (t : BuiltType) (d : Written) : (t.declarator d).name? = d.name? := by
  induction t generalizing d with
  | base => rfl
  | pointer t ih | array t _ ih | function t _ ih => exact ih _

theorem Allowed.declarator {t : BuiltType} (h : t.Allowed scopes) {d : Written}
    (inner : d.Allowed scopes (t.ty scopes)) :
    t.spec.Allowed scopes ∧ (t.declarator d).Allowed scopes (t.spec.ty scopes) := by
  induction t generalizing d with
  | base => exact ⟨h, inner⟩
  | pointer t ih => exact ih h inner
  | array t length ih => exact ih h.1 ⟨h.2, inner⟩
  | function ret ps ih => exact ih h.1 ⟨h.2.1, h.2.2, inner⟩

end BuiltType

/-! ### Parentheses -/

/-- All parentheses among tokens of these kinds are closed by others of them. -/
def BalancedKinds (ks : List TokenKind) : Prop :=
  ∀ (depth : Nat) (ts more : List Token), ts.map Token.kind = ks →
    Parser.behindClose? (depth + 1) (ts ++ more) = Parser.behindClose? (depth + 1) more

namespace BalancedKinds

variable {ks ks' : List TokenKind} {k : TokenKind}

theorem nil : BalancedKinds [] := by
  rintro depth ts more none
  rw [List.map_eq_nil_iff.mp none, List.nil_append]

theorem append (h : BalancedKinds ks) (h' : BalancedKinds ks') : BalancedKinds (ks ++ ks') := by
  rintro depth ts more kinds
  obtain ⟨front, back, rfl, kinds, kinds'⟩ := List.map_eq_append_iff.mp kinds
  rw [List.append_assoc, h depth front _ kinds, h' depth back more kinds']

theorem cons (opens : k ≠ .punct .lparen) (closes : k ≠ .punct .rparen) (h : BalancedKinds ks) :
    BalancedKinds (k :: ks) := by
  rintro depth ts more all
  obtain ⟨t, ts, rfl, rfl, kinds⟩ := List.map_eq_cons_iff.mp all
  rw [List.cons_append, Parser.behindClose?_other opens closes, h depth ts more kinds]

theorem parens (h : BalancedKinds ks) :
    BalancedKinds (.punct .lparen :: (ks ++ [.punct .rparen])) := by
  rintro depth ts more all
  obtain ⟨t, inner, rfl, opens, behind⟩ := List.map_eq_cons_iff.mp all
  obtain ⟨front, back, rfl, kinds, last⟩ := List.map_eq_append_iff.mp behind
  obtain ⟨u, others, rfl, closes, empty⟩ := List.map_eq_cons_iff.mp last
  obtain rfl := List.map_eq_nil_iff.mp empty
  rw [List.cons_append, Parser.behindClose?_lparen opens, List.append_assoc,
    h (depth + 1) front _ kinds, List.cons_append, Parser.behindClose?_rparen closes,
    List.nil_append]

/-- The parenthesis behind them closes one in front of them. -/
theorem behindClose? (h : BalancedKinds ks) {ts more : List Token} {t : Token}
    (kinds : ts.map Token.kind = ks) (closes : t.kind = .punct .rparen) :
    Parser.behindClose? 1 (ts ++ t :: more) = some more := by
  rw [h 0 ts _ kinds, Parser.behindClose?_last closes]

end BalancedKinds

theorem BaseSpec.balanced (spec : BaseSpec) : BalancedKinds spec.kinds := by
  cases spec with
  | words ws =>
      induction ws with
      | nil => exact .nil
      | cons w ws ih => exact .cons nofun nofun ih
  | named name => exact .cons nofun nofun .nil

mutual

theorem Written.balanced : (d : Written) → BalancedKinds d.kinds
  | .name none => .nil
  | .name (some _) => .cons nofun nofun .nil
  | .pointer d => .cons nofun nofun d.balanced
  | .array d _ =>
    have grouped : BalancedKinds d.grouped := by
      unfold Written.grouped
      split
      · exact d.balanced.parens
      · exact d.balanced
    grouped.append (.cons nofun nofun (.cons nofun nofun (.cons nofun nofun .nil)))
  | .function d ps =>
    have grouped : BalancedKinds d.grouped := by
      unfold Written.grouped
      split
      · exact d.balanced.parens
      · exact d.balanced
    grouped.append ps.balanced.parens

theorem WrittenParams.balanced : (ps : WrittenParams) → BalancedKinds ps.kinds
  | .unspecified => .nil
  | .void => .cons nofun nofun .nil
  | .listed row => row.balanced

theorem WrittenRow.balanced : (row : WrittenRow) → BalancedKinds row.kinds
  | .last spec d variadic => by
    refine (spec.balanced.append d.balanced).append ?_
    cases variadic
    · exact .nil
    · exact .cons nofun nofun (.cons nofun nofun .nil)
  | .more spec d others =>
    (spec.balanced.append d.balanced).append (.cons nofun nofun others.balanced)

end

end LiveC

import LiveC.Proofs.DefinitionChanges

/-!
The declarations of a file, one after the other, as the parser reads them: what each of them
declares its name as, and whether the name was known in front of it. A list of them accounts for
the definitions of a unit.
-/

namespace LiveC

/-- What a declarator at file scope declares its name as. -/
inductive FileDeclaration.Form where
  | typedef
  /-- A function without its body. -/
  | prototype
  | function
  /-- A variable, with what its initialiser stores if it has one. -/
  | object (init : Option (List InitItem))
  deriving DecidableEq, Repr

/-- A name that is declared at file scope. -/
structure FileDeclaration where
  name : String
  storage : Option Storage
  form : FileDeclaration.Form
  /-- Whether nothing in front of it has made the name known: no declaration of the file or in a
  block, and no call. -/
  first : Bool
  deriving DecidableEq, Repr

namespace FileDeclaration

def isFunction (d : FileDeclaration) : Bool := d.form == .function

/-- What the initialiser of a variable stores. -/
def init (d : FileDeclaration) : Option (List InitItem) :=
  match d.form with
  | .object init => init
  | _ => none

/-- A declaration that defines a variable is not `extern`, or it has an initialiser. -/
def definesVariable (d : FileDeclaration) : Bool :=
  match d.form with
  | .object init => d.storage != some .external || init.isSome
  | _ => false

theorem definesVariable_of_init {d : FileDeclaration} (h : d.init.isSome = true) :
    d.definesVariable = true := by
  unfold init at h
  unfold definesVariable
  cases form : d.form with
  | object init =>
      rw [form] at h
      simp [h]
  | typedef | prototype | function => simp [form] at h

end FileDeclaration

/-- The initialisers that declarations give a name, in order. -/
def initialisersOf (name : String) (ds : List FileDeclaration) : List (List InitItem) :=
  ds.filterMap fun d => if d.name = name then d.init else none

section

variable {name : String} {ds : List FileDeclaration} {d : FileDeclaration}

theorem initialisersOf_concat : initialisersOf name (ds ++ [d]) =
    initialisersOf name ds ++ (if d.name = name then d.init else none).toList := by
  unfold initialisersOf
  rw [List.filterMap_append]
  rfl

/-- A name without a declaration that defines it has no initialiser. -/
theorem initialisersOf_eq_nil (h : ¬∃ d ∈ ds, d.name = name ∧ d.definesVariable = true) :
    initialisersOf name ds = [] := by
  refine List.filterMap_eq_nil_iff.mpr fun d member => ?_
  split
  case isTrue named =>
    refine Option.not_isSome_iff_eq_none.mp fun found => h ⟨d, member, named, ?_⟩
    exact FileDeclaration.definesVariable_of_init found
  case isFalse => rfl

end

namespace TranslationUnit

/-- The symbol of a name and what is defined as it are static. -/
structure IsStatic (u : TranslationUnit) (name : String) : Prop where
  symbol : ∃ symbol, u.symbols.find? name = some symbol ∧ symbol.isStatic = true
  functions : ∀ f ∈ u.functions, f.name = name → f.isStatic = true
  globals : ∀ g ∈ u.globals, g.name = name → g.isStatic = true

/-- The definitions of a unit are those that declarations of the file make, and static local
variables. -/
structure Accounts (u : TranslationUnit) (ds : List FileDeclaration) : Prop where
  functions : u.functions.map (·.name) = (ds.filter (·.isFunction)).map (·.name)
  defined (name : String) : u.symbols.Defines name ↔
    name ∈ u.functions.map (·.name) ∨ name ∈ u.globals.map (·.name)
  kinds : ∀ f ∈ u.functions, IsPlain f.name → u.symbols.HasKind f.name true
  objects {name : String} : IsPlain name → (name ∈ u.globals.map (·.name) ↔
    ∃ d ∈ ds, d.name = name ∧ d.definesVariable = true)
  initialised : ∀ g ∈ u.globals, IsPlain g.name → initialisersOf g.name ds = g.init.toList
  static : ∀ d ∈ ds, d.first = true → d.storage = some .static → u.IsStatic d.name
  known : ∀ d ∈ ds, d.form ≠ .typedef → (u.symbols.find? d.name).isSome = true
  firsts : ds.Pairwise fun a b => a.form ≠ .typedef → a.name = b.name → b.first = false

variable {u v : TranslationUnit} {ds : List FileDeclaration} {d : FileDeclaration} {name : String}

theorem IsStatic.grows (h : u.IsStatic name) (grown : u.Grows v) : v.IsStatic name := by
  obtain ⟨added, globals, static, -⟩ := grown.globals
  refine ⟨?_, fun f member => h.functions f (grown.functions ▸ member), ?_⟩
  · obtain ⟨old, found, isStatic⟩ := h.symbol
    obtain ⟨new, found', stays⟩ := grown.symbols found
    exact ⟨new, found', stays.static isStatic⟩
  · rw [globals]
    exact List.forall_mem_append.mpr ⟨h.globals, fun g member _ => (static g member).2⟩

namespace Accounts

theorem empty : Accounts {} [] := by
  refine ⟨rfl, fun name => ?_, nofun, fun _ => ?_, nofun, nofun, nofun, .nil⟩
  · simp [SymbolTable.defines_iff_any, SymbolTable.find?]
  · simp

/-- Static local variables are defined, and no name of the file. -/
theorem grows (h : u.Accounts ds) (grown : u.Grows v) : v.Accounts ds := by
  have kept {name : String} (found : (u.symbols.find? name).isSome = true) :
      (v.symbols.find? name).isSome = true := by
    obtain ⟨old, found⟩ := Option.isSome_iff_exists.mp found
    obtain ⟨new, found', -⟩ := grown.symbols found
    simp [found']
  obtain ⟨added, globals, static, defined⟩ := grown.globals
  refine ⟨grown.functions ▸ h.functions, fun name => ?_, ?_, fun {name} plain => ?_, ?_,
    fun d member first isStatic => (h.static d member first isStatic).grows grown,
    fun d member form => kept (h.known d member form), h.firsts⟩
  · rw [defined, h.defined, grown.functions, globals, List.map_append, List.mem_append, or_assoc]
  · rw [grown.functions]
    intro f member plain
    obtain ⟨old, found, isFunction⟩ := h.kinds f member plain
    obtain ⟨new, found', stays⟩ := grown.symbols found
    exact ⟨new, found', (stays.kind plain).trans isFunction⟩
  · rw [globals, List.map_append, List.mem_append, ← h.objects plain, or_iff_left]
    intro named
    obtain ⟨g, member, rfl⟩ := List.mem_map.mp named
    exact (static g member).1 plain
  · rw [globals]
    exact List.forall_mem_append.mpr ⟨h.initialised,
      fun g member plain => absurd plain (static g member).1⟩

/-- What is unknown is not defined. -/
theorem not_defined (h : u.Accounts ds) (unknown : u.symbols.find? name = none) :
    name ∉ u.functions.map (·.name) ∧ name ∉ u.globals.map (·.name) := by
  have undefined : ¬u.symbols.Defines name := by
    simp [SymbolTable.defines_iff_any, unknown]
  rw [h.defined] at undefined
  exact not_or.mp undefined

theorem not_function (h : u.Accounts ds)
    (isVariable : (u.symbols.find? name).any (·.ty.isFunction) = false) (plain : IsPlain name) :
    name ∉ u.functions.map (·.name) := by
  intro named
  obtain ⟨f, member, rfl⟩ := List.mem_map.mp named
  exact SymbolTable.not_isFunction isVariable (h.kinds f member plain)

/-- Whatever a unit that grows defines as a name that was unknown is a static local variable. -/
theorem static_of_unknown (h : u.Accounts ds) (grown : u.Grows v)
    (unknown : u.symbols.find? name = none) :
    (∀ f ∈ v.functions, f.name = name → f.isStatic = true) ∧
      ∀ g ∈ v.globals, g.name = name → g.isStatic = true := by
  obtain ⟨noFunction, noGlobal⟩ := h.not_defined unknown
  obtain ⟨added, globals, static, -⟩ := grown.globals
  constructor
  · rw [grown.functions]
    rintro f member rfl
    exact absurd (List.mem_map_of_mem member) noFunction
  · rw [globals]
    refine List.forall_mem_append.mpr ⟨?_, fun g member _ => (static g member).2⟩
    rintro g member rfl
    exact absurd (List.mem_map_of_mem member) noGlobal

/-- A declaration is listed that is first only if its name was unknown. -/
theorem firsts_concat (h : u.Accounts ds) (first : d.first = (u.symbols.find? d.name).isNone) :
    (ds ++ [d]).Pairwise fun a b => a.form ≠ .typedef → a.name = b.name → b.first = false := by
  refine List.pairwise_append.mpr ⟨h.firsts, List.pairwise_singleton _ _, fun a member b same => ?_⟩
  rw [List.mem_singleton.mp same]
  intro form named
  have known := h.known a member form
  rw [first, ← named]
  simpa using known

/-- A declaration that defines nothing new. -/
theorem declare (h : u.Accounts ds) (first : d.first = (u.symbols.find? d.name).isNone)
    (grown : u.Grows v) (isFunction : d.isFunction = false) (init : d.init = none)
    (present : IsPlain d.name → d.definesVariable = true → d.name ∈ u.globals.map (·.name))
    (known : d.form ≠ .typedef → (v.symbols.find? d.name).isSome = true)
    (static : u.symbols.find? d.name = none → d.storage = some .static →
      ∃ symbol, v.symbols.find? d.name = some symbol ∧ symbol.isStatic = true) :
    v.Accounts (ds ++ [d]) := by
  have after := h.grows grown
  refine ⟨?_, after.defined, after.kinds, fun {name} plain => ?_, fun g member plain => ?_,
    List.forall_mem_append.mpr ⟨after.static, List.forall_mem_singleton.mpr ?_⟩,
    List.forall_mem_append.mpr ⟨after.known, List.forall_mem_singleton.mpr known⟩,
    h.firsts_concat first⟩
  · simpa [isFunction] using after.functions
  · rw [after.objects plain]
    simp only [List.mem_append, List.mem_singleton, or_and_right, exists_or, exists_eq_left,
      iff_self_or]
    rintro ⟨rfl, defines⟩
    exact (h.objects plain).mp (present plain defines)
  · rw [initialisersOf_concat, after.initialised g member plain]
    simp [init]
  · intro isFirst isStatic
    have unknown : u.symbols.find? d.name = none := by simpa [first] using isFirst
    obtain ⟨functions, globals⟩ := h.static_of_unknown grown unknown
    exact ⟨static unknown isStatic, functions, globals⟩

end Accounts

/-! ### Definitions of variables -/

/-- The variables that stay beside one that is defined. It takes the place of an earlier definition
of its name. -/
def beside (defined : Bool) (name : String) (globals : List GlobalVar) : List GlobalVar :=
  if defined then globals.filter (·.name != name) else globals

theorem mem_beside {defined : Bool} {globals : List GlobalVar} {g : GlobalVar} :
    g ∈ beside defined name globals ↔ g ∈ globals ∧ (defined = true → g.name ≠ name) := by
  cases defined <;> simp [beside]

theorem names_beside {defined : Bool} {globals : List GlobalVar} {g : GlobalVar} {other : String} :
    other ∈ (beside defined g.name globals ++ [g]).map (·.name) ↔
      other = g.name ∨ other ∈ globals.map (·.name) := by
  rw [List.map_append, List.map_singleton, List.mem_append, List.mem_singleton, or_comm]
  constructor
  · refine Or.imp_right fun named => ?_
    obtain ⟨x, member, rfl⟩ := List.mem_map.mp named
    exact List.mem_map_of_mem (mem_beside.mp member).1
  · rintro (rfl | named)
    · exact .inl rfl
    · obtain ⟨x, member, rfl⟩ := List.mem_map.mp named
      by_cases same : x.name = g.name
      · exact .inl same
      · exact .inr (List.mem_map_of_mem (mem_beside.mpr ⟨member, fun _ => same⟩))

/-- A declaration of the file may define a variable: in front of it the unit is `u`, and behind its
initialiser it is `v`. -/
structure MayDefine (u v : TranslationUnit) (d : FileDeclaration) (g : GlobalVar) (defined : Bool) :
    Prop where
  first : d.first = (u.symbols.find? d.name).isNone
  named : d.name = g.name
  form : d.form = .object g.init
  isVariable : (u.symbols.find? d.name).any (·.ty.isFunction) = false
  isStatic : g.isStatic =
    (d.storage == some .static || (u.symbols.find? d.name).any (·.isStatic))
  isDefined : defined = (u.symbols.find? d.name).any (·.defined)
  /-- Nothing is initialised twice, -/
  once : ¬(defined && g.init.isSome &&
    v.globals.any fun x => x.name == d.name && x.init.isSome) = true
  /-- or defined once more without an initialiser. -/
  needed : (!(defined && g.init.isNone)) = true
  defines : d.definesVariable = true

namespace MayDefine

variable {g : GlobalVar} {defined : Bool}

theorem init (may : MayDefine u v d g defined) : d.init = g.init := by
  simp [FileDeclaration.init, may.form]

/-- The name is in the unit behind the initialiser if it was marked in front of it. -/
theorem defined_iff (may : MayDefine u v d g defined) (h : u.Accounts ds) (grown : u.Grows v)
    (plain : IsPlain d.name) : defined = true ↔ d.name ∈ v.globals.map (·.name) := by
  rw [may.isDefined, ← SymbolTable.defines_iff_any, h.defined,
    or_iff_right (h.not_function may.isVariable plain), h.objects plain, (h.grows grown).objects plain]

/-- No declaration in front of one that defines a variable gives it an initialiser. -/
theorem initialisersOf_eq_nil (may : MayDefine u v d g defined) (h : u.Accounts ds)
    (grown : u.Grows v) (plain : IsPlain d.name) : initialisersOf d.name ds = [] := by
  have after := h.grows grown
  have present := may.defined_iff h grown plain
  cases defined with
  | false =>
      refine LiveC.initialisersOf_eq_nil fun found => ?_
      have marked := present.mpr ((after.objects plain).mpr found)
      cases marked
  | true =>
      obtain ⟨x, member, same⟩ := List.mem_map.mp (present.mp rfl)
      rw [← same, after.initialised x member (same ▸ plain)]
      have initialised : g.init.isSome = true := by simpa using may.needed
      have once := may.once
      cases init : x.init with
      | none => rfl
      | some items =>
          refine absurd ?_ once
          simp only [initialised, Bool.and_self, Bool.true_and, List.any_eq_true]
          exact ⟨x, member, by simp [same, init]⟩

/-- What was static still is. -/
theorem static (may : MayDefine u v d g defined) (h : u.IsStatic d.name) : g.isStatic = true := by
  obtain ⟨symbol, found, isStatic⟩ := h.symbol
  simp [may.isStatic, found, isStatic]

theorem isStatic_insert (may : MayDefine u v d g defined) (h : v.IsStatic name)
    (static : d.name = name → g.isStatic = true) :
    IsStatic { v with
      symbols := v.symbols.insert d.name ⟨g.ty, true, g.isStatic⟩
      globals := beside defined d.name v.globals ++ [g] } name := by
  refine ⟨?_, h.functions, List.forall_mem_append.mpr ⟨fun x member => h.globals x
    (mem_beside.mp member).1, List.forall_mem_singleton.mpr fun same => static ?_⟩⟩
  · rw [SymbolTable.find?_insert]
    split
    case isTrue same => exact ⟨_, rfl, static same.symm⟩
    case isFalse => exact h.symbol
  · exact may.named.trans same

/-- The declarations account for the variable that the last one defines. -/
theorem accounts (may : MayDefine u v d g defined) (h : u.Accounts ds) (grown : u.Grows v) :
    Accounts { v with
      symbols := v.symbols.insert d.name ⟨g.ty, true, g.isStatic⟩
      globals := beside defined d.name v.globals ++ [g] } (ds ++ [d]) := by
  have after := h.grows grown
  have notBody : d.isFunction = false := by simp [FileDeclaration.isFunction, may.form]
  have names {name : String} :
      name ∈ (beside defined d.name v.globals ++ [g]).map (·.name) ↔
        name = d.name ∨ name ∈ v.globals.map (·.name) := may.named ▸ names_beside
  refine ⟨by simpa [notBody] using after.functions, fun name => ?_, fun f member plain => ?_,
    fun {name} plain => ?_, fun x member plain => ?_, ?_, ?_, h.firsts_concat may.first⟩
  · rw [SymbolTable.defines_insert, names, after.defined]
    split
    case isTrue same => simp [same]
    case isFalse other => simp [other]
  · have noFunction := h.not_function may.isVariable
    rw [← grown.functions] at noFunction
    have other : f.name ≠ d.name := fun same =>
      noFunction (same ▸ plain) (same ▸ List.mem_map_of_mem member)
    obtain ⟨symbol, found, isFunction⟩ := after.kinds f member plain
    exact ⟨symbol, by rw [SymbolTable.find?_insert, if_neg other, found], isFunction⟩
  · rw [names, after.objects plain, or_comm, eq_comm (a := name)]
    simp only [List.mem_append, List.mem_singleton, or_and_right, exists_or, exists_eq_left,
      may.defines, and_true]
  · rw [initialisersOf_concat, may.init]
    obtain member | new := List.mem_append.mp member
    · obtain ⟨member, other⟩ := mem_beside.mp member
      have other : d.name ≠ x.name := by
        intro same
        have marked := (may.defined_iff h grown (same ▸ plain)).mpr (same ▸ List.mem_map_of_mem member)
        exact other marked same.symm
      rw [after.initialised x member plain, if_neg other]
      exact List.append_nil _
    · obtain rfl := List.mem_singleton.mp new
      rw [← may.named, may.initialisersOf_eq_nil h grown (may.named ▸ plain), if_pos rfl]
      rfl
  · refine List.forall_mem_append.mpr ⟨fun e member first isStatic => ?_,
      List.forall_mem_singleton.mpr fun first isStatic => ?_⟩
    · refine may.isStatic_insert (after.static e member first isStatic) fun same => ?_
      exact may.static (same ▸ h.static e member first isStatic)
    · have unknown : u.symbols.find? d.name = none := by simpa [may.first] using first
      have static : g.isStatic = true := by simp [may.isStatic, isStatic]
      obtain ⟨functions, globals⟩ := h.static_of_unknown grown unknown
      refine ⟨⟨_, (SymbolTable.find?_insert ..).trans (if_pos rfl), static⟩, functions, ?_⟩
      exact List.forall_mem_append.mpr ⟨fun x member => globals x (mem_beside.mp member).1,
        List.forall_mem_singleton.mpr fun _ => static⟩
  · have kept {name : String} (known : (v.symbols.find? name).isSome = true ∨ name = d.name) :
        ((v.symbols.insert d.name ⟨g.ty, true, g.isStatic⟩).find? name).isSome = true := by
      rw [SymbolTable.find?_insert]
      split
      · rfl
      case isFalse other => exact known.resolve_right other
    exact List.forall_mem_append.mpr ⟨fun e member form => kept (.inl (after.known e member form)),
      List.forall_mem_singleton.mpr fun _ => kept (.inr rfl)⟩

end MayDefine

/-! ### Definitions of functions -/

/-- What a body adds to a unit it adds beside its function, too. -/
theorem Grows.beside_function (grown : u.Grows v) (f : Function) :
    Grows { u with functions := u.functions ++ [f] } { v with functions := v.functions ++ [f] } :=
  ⟨by rw [grown.functions], grown.symbols, grown.globals⟩

/-- The declarations account for a function that the last one defines: in front of it the unit is
`u`, and behind its declarator it is `v`. -/
theorem Accounts.addFunction (h : u.Accounts ds)
    (first : d.first = (u.symbols.find? d.name).isNone) (declared : u.Grows v) {f : Function}
    {ty : CType} (named : d.name = f.name) (form : d.form = .function)
    (isFunction : ty.isFunction = true) (isStatic : f.isStatic =
      (d.storage == some .static || (v.symbols.find? d.name).any (·.isStatic))) :
    Accounts { v with
      symbols := v.symbols.insert d.name ⟨ty, true, f.isStatic⟩
      functions := v.functions ++ [f] } (ds ++ [d]) := by
  have before := h.grows declared
  have body : d.isFunction = true := by simp [FileDeclaration.isFunction, form]
  have noVariable : d.definesVariable = false := by simp [FileDeclaration.definesVariable, form]
  have init : d.init = none := by simp [FileDeclaration.init, form]
  refine ⟨by simp [before.functions, body, named], fun name => ?_, ?_, fun {name} plain => ?_,
    fun x member plain => ?_, ?_, ?_, h.firsts_concat first⟩
  · rw [SymbolTable.defines_insert, List.map_append, List.mem_append, List.map_singleton,
      List.mem_singleton, ← named, before.defined]
    split
    case isTrue same => simp [same]
    case isFalse other => simp [other]
  · refine List.forall_mem_append.mpr ⟨fun x member plain => ?_,
      List.forall_mem_singleton.mpr fun _ => ⟨⟨ty, true, f.isStatic⟩, ?_, isFunction⟩⟩
    · obtain ⟨symbol, found, kind⟩ := before.kinds x member plain
      unfold SymbolTable.HasKind
      rw [SymbolTable.find?_insert]
      split
      case isTrue => exact ⟨_, rfl, isFunction⟩
      case isFalse => exact ⟨symbol, found, kind⟩
    · exact (SymbolTable.find?_insert ..).trans (if_pos named.symm)
  · rw [before.objects plain]
    simp [or_and_right, exists_or, noVariable]
  · rw [initialisersOf_concat, init, ite_self, before.initialised x member plain]
    exact List.append_nil _
  · refine List.forall_mem_append.mpr ⟨fun e member first' isStatic' => ?_,
      List.forall_mem_singleton.mpr fun first' isStatic' => ?_⟩
    · obtain ⟨⟨symbol, found, known⟩, functions, globals⟩ := before.static e member first' isStatic'
      have static (same : e.name = d.name) : f.isStatic = true := by
        rw [isStatic, ← same, found]
        simp [known]
      refine ⟨?_, List.forall_mem_append.mpr ⟨functions, List.forall_mem_singleton.mpr fun same =>
        static (same.symm.trans named.symm)⟩, globals⟩
      rw [SymbolTable.find?_insert]
      split
      case isTrue same => exact ⟨_, rfl, static same⟩
      case isFalse => exact ⟨symbol, found, known⟩
    · have unknown : u.symbols.find? d.name = none := by simpa [first] using first'
      have static : f.isStatic = true := by simp [isStatic, isStatic']
      obtain ⟨functions, globals⟩ := h.static_of_unknown declared unknown
      exact ⟨⟨_, (SymbolTable.find?_insert ..).trans (if_pos rfl), static⟩,
        List.forall_mem_append.mpr ⟨functions, List.forall_mem_singleton.mpr fun _ => static⟩, globals⟩
  · refine List.forall_mem_append.mpr ⟨fun e member form => ?_, List.forall_mem_singleton.mpr ?_⟩
    · rw [SymbolTable.find?_insert]
      split
      · rfl
      · exact before.known e member form
    · intro _
      rw [SymbolTable.find?_insert, if_pos rfl]
      rfl

end TranslationUnit
end LiveC

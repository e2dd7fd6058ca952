import LiveC.Object.Basic
import LiveC.Text.Quoted

/-!
The registry of symbols that the host provides: a map from names, which are C identifiers,
to addresses. Whether a name can be bound again is fixed when the registry is made.
-/

namespace LiveC

/-- What a name is bound to. -/
structure HostSymbol where
  kind : SymbolKind
  address : Word
  size : Option Nat := none
  deriving DecidableEq, Repr

inductive RegistryError where
  | duplicate (name : String)
  | notFound (name : String)
  | invalidName (name : String)
  deriving DecidableEq, Repr

def RegistryError.message : RegistryError → String
  | duplicate name => s!"duplicate symbol: {name}"
  | notFound name => s!"symbol not found: {name}"
  | invalidName name => s!"invalid symbol name: {Text.quoted name}"

structure Registry where
  allowOverwrite : Bool := false
  /-- The bindings, each name once. -/
  bindings : List (String × HostSymbol) := []
  deriving Repr

namespace Registry

/-- Whether a name is an identifier of C. -/
def isValidName (name : String) : Bool :=
  match name.toList with
  | [] => false
  | c :: cs => Text.isWordStart c && cs.all Text.isWordChar

def find? (r : Registry) (name : String) : Option HostSymbol := r.bindings.lookup name

def contains (r : Registry) (name : String) : Bool := (r.find? name).isSome

def size (r : Registry) : Nat := r.bindings.length

def isEmpty (r : Registry) : Bool := r.bindings.isEmpty

/-- The bindings of all other names. -/
def erase (r : Registry) (name : String) : Registry :=
  { r with bindings := r.bindings.filter (·.1 != name) }

/-- Binds a name. -/
def register (r : Registry) (name : String) (s : HostSymbol) : Except RegistryError Registry :=
  if !isValidName name then .error (.invalidName name)
  else if !r.allowOverwrite && r.contains name then .error (.duplicate name)
  else
    let others := r.erase name
    .ok { others with bindings := (name, s) :: others.bindings }

/-- Binds a name to a function of the host. -/
def registerFunction (r : Registry) (name : String) (address : Word) :
    Except RegistryError Registry :=
  r.register name { kind := .function, address }

/-- Binds names one after the other, up to the first that is refused. -/
def registerAll (r : Registry) : List (String × HostSymbol) → Registry × Option RegistryError
  | [] => (r, none)
  | (name, s) :: rest =>
    match r.register name s with
    | .ok r => r.registerAll rest
    | .error e => (r, some e)

def lookup (r : Registry) (name : String) : Except RegistryError HostSymbol :=
  match r.find? name with
  | some s => .ok s
  | none => .error (.notFound name)

def unregister (r : Registry) (name : String) : Except RegistryError Registry :=
  if r.contains name then .ok (r.erase name) else .error (.notFound name)

/-- The bound names in their order as texts. -/
def names (r : Registry) : List String :=
  (r.bindings.map Prod.fst).mergeSort fun a b => a < b || a == b

/-- The symbols of names, and the names that are not bound, each once. -/
def snapshot (r : Registry) (names : List String) : List (String × HostSymbol) × List String :=
  (names.filterMap fun n => (r.find? n).map fun s => (n, s),
   (names.filter fun n => !r.contains n).eraseDups)

/-- A description for inspection. -/
def renderDebug (r : Registry) : String :=
  "Registry \x7b options: RegistryOptions \x7b allow_overwrite: " ++ toString r.allowOverwrite ++
    s!" \x7d, symbols: {r.size} \x7d"

end Registry

end LiveC

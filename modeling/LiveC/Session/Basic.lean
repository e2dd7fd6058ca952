import LiveC.Host.Call
import LiveC.Lowering.Object
import LiveC.Object.Elf

/-!
Sessions: one source or object from compilation to execution. A session goes forward from
created to compiled, loaded and unloaded, or ends in a failure; it has an image exactly while
it is loaded. An operation that the state does not allow changes nothing, and its error says why. A
session counts what it did.
-/

namespace LiveC

/-! ### States and errors -/

/-- How far a session has come. -/
inductive SessionState where
  | created | compiled | linked | loaded | unloaded | compileFailed | linkFailed
  deriving DecidableEq, Repr

namespace SessionState

def render : SessionState → String
  | created => "created"
  | compiled => "compiled"
  | linked => "linked"
  | loaded => "loaded"
  | unloaded => "unloaded"
  | compileFailed => "failed (compile)"
  | linkFailed => "failed (link)"

/-- The name of the state for inspection. -/
def renderDebug : SessionState → String
  | created => "Created"
  | compiled => "Compiled"
  | linked => "Linked"
  | loaded => "Loaded"
  | unloaded => "Unloaded"
  | compileFailed => "Failed(Compile)"
  | linkFailed => "Failed(Link)"

end SessionState

inductive CompileError where
  | failed (diagnostics : List Diagnostic)
  | state (s : SessionState)
  deriving DecidableEq, Repr

namespace CompileError

def diagnostics : CompileError → List Diagnostic
  | failed ds => ds
  | state _ => []

/-- A failure is named after the first error. -/
def message : CompileError → String
  | failed ds =>
    let first := ((ds.find? Diagnostic.isError).map Diagnostic.render).getD "no diagnostics"
    s!"compilation failed: {first}"
  | state s => s!"cannot compile a session in state {s.render}"

end CompileError

/-- Why a session is not linked and loaded. -/
inductive LoadError where
  | state (s : SessionState)
  /-- The object was compiled to be written to a file. -/
  | notExecutable
  | link (e : LinkError)
  deriving DecidableEq, Repr

def LoadError.message : LoadError → String
  | state s => s!"cannot link a session in state {s.render}"
  | notExecutable => "session was compiled for object output and cannot be loaded"
  | link e => e.message

inductive ExecuteError where
  | unloaded
  | notLoaded (s : SessionState)
  | call (e : CallError)
  deriving DecidableEq, Repr

def ExecuteError.message : ExecuteError → String
  | unloaded => "session has been unloaded"
  | notLoaded s => s!"session is not loaded (state {s.render})"
  | call e => e.message

/-- Operations on the object of a session. -/
inductive ObjectOperation where
  | adopt | take | emit
  deriving DecidableEq, Repr

def ObjectOperation.name : ObjectOperation → String
  | adopt => "adopt an object"
  | take => "take the object"
  | emit => "emit an object"

inductive SessionError where
  | state (operation : ObjectOperation) (s : SessionState)
  | emission (fault : ObjectFault)
  deriving DecidableEq, Repr

def SessionError.message : SessionError → String
  | state operation s => s!"cannot {operation.name} in state {s.render}"
  | emission fault => s!"object emission failed: malformed object: {fault.message}"

/-! ### What a session counts -/

/-- The extent of the object, what linking did, and how often the code was called. -/
structure SessionStats where
  functions : Nat := 0
  dataSymbols : Nat := 0
  codeSize : Nat := 0
  dataSize : Nat := 0
  /-- The first of the largest functions that have a size, by name. -/
  largest : Option (String × Nat) := none
  relocations : Nat := 0
  relocationsApplied : Nat := 0
  externalsResolved : Nat := 0
  stubs : Nat := 0
  executions : Nat := 0
  deriving DecidableEq, Repr

namespace SessionStats

/-- The sum of sizes, which stops at the largest word. -/
def totalSize (sizes : List Nat) : Nat := sizes.foldl (fun n size => min (n + size) (Word.modulus - 1)) 0

/-- The larger of two functions, the first one if they are equal; one without a size is
none. -/
def larger (best : Option (String × Nat)) (s : ObjectSymbol) : Option (String × Nat) :=
  if (best.map Prod.snd).getD 0 < s.size then some (s.name, s.size) else best

/-- The extent of an object. -/
def ofObject (o : Object) : SessionStats :=
  let functions := o.symbols.filter (·.kind = .function)
  { functions := functions.length
    dataSymbols := (o.symbols.filter (·.kind = .data)).length
    codeSize := totalSize ((o.sections.filter (·.kind = .text)).map (·.size))
    dataSize := totalSize ((o.sections.filter (·.kind ≠ .text)).map (·.size))
    largest := functions.foldl larger none
    relocations := o.relocations.length }

/-- Adds what linking did. -/
def withLink (s : SessionStats) (l : LinkStats) : SessionStats :=
  { s with
    relocationsApplied := l.relocationsApplied
    externalsResolved := l.externalsResolved
    stubs := l.stubs }

/-- One line for each number, under a title. A function without a name is not shown. -/
def render (s : SessionStats) : String :=
  let largest := match s.largest with
    | some (name, size) => if name.isEmpty then [] else [s!"Largest function: {name} ({size} bytes)"]
    | none => []
  let lines :=
    [s!"Functions compiled: {s.functions}",
     s!"Data symbols: {s.dataSymbols}",
     s!"Total code size: {s.codeSize} bytes",
     s!"Total data size: {s.dataSize} bytes",
     s!"Relocations: {s.relocations} ({s.relocationsApplied} applied)",
     s!"Externals resolved: {s.externalsResolved}",
     s!"Jump stubs: {s.stubs}",
     s!"Executions: {s.executions}"] ++ largest
  "Session Statistics:\n" ++ String.join (lines.map fun l => s!"  {l}\n")

end SessionStats

/-! ### Sessions -/

/-- Compiles sources to objects. -/
structure Compiler where
  name : String
  compile : String → CompileOptions → Except (List Diagnostic) (Object × List Diagnostic)

/-- The compiler for the x86-64 machine. -/
def Compiler.x64 : Compiler := ⟨"x64", compileSource⟩

/-- What a session holds in each state. The object of a session can be taken once it is of no
more use to it. -/
inductive Phase where
  | created
  | compiled (object : Object) (purpose : Purpose)
  | linked (object : Object) (image : Image)
  | loaded (object : Object) (image : Image)
  | unloaded (object : Option Object)
  | compileFailed
  | linkFailed (object : Option Object)

structure Session where
  compiler : Compiler := .x64
  phase : Phase := .created
  diagnostics : List Diagnostic := []
  stats : SessionStats := {}

namespace Phase

def state : Phase → SessionState
  | created => .created
  | compiled .. => .compiled
  | linked .. => .linked
  | loaded .. => .loaded
  | unloaded _ => .unloaded
  | compileFailed => .compileFailed
  | linkFailed _ => .linkFailed

def object? : Phase → Option Object
  | created | compileFailed => none
  | compiled o _ | linked o _ | loaded o _ => some o
  | unloaded o | linkFailed o => o

def image? : Phase → Option Image
  | loaded _ i => some i
  | _ => none

end Phase

namespace Session

variable {σ : Type}

def state (s : Session) : SessionState := s.phase.state

/-- The object, while the session has it. -/
def object? (s : Session) : Option Object := s.phase.object?

/-- The loaded image. -/
def image? (s : Session) : Option Image := s.phase.image?

/-- The blocks of the loaded image. -/
def regions (s : Session) : List Region := (s.image?.map Image.regions).getD []

/-- The address of a global symbol of the loaded image. -/
def symbolAddress? (s : Session) (name : String) : Option Word := do
  let symbol ← (← s.image?).symbol? name
  return symbol.address

/-- A description for inspection. -/
def renderDebug (s : Session) : String :=
  let fields :=
    [s!"backend: {Text.quoted s.compiler.name}", s!"state: {s.state.renderDebug}",
     s!"diagnostics: {s.diagnostics.length}", s!"regions: {s.regions.length}"]
  "Session \x7b " ++ ", ".intercalate fields ++ " \x7d"

/-! ### Objects -/

/-- Takes up an object. -/
def accept (s : Session) (o : Object) (purpose : Purpose) : Session :=
  { s with phase := .compiled o purpose, stats := .ofObject o }

/-- Compiles a source. -/
def compile (s : Session) (source : String) (options : CompileOptions) :
    Except CompileError Unit × Session :=
  match s.phase with
  | .created =>
    match s.compiler.compile source options with
    | .ok (o, warnings) =>
      let s := { s with diagnostics := s.diagnostics ++ warnings }
      (.ok (), s.accept o options.purpose)
    | .error ds =>
      (.error (.failed ds), { s with phase := .compileFailed, diagnostics := s.diagnostics ++ ds })
  | phase => (.error (.state phase.state), s)

/-- Takes an object in place of a source. -/
def adopt (s : Session) (o : Object) : Except SessionError Unit × Session :=
  match s.phase with
  | .created => (.ok (), s.accept o .execution)
  | phase => (.error (.state .adopt phase.state), s)

/-- Gives the object away when the session cannot use it any more. -/
def takeObject (s : Session) : Except SessionError Object × Session :=
  match s.phase with
  | .unloaded (some o) => (.ok o, { s with phase := .unloaded none })
  | .linkFailed (some o) => (.ok o, { s with phase := .linkFailed none })
  | phase => (.error (.state .take phase.state), s)

/-- The object as a file. -/
def emitObject (s : Session) : Except SessionError (List UInt8) :=
  match s.object? with
  | some o => o.emit.mapError .emission
  | none => .error (.state .emit s.state)

/-! ### Images -/

/-- Ends with a failure of linking or loading. One that linking has not reported itself is
reported here. -/
def failLink (s : Session) (o : Object) (e : LinkError) : Session :=
  let reports := match e.diagnostics with
    | [] => [⟨.link, .error, e.message, none⟩]
    | ds => ds
  { s with phase := .linkFailed (some o), diagnostics := s.diagnostics ++ reports }

/-- Links the object. -/
def link (s : Session) (registry : Registry) (space : AddressSpace) :
    Except LoadError AddressSpace × Session :=
  match s.phase with
  | .compiled _ .emission => (.error .notExecutable, s)
  | .compiled o .execution =>
    match o.link registry space with
    | .ok (image, space) => (.ok space, { s with phase := .linked o image })
    | .error e => (.error (.link e), s.failLink o e)
  | phase => (.error (.state phase.state), s)

/-- Loads a linked image. -/
def load (s : Session) (h : Host σ) : Except LoadError Unit × Session × Host σ :=
  match s.phase with
  | .linked o image =>
    match image.load with
    | .ok image =>
      (.ok (), { s with phase := .loaded o image, stats := s.stats.withLink image.stats },
        h.place image)
    | .error e => (.error (.link e), s.failLink o e, h)
  | phase => (.error (.state phase.state), s, h)

/-- Links the object and loads it. -/
def linkAndLoad (s : Session) (registry : Registry) (h : Host σ) :
    Except LoadError Unit × Session × Host σ :=
  match s.link registry h.space with
  | (.ok space, s) => s.load { h with space }
  | (.error e, s) => (.error e, s, h)

/-- Calls a function of the loaded image. -/
def execute (s : Session) (functions : HostFunctions σ) (h : Host σ) (entry : String)
    (args : List Value) : Except ExecuteError Value × Session × Host σ :=
  match s.phase with
  | .loaded _ image =>
    match h.execute functions image entry args with
    | .ok (v, h) =>
      (.ok v, { s with stats := { s.stats with executions := s.stats.executions + 1 } }, h)
    | .error e =>
      let report : Diagnostic := ⟨.execute, .error, e.message, none⟩
      (.error (.call e), { s with diagnostics := s.diagnostics ++ [report] }, h)
  | .unloaded _ => (.error .unloaded, s, h)
  | phase => (.error (.notLoaded phase.state), s, h)

/-- Unloads the image; without one there is nothing to do. -/
def unload (s : Session) (h : Host σ) : Session × Host σ :=
  match s.phase with
  | .loaded o image => ({ s with phase := .unloaded (some o) }, h.remove image)
  | _ => (s, h)

end Session

end LiveC

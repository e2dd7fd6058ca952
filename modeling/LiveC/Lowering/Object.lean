import LiveC.Lowering.Data
import LiveC.Lowering.Function
import LiveC.Parser.Source
import LiveC.Program.Written

/-!
From a typed unit to its object: code in section 0, then the sections of data, and a symbol
for each function and global variable. References inside the unit become relocations
against its sections, all others are left to the linker.
-/

namespace LiveC

/-! ### The wording of errors -/

def LoweringError.message : LoweringError → String
  | frameTooLarge name => s!"stack frame exceeds {Frame.maxSize} bytes at local '{name}'"
  | stackParameters => "unsupported construct: stack-passed parameters"
  | stackArguments => "unsupported construct: stack-passed arguments"
  | storeOf ty => s!"unsupported construct: store of type '{ty.render}'"
  | notAddressable => "unsupported construct: address of a non-lvalue"
  | notOnDoubles op => s!"unsupported construct: {op.name} on double operands"
  | stepTooLarge delta => s!"unsupported construct: increment by {delta.toInt}"
  | outsideLoop => "unsupported construct: jump outside of a loop"
  | unknownString id => s!"unsupported construct: unknown string literal #{id}"
  | unknownVariable id => s!"unsupported construct: unknown variable #{id}"

/-- The report that a function cannot be lowered. -/
def LoweringError.diagnostic (f : Function) (e : LoweringError) : Diagnostic :=
  ⟨.compile, .error, s!"code generation failed for '{f.name}': {e.message}", some f.loc⟩

/-- The report that the code of a unit cannot be assembled. -/
def AssemblyError.diagnostic (e : AssemblyError) : Diagnostic :=
  ⟨.compile, .error, s!"code generation failed: {e.message}", none⟩

/-! ### Objects -/

namespace Lowering

/-- Where a unit has its names. -/
def unitLayout (u : TranslationUnit) (d : DataLayout) : UnitLayout where
  entries := u.functions.zipIdx.map fun (f, i) => (f.name, i)
  data := d.places.map fun (name, kind, offset) => (name, d.sectionId kind, offset)
  strings := d.strings.map fun offset => (d.sectionId .readOnly, offset)

/-- The target of a relocation, and what the place of the target adds. -/
def relocTarget {ρ : Type} (code : Assembled ρ) : CodeTarget → RelocTarget × Int
  | .entry l => (.sectionStart 0, ((code.labelOffset? l).getD 0 : Nat))
  | .place id offset => (.sectionStart id, (offset : Nat))
  | .imported name => (.symbol name, 0)

/-- Addends are words, read with their sign. -/
def asAddend (n : Int) : Int := (BitVec.ofInt 64 n).toInt

/-- The addend of a field: the distance of a call counts from its end. -/
def fieldAddend : RelocKind → Int
  | .branch32 => -4
  | _ => 0

/-- The relocation of a linked field of code. -/
def codeRelocation (code : Assembled Reference) (site : Nat × Reference) : Relocation :=
  let (target, base) := relocTarget code site.2.target
  { offset := site.1, kind := site.2.kind, target,
    addend := asAddend (base + fieldAddend site.2.kind), expected := site.2.expected }

/-- What a name is declared as. -/
def declaredKind (u : TranslationUnit) (name : String) : Option SymbolKind :=
  (u.symbols.find? name).map fun s => if s.ty.isFunction then .function else .data

/-- The relocation of an address in data. -/
def dataRelocation (u : TranslationUnit) (layout : UnitLayout) (code : Assembled Reference)
    (a : DataAddress) : Relocation :=
  let place := match a.target with
    | .symbol name => layout.target name
    | .str id =>
      let (sectionId, offset) := layout.strings[id]?.getD (0, 0)
      .place sectionId offset
  let expected := match a.target, place with
    | .symbol name, .imported _ => declaredKind u name
    | _, _ => none
  let (target, base) := relocTarget code place
  { offset := a.offset, kind := .abs64, target, addend := asAddend (base + a.addend), expected }

/-- The section of a kind of data. -/
def dataSection (u : TranslationUnit) (layout : UnitLayout) (code : Assembled Reference)
    (d : DataLayout) (kind : DataKind) : Section :=
  let b := d.buffer kind
  match kind with
  | .zero => .zeroed b.size b.align
  | kind =>
    .ofBytes kind.sectionKind b.reversed.reverse b.align
      ((d.addresses.filter (·.kind = kind)).map (dataRelocation u layout code))

/-- The symbol of a function, which reaches to the next one or to the end of the code. -/
def functionSymbol (code : Assembled Reference) (starts : List Nat) (f : Function)
    (start : Nat) : ObjectSymbol :=
  let stop := ((starts.filter (start < ·)).min?).getD code.code.length
  { name := f.name, kind := .function, sectionId := 0, offset := start, size := stop - start,
    isGlobal := !f.isStatic, shape := some (.ofSignature f.signature) }

def globalSymbol (d : DataLayout) (g : GlobalVar) : Option ObjectSymbol :=
  (d.places.lookup g.name).map fun (kind, offset) =>
    { name := g.name, kind := .data, sectionId := d.sectionId kind, offset, size := g.ty.size,
      isGlobal := !g.isStatic }

def textAlign : Nat := 16

/-- The object of laid-out code and data. -/
def buildObject (u : TranslationUnit) (layout : UnitLayout) (d : DataLayout)
    (code : Assembled Reference) : Object :=
  let text := Section.ofBytes .text code.code textAlign (code.sites.map (codeRelocation code))
  let starts := u.functions.zipIdx.map fun (f, i) => (f, (code.labelOffset? i).getD 0)
  { sections := text :: d.kinds.map (dataSection u layout code d)
    symbols := starts.map (fun (f, start) => functionSymbol code (starts.map (·.2)) f start) ++
      u.globals.filterMap (globalSymbol d) }

end Lowering

open Lowering in
/-- The object of a typed unit. -/
def TranslationUnit.lower (u : TranslationUnit) : Except Diagnostic Object := do
  let d := DataLayout.ofUnit u
  let layout := unitLayout u d
  let (code, labels) ← (Lowering.functions layout 0 u.functions u.functions.length).mapError
    fun (f, e) => e.diagnostic f
  let assembled ← (Code.assemble code labels).mapError AssemblyError.diagnostic
  return buildObject u layout d assembled

/-- The size of machine words that a program is compiled for. -/
inductive WordSize where
  | w32 | w64
  deriving DecidableEq, Repr

/-- How a program passes arguments. -/
inductive CallingConvention where
  | systemV | win64
  deriving DecidableEq, Repr

/-- What an object is compiled for. -/
inductive Purpose where
  /-- To be loaded and called. -/
  | execution
  /-- To be written to a file. -/
  | emission
  deriving DecidableEq, Repr

structure CompileOptions where
  word : WordSize := .w64
  convention : CallingConvention := .systemV
  purpose : Purpose := .execution
  /-- Macros that are defined from the start. -/
  defines : List (String × String) := []
  deriving Repr

/-- Why a source is not compiled for a machine. -/
inductive TargetError where
  | word32
  | win64
  deriving DecidableEq, Repr

def TargetError.message : TargetError → String
  | word32 => "32-bit targets are not supported by the x64 backend"
  | win64 => "calling convention 'win64' is not supported by the x64 backend"

def TargetError.diagnostic (e : TargetError) : Diagnostic := ⟨.compile, .error, e.message, none⟩

/-- The first reason why options cannot be met. -/
def CompileOptions.checkTarget (o : CompileOptions) : Except TargetError Unit := do
  if o.word = .w32 then throw .word32
  if o.convention = .win64 then throw .win64

/-- Compiles a source. Gives the object with all warnings, or the errors. -/
def compileSource (source : String) (o : CompileOptions) :
    Except (List Diagnostic) (Object × List Diagnostic) := do
  (o.checkTarget).mapError fun e => [e.diagnostic]
  let (unit, warnings) ← parseSource source o.defines
  let object ← unit.lower.mapError ([·])
  return (object, warnings)

end LiveC

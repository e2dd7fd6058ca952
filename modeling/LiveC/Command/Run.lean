import LiveC.CLibrary.Basic
import LiveC.Command.Arguments
import LiveC.Command.FileTree
import LiveC.Machine.Listing
import LiveC.Session.Basic

/-!
Running commands: from the text of the source file to what is printed and written. The caller
reads and writes the files, or has the command run on files in memory.
-/

namespace LiveC

/-- Why a command fails. -/
inductive CommandError where
  | read (path cause : String)
  | write (path cause : String)
  | argument (text : String)
  | compile (e : CompileError)
  | load (e : LoadError)
  | execute (e : ExecuteError)
  | session (e : SessionError)
  deriving DecidableEq, Repr

def CommandError.message : CommandError → String
  | read path cause => s!"cannot read {path}: {cause}"
  | write path cause => s!"cannot write {path}: {cause}"
  | argument text =>
    s!"invalid argument '{text}': expected an integer or a floating point number"
  | compile e => e.message
  | load e => e.message
  | execute e => e.message
  | session e => e.message

/-- What a command leaves. -/
structure Outcome where
  exit : UInt8 := 0
  stdout : List UInt8 := []
  stderr : String := ""
  /-- The file to be written, with its path. -/
  file : Option (String × List UInt8) := none
  deriving DecidableEq, Repr

namespace Outcome

/-- The name of the program in front of its errors. -/
def programName : String := "cscript"

/-- The outcome of a failure, behind what was reported before. -/
def failed (stderr : String) (e : CommandError) : Outcome :=
  { exit := 1, stderr := stderr ++ programName ++ ": " ++ e.message ++ "\n" }

/-- The outcome when the file cannot be written. -/
def withWriteFailure (o : Outcome) (path cause : String) : Outcome :=
  failed o.stderr (.write path cause)

end Outcome

namespace Command

/-- The host of a command. -/
def host : Host Unit := { state := () }

/-- Names that programs can use. -/
def registry : Registry := (({} : Registry).registerAll CLibrary.symbols).1

/-- A line for each diagnostic of a file. -/
def report (file : String) (ds : List Diagnostic) : String :=
  String.join (ds.map fun d => s!"{file}:{d.render}\n")

/-- Compiles a source file in a new session. Gives the session and its reports. -/
def compileFile (c : Command) (purpose : Purpose) (source : Except String String) :
    Except Outcome (Session × String) :=
  match source with
  | .error cause => .error (.failed "" (.read c.file cause))
  | .ok text =>
    let options : CompileOptions := { purpose, defines := c.defines.map macroDefinition }
    let (result, s) := ({} : Session).compile text options
    let reports := report c.file s.diagnostics
    match result with
    | .ok () => .ok (s, reports)
    | .error e => .error (.failed reports (.compile e))

/-- The values of arguments, or the first text that is none. -/
def values : List String → Except CommandError (List Value)
  | [] => .ok []
  | text :: rest =>
    match Value.ofText? text with
    | some v => (values rest).map (v :: ·)
    | none => .error (.argument text)

/-- The listing of all loaded code. -/
def loadedListing (s : Session) : String :=
  String.join <| (s.regions.filter (·.kind = .text)).flatMap fun r =>
    (listing r.contents r.base).map fun line => line ++ "\n"

/-- Loads what was compiled and calls a function of it. The result is printed in front of what
the program has written and still waits in its buffer. -/
def callEntry (s : Session) (reports entry : String) (args : List Value) (listing : Bool) :
    Outcome :=
  match s.linkAndLoad registry host with
  | (.error e, _, _) => .failed reports (.load e)
  | (.ok (), s, h) =>
    let lines := if listing then loadedListing s else ""
    match s.execute CLibrary.functions h entry args with
    | (.error e, _, _) => { Outcome.failed reports (.execute e) with stdout := Text.utf8 lines }
    | (.ok v, _, h) =>
      let result := if v.isVoid then "" else v.render ++ "\n"
      { stdout := Text.utf8 lines ++ h.output.written.toList ++ Text.utf8 result ++
          h.output.waiting.toList
        stderr := reports }

/-- The outcome of a command, for the text of its source file or the reason why it cannot be
read. -/
def outcome (c : Command) (source : Except String String) : Outcome :=
  match c with
  | .run _ entry args _ listing =>
    match values args with
    | .error e => .failed "" e
    | .ok args =>
      match c.compileFile .execution source with
      | .error o => o
      | .ok (s, reports) => callEntry s reports entry args listing
  | .compile _ output _ =>
    match c.compileFile .emission source with
    | .error o => o
    | .ok (s, reports) =>
      match s.emitObject with
      | .error e => .failed reports (.session e)
      | .ok bytes => { stderr := reports, file := some (output, bytes) }
  | .check .. =>
    match c.compileFile .execution source with
    | .error o => o
    | .ok (_, reports) => { stderr := reports }

/-- The text in the bytes of a source file, or why there is none. -/
def sourceText (bytes : List UInt8) : Except String String :=
  match String.fromUTF8? ⟨bytes.toArray⟩ with
  | some text => .ok text
  | none => .error "stream did not contain valid UTF-8"

/-- Runs a command on files in memory, to its outcome and the files behind it. -/
def runOn (c : Command) (t : FileTree) : Outcome × FileTree :=
  let o := c.outcome ((t.read c.file).mapError PathError.message >>= sourceText)
  match o.file with
  | none => (o, t)
  | some (path, bytes) =>
    match t.write path bytes with
    | .ok t => (o, t)
    | .error e => (o.withWriteFailure path e.message, t)

end Command

end LiveC
